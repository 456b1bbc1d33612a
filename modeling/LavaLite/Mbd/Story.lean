import LavaLite.Mbd.Rebuild

/-
What the records of a job say, whatever the configuration they are read under.  The
records mbd writes about one job follow an order: a start finds the job waiting, a
return finds it started, nothing but late news comes after the end.
-/

namespace LavaLite.Mbd

open Base Batch Kernel List Option

/-- What the records of a job have said so far. -/
structure Story where
  listId : ListId
  state : JobState
  queue : QueueName
  hosts : List HostName
  numGpus : Int
  deriving DecidableEq, Repr

def Story.first (e : LogJobNew) : Story :=
  { listId := .pend
    state := e.state
    queue := e.queue
    hosts := []
    numGpus := e.numGpus }

/-- One more record of the job; `none` where mbd writes no such record. -/
def Story.next (s : Story) : Event → Option Story
  | .jobNew _ | .jobSusp _ _ => none
  | .jobStart e =>
    if s.listId = .pend ∧ (e.hosts.length : Int) = e.nhosts then
      some { s with listId := .run, state := .running, hosts := e.hosts }
    else none
  | .jobPend _ _ =>
    if s.listId = .run then some { s with listId := .pend, state := .pending, hosts := [] }
    else none
  | .jobPendSusp _ _ =>
    if s.listId = .pend ∧ s.state = .pending then some { s with state := .held } else none
  | .jobPendResume _ _ =>
    if s.listId = .pend ∧ s.state = .held then some { s with state := .pending } else none
  | .jobMove _ _ _ toQueue => if s.listId = .pend then some { s with queue := toQueue } else none
  | .jobFinish _ _ state _ _ =>
    if s.listId ≠ .finish ∧ state ≠ .orphan ∧ state ≠ .broken then
      some { s with listId := .finish, state := state }
    else none
  | .jobFork _ _ _ | .jobSignal _ _ _ _ | .jobPriority _ _ _ _ => some s

def tell (current : Option Story) (e : Event) : Option (Option Story) :=
  match current, e with
  | none, .jobNew e => if e.state = .orphan then none else some (some (Story.first e))
  | none, _ => none
  | some s, e => (s.next e).map some

def storyOf (manifest : List Event) (j : JobId) : Option (Option Story) :=
  along recordJob tell j manifest none

structure Story.Matches (s : Story) (job : JobData) : Prop where
  listId : s.listId = job.listId
  state : job.listId = .pend → s.state = job.state
  queue : job.queue = some s.queue
  hosts : job.listId = .run → s.hosts = job.hosts
  numGpus : s.numGpus = job.res.numGpus

structure Story.Settled (s : Story) : Prop where
  waiting : s.listId = .pend → s.state.isWaiting = true
  distinct : s.listId = .run → s.hosts.Nodup

structure StoryStep (records : List Event) (j : JobId) (job job' : JobData) : Prop where
  about : ∀ e ∈ records, recordJob e = j
  tells : ∀ {s : Story}, s.Matches job → ∃ s', along recordJob tell j records (some s) =
    some (some s') ∧ s'.Matches job'

/--
The manifest tells one story of every job of the table.  It may still tell of a job
that a start has lost; the id of that one is in the sequence file.
-/
structure Narrated (m : MbdState) : Prop where
  told : ∀ j, ∃ current, storyOf m.manifest j = some current ∧
    (∀ s, current = some s → s.Settled ∧ (j ≤ m.seqFile ∨ m.jobs j ≠ none)) ∧
    ∀ job, m.jobs j = some job → ∃ s, current = some s ∧ s.Matches job

variable {conf : Conf} {j : JobId} {job job' between : JobData} {s : Story} {e : Event}
  {state : JobState} {rest : List Event}

theorem tell_one (about : recordJob e = j) {current next : Option Story}
    (told : tell current e = some next) : along recordJob tell j [e] current = some next := by
  rw [along, if_pos about, told]
  rfl

theorem Story.Matches.settled (found : s.Matches job) (wf : JobWf conf j job) : s.Settled where
  waiting := by
    intro pending
    have on : job.listId = .pend := found.listId.symm.trans pending
    rw [found.state on]
    exact (wf.waiting on).state
  distinct := by
    intro running
    have on : job.listId = .run := found.listId.symm.trans running
    rw [found.hosts on]
    exact (wf.running on).hosts_nodup

theorem StoryStep.single (about : recordJob e = j)
    (tells : ∀ {s : Story}, s.Matches job → ∃ s', s.next e = some s' ∧ s'.Matches job') :
    StoryStep [e] j job job' where
  about := by
    intro e' member
    rw [mem_singleton.mp member, about]
  tells := by
    intro s found
    obtain ⟨s', next, found'⟩ := tells found
    refine ⟨s', tell_one about ?_, found'⟩
    simp only [tell, next, map_some]

theorem StoryStep.trans {first : List Event} (before : StoryStep first j job between)
    (after : StoryStep rest j between job') : StoryStep (first ++ rest) j job job' where
  about := by
    intro e member
    rcases mem_append.mp member with early | late
    · exact before.about e early
    · exact after.about e late
  tells := by
    intro s found
    obtain ⟨s₁, told, found₁⟩ := before.tells found
    obtain ⟨s₂, told', found₂⟩ := after.tells found₁
    refine ⟨s₂, ?_, found₂⟩
    rw [along_append, told]
    exact told'

theorem StoryStep.cons (before : StoryStep [e] j job between)
    (after : StoryStep rest j between job') : StoryStep (e :: rest) j job job' :=
  before.trans after

theorem StoryStep.silent (tells : ∀ {s : Story}, s.Matches job → s.Matches job') :
    StoryStep [] j job job' where
  about := forall_mem_nil _
  tells := fun found => ⟨_, rfl, tells found⟩

theorem StoryStep.aside (about : recordJob e = j) (kept : ∀ s : Story, s.next e = some s)
    (tells : ∀ {s : Story}, s.Matches job → s.Matches job') : StoryStep [e] j job job' :=
  .single about fun found => ⟨_, kept _, tells found⟩

theorem StoryStep.start {e : LogJobStart} (about : e.jobId = j) (pending : job.listId = .pend)
    (whole : (e.hosts.length : Int) = e.nhosts) (running : job'.listId = .run)
    (queue : job'.queue = job.queue) (hosts : job'.hosts = e.hosts)
    (numGpus : job'.res.numGpus = job.res.numGpus) : StoryStep [.jobStart e] j job job' := by
  refine .single about fun {s} found => ⟨_, if_pos ⟨found.listId.trans pending, whole⟩, ?_⟩
  exact ⟨running.symm, fun on => absurd (running.symm.trans on) (by decide),
    queue.trans found.queue, fun _ => hosts.symm, found.numGpus.trans numGpus.symm⟩

theorem StoryStep.finish {uid : Nat} {exitStatus : Int} {endTime : Time}
    (open_ : job.listId ≠ .finish) (known : state ≠ .orphan ∧ state ≠ .broken)
    (isOver : job'.listId = .finish) (queue : job'.queue = job.queue)
    (numGpus : job'.res.numGpus = job.res.numGpus) :
    StoryStep [.jobFinish j uid state exitStatus endTime] j job job' := by
  refine .single rfl fun {s} found =>
    ⟨_, if_pos ⟨fun ended => open_ (found.listId.symm.trans ended), known⟩, ?_⟩
  exact ⟨isOver.symm, fun on => absurd (isOver.symm.trans on) (by decide), queue.trans found.queue,
    fun on => absurd (isOver.symm.trans on) (by decide), found.numGpus.trans numGpus.symm⟩

/-! ### Every effect and every commit -/

variable {permits : Permit} {m m' : MbdState}

theorem StoryStep.restate {state' : JobState} {now : Time} (about : recordJob e = j)
    (pending : job.listId = .pend) (was : job.state = state)
    (next : ∀ s : Story, s.listId = .pend → s.state = state →
      s.next e = some { s with state := state' }) :
    StoryStep [e] j job (signalledJob job state' now) := by
  refine .single about fun {s} found =>
    ⟨_, next s (found.listId.trans pending) ((found.state pending).trans was), ?_⟩
  exact ⟨found.listId, fun _ => rfl, found.queue, found.hosts, found.numGpus⟩

inductive Retells (m m' : MbdState) : Prop where
  | same (jobs : m'.jobs = m.jobs) (manifest : m'.manifest = m.manifest)
      (seqFile : m'.seqFile = m.seqFile)
  | recorded {j : JobId} {job job' : JobData} {records : List Event}
      (found : m.jobs j = some job) (jobs : m'.jobs = Function.update m.jobs j (some job'))
      (manifest : m'.manifest = m.manifest ++ records) (seqFile : m'.seqFile = m.seqFile)
      (step : StoryStep records j job job')
  | compact (compacted : manifestRebuild m = some m')

theorem Change.retells {onHost : HostChange} {onQueue : QueueChange} {pools : PoolName → Int}
    {records : List Event} {sent : Outbox}
    (change : Change m m' j job job' onHost onQueue pools records sent)
    (step : StoryStep records j job job') : Retells m m' :=
  .recorded change.found change.jobs change.manifest change.seqFile step

theorem Effect.retells (wf : Wf conf m) (effect : Effect conf permits m m') : Retells m m' := by
  cases effect with
  | frame framed => exact .same framed.jobs framed.manifest framed.seqFile
  | ackReply _ _ sends | ackFinish _ _ sends =>
    subst sends
    exact .same rfl rfl rfl
  | compact _ compacted => exact .compact compacted
  | note pending change => exact change.retells (.silent fun found => { found with })
  | stranded pending _ _ _ _ change =>
    refine change.retells (.silent fun found => { found with hosts := fun on => ?_ })
    exact absurd (pending.symm.trans on) (by decide)
  | dispatch pending _ _ _ planned _ _ _ change =>
    refine change.retells (.start (wf.job change.found).id pending ?_ rfl rfl rfl rfl)
    simp only [JobData.hosts, dispatchedJob, plannedJob, take_length]
    exact planned.count
  | signalSent _ _ change | priority _ _ change =>
    exact change.retells (.aside (wf.job change.found).id (fun _ => rfl) fun found =>
      { found with })
  | hold pending ready _ change | unhold pending ready _ change =>
    refine change.retells (.cons (.aside (wf.job change.found).id (fun _ => rfl) id)
      (.restate rfl pending ready ?_))
    exact fun s on was => if_pos ⟨on, was⟩
  | kill pending _ _ _ change =>
    have id := (wf.job change.found).id
    refine change.retells (.cons (.aside id (fun _ => rfl) fun found => found) ?_)
    rw [eventJobFinish, killedJob, id]
    refine .finish ?_ ⟨JobState.noConfusion, JobState.noConfusion⟩ rfl rfl rfl
    rw [pending]
    decide
  | move pending _ _ known _ change =>
    refine change.retells (.single (wf.job change.found).id fun {s} found => ?_)
    refine ⟨_, if_pos (found.listId.trans pending), { found with queue := ?_ }⟩
    exact congrArg some (queueText_fits known).symm
  | fork running _ _ _ _ change =>
    refine change.retells (.aside (wf.job change.found).id (fun _ => rfl) fun found =>
      { found with state := fun on => ?_ })
    exact absurd (running.symm.trans on) (by decide)
  | release running _ _ _ result _ _ change =>
    refine change.retells (.single rfl fun {s} found => ?_)
    refine ⟨_, if_pos (found.listId.trans running), ?_⟩
    rcases result with rfl | rfl
    · exact ⟨rfl, fun _ => rfl, found.queue, (fun on => by cases on), found.numGpus⟩
    · exact ⟨rfl, fun _ => rfl, found.queue, (fun on => by cases on), found.numGpus⟩
  | finish running _ _ _ _ _ _ change =>
    refine change.retells ?_
    rw [eventJobFinish, finishedJob, (wf.job change.found).id]
    refine .finish ?_ ?_ rfl rfl rfl
    · rw [running]
      decide
    · simp only
      split <;> decide
  | stopped left _ _ change | continued left _ _ change =>
    exact change.retells (.silent fun found =>
      { found with state := fun on => absurd on left })

/-! ### The records of a compaction -/

variable {block : List Event}

theorem NewRecord.matches {e : LogJobNew} (told : NewRecord conf e job) :
    (Story.first e).Matches (asNew job) where
  listId := rfl
  state := fun _ => told.state
  queue := by
    obtain ⟨q, known, ofQueue⟩ := told.queue
    exact ofQueue.trans (congrArg some (Conf.findQueue_name known))
  hosts := fun on => by cases on
  numGpus := told.numGpus

theorem story_of_new {e : LogJobNew} (told : NewRecord conf e job) (wf : JobWf conf j job)
    (steps : StoryStep rest j (asNew job) job) :
    ∃ s, along recordJob tell j (.jobNew e :: rest) none = some (some s) ∧ s.Matches job := by
  obtain ⟨s, later, found⟩ := steps.tells told.matches
  have about : recordJob (.jobNew e) = j := told.jobId.trans wf.id
  have known : e.state ≠ .orphan := told.state ▸ wf.ne_orphan
  refine ⟨s, ?_, found⟩
  rw [along, if_pos about, tell, if_neg known]
  exact later

theorem StoryStep.started (wf : JobWf conf j job) (placed : Placed conf job)
    (written : compactWriteJobStart job = some e) :
    StoryStep (e :: if job.forkTime ≠ 0 then [eventJobFork job] else []) j (asNew job)
      (asRunning job) := by
  obtain ⟨record, rfl, id, _, nhosts, hosts, count⟩ := compactWriteJobStart_spec placed written
  have start : StoryStep [.jobStart record] j (asNew job) (asRunning job) := by
    refine .start (id.trans wf.id) rfl ?_ rfl rfl ?_ rfl
    · rw [hosts, nhosts]
      exact count
    · rw [hosts, JobData.hosts, asRunning, placed.whole, take_length]
  split
  · exact start.cons (.aside wf.id (fun _ => rfl) fun found => found)
  · exact start

theorem compactOn_story (wf : JobWf conf j job) (written : compactOn job.listId job = some block) :
    ∃ s, along recordJob tell j block none = some (some s) ∧ s.Matches job := by
  obtain ⟨e, rest, rfl, told, _, follows⟩ := compactOn_cases wf written
  have isOver : ∀ {before : JobData}, before.listId ≠ .finish → job.listId = .finish →
      job.queue = before.queue → job.res.numGpus = before.res.numGpus →
        StoryStep [eventJobFinish job] j before job := by
    intro before open_ onFinish queue numGpus
    rw [eventJobFinish, wf.id]
    exact .finish open_ ⟨wf.ne_orphan, wf.ne_broken⟩ onFinish queue numGpus
  refine story_of_new told wf ?_
  cases follows with
  | waiting fresh =>
    rw [fresh]
    exact .silent id
  | running placed same _ started =>
    have steps := StoryStep.started wf placed started
    rwa [same] at steps
  | finished finished onFinish dispatched started =>
    exact (StoryStep.started wf (finished.placed dispatched) started).trans
      (isOver ListId.noConfusion onFinish rfl rfl)
  | killed _ onFinish => exact isOver ListId.noConfusion onFinish rfl rfl

/-! ### The whole manifest -/

theorem Narrated.congr (narrated : Narrated m) (jobs : m'.jobs = m.jobs)
    (manifest : m'.manifest = m.manifest) (saved : m.seqFile ≤ m'.seqFile) : Narrated m' where
  told := by
    intro j
    obtain ⟨current, told, settled, live⟩ := narrated.told j
    rw [manifest, jobs]
    refine ⟨current, told, fun s isStory => ?_, live⟩
    obtain ⟨ends, known⟩ := settled s isStory
    exact ⟨ends, known.imp_left fun below => Int.le_trans below saved⟩

theorem Narrated.append {records : List Event} (narrated : Narrated m) (wf' : Wf conf m')
    (found : m.jobs j = some job) (jobs : m'.jobs = Function.update m.jobs j (some job'))
    (manifest : m'.manifest = m.manifest ++ records) (seqFile : m'.seqFile = m.seqFile)
    (step : StoryStep records j job job') : Narrated m' where
  told := by
    intro i
    obtain ⟨current, told, settled, live⟩ := narrated.told i
    rw [manifest, storyOf, along_append, ← storyOf, told, bind_some, jobs]
    by_cases same : i = j
    · subst same
      obtain ⟨s, rfl, matches_⟩ := live job found
      obtain ⟨s', told', found'⟩ := step.tells matches_
      have here : m'.jobs i = some job' := by
        rw [jobs, Function.update_self]
      refine ⟨some s', told', ?_, ?_⟩
      · rintro _ ⟨⟩
        exact ⟨found'.settled (wf'.job here), .inr (by simp)⟩
      · intro other isJob
        rw [Function.update_self] at isJob
        cases isJob
        exact ⟨s', rfl, found'⟩
    · refine ⟨current, along_of_ne (fun e member about => ?_) current, ?_, ?_⟩
      · exact same (about.symm.trans (step.about e member))
      · rw [Function.update_of_ne same, seqFile]
        exact settled
      · rw [Function.update_of_ne same]
        exact live

theorem narrated_of_compacts (wf : Wf conf m) (compacts : ∀ j, Compacts m m' j) : Narrated m' where
  told := by
    intro j
    rw [storyOf, ← along_filter]
    cases compacts j with
    | freed gone silent _ =>
      rw [silent, gone]
      exact ⟨_, rfl, fun _ isStory => (by cases isStory), fun _ isJob => (by cases isJob)⟩
    | kept found still written own =>
      rw [own, still]
      obtain ⟨s, told, matches_⟩ := compactOn_story (wf.job found) written
      refine ⟨some s, told, ?_, ?_⟩
      · rintro _ ⟨⟩
        exact ⟨matches_.settled (wf.job found), .inr (by simp)⟩
      · rintro _ ⟨⟩
        exact ⟨s, rfl, matches_⟩

theorem Effect.narrated (narrated : Narrated m) (wf : Wf conf m)
    (effect : Effect conf permits m m') : Narrated m' := by
  cases effect.retells wf with
  | same jobs manifest seqFile => exact narrated.congr jobs manifest (Int.le_of_eq seqFile.symm)
  | recorded found jobs manifest seqFile step =>
    exact narrated.append (effect.wf wf) found jobs manifest seqFile step
  | compact compacted => exact narrated_of_compacts wf (compact_compacts compacted wf)

theorem Commit.narrated {ws : WireJobSubmit} {q : QueueName} (commit : Commit conf ws m m' q job)
    (narrated : Narrated m) : Narrated m' where
  told := by
    intro j
    obtain ⟨e, isNew, new⟩ := commit.prepared.newRecord
    obtain ⟨current, told, settled, live⟩ := narrated.told j
    rw [commit.manifest, isNew, storyOf, along_append, ← storyOf, told, bind_some,
      commit.jobs, commit.seqFile]
    by_cases same : j = job.jobId
    · subst same
      -- an id that was told of before is known or in the sequence file
      have fresh : current = none := by
        cases current with
        | none => rfl
        | some s =>
          rcases (settled s rfl).2 with below | known
          · exact absurd commit.unsaved (Int.not_lt.mpr below)
          · exact absurd commit.fresh known
      subst fresh
      have wf := commit.prepared.jobWf
      have matches_ := new.matches
      rw [(wf.waiting commit.prepared.list).asNew_eq commit.prepared.list] at matches_
      have about : recordJob (.jobNew e) = job.jobId := new.jobId
      refine ⟨_, tell_one about (if_neg (new.state ▸ wf.ne_orphan)), ?_, ?_⟩
      · rintro _ ⟨⟩
        exact ⟨matches_.settled wf, .inr (by simp)⟩
      · intro other isJob
        rw [Function.update_self] at isJob
        cases isJob
        exact ⟨_, rfl, matches_⟩
    · rw [Function.update_of_ne same]
      refine ⟨current, along_of_ne (fun e' member about => ?_) current, settled, live⟩
      rw [mem_singleton.mp member] at about
      exact same (about.symm.trans new.jobId)

theorem Registers.narrated {ws : WireJobSubmit} (registers : Registers conf ws m m')
    (wf : Wf conf m) (narrated : Narrated m) : Narrated m' := by
  apply registers.keeps_of_wf Narrated _ _ _ wf narrated
  · exact fun _ before framed =>
      before.congr framed.jobs framed.manifest (Int.le_of_eq framed.seqFile.symm)
  · exact fun _ before commit => commit.narrated before
  · exact fun sound before => before.congr rfl rfl sound.saved.2

theorem Restored.narrated (restored : Restored conf m m') (saved : IdsSaved m)
    (narrated : Narrated m) : Narrated m' where
  told := by
    intro j
    obtain ⟨current, told, settled, live⟩ := narrated.told j
    rw [restored.manifest, restored.seqFile]
    refine ⟨current, told, fun s isStory => ?_, fun replayed found => ?_⟩
    · obtain ⟨ends, known⟩ := settled s isStory
      refine ⟨ends, .inl (known.elim id fun there => ?_)⟩
      obtain ⟨job, found⟩ := ne_none_iff_exists'.mp there
      exact saved found
    · obtain ⟨job, was, mirrored⟩ := restored.mirror found
      obtain ⟨s, isStory, matches_⟩ := live job was
      have listId : replayed.listId = job.listId := mirrored.listId
      refine ⟨s, isStory, matches_.listId.trans listId.symm, ?_, ?_, ?_, ?_⟩
      · intro pending
        have on := listId.symm.trans pending
        exact (matches_.state on).trans (mirrored.pending on).1.symm
      · exact (congrArg Core.queue mirrored.core).trans matches_.queue
      · intro running
        have on := listId.symm.trans running
        exact (matches_.hosts on).trans (mirrored.hosts on).symm
      · exact matches_.numGpus.trans (congrArg Core.numGpus mirrored.core).symm

end LavaLite.Mbd
