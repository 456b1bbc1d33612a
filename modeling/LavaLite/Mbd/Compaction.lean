import LavaLite.Mbd.Recovery

/-
`JOB_NEW` records, and the manifest a compaction writes: one block of records for
each job, from which a replay finds the job as it was.
-/

namespace LavaLite.Mbd

open Base Batch Kernel List Option

/-! ### New jobs -/

/-- A `JOB_NEW` record that tells of `job` what a replay needs. -/
structure NewRecord (conf : Conf) (e : LogJobNew) (job : JobData) : Prop where
  jobId : e.jobId = job.jobId
  uid : e.uid = job.uid
  gid : e.gid = job.gid
  user : strlcpy 64 e.username = job.user
  flags : e.flags = job.flags
  deps : jobDepsSet none e.dependCond = .ok (job.deps, job.dependCond)
  numCpus : e.numCpu = job.res.numCpus
  numGpus : e.numGpus = job.res.numGpus
  memMb : e.memMb = job.res.memMb
  storageMb : e.storageMb = job.res.storageMb
  arrayId : e.arrayId = job.arrayId
  arrayIndex : e.arrayIndex = job.arrayIndex
  arrayStart : e.arrayStart = job.arrayStart
  arrayEnd : e.arrayEnd = job.arrayEnd
  arrayStride : e.arrayStride = job.arrayStride
  queue : ∃ q, conf.findQueue e.queue = some q ∧ job.queue = some q.name
  priority : e.priority = job.priority
  state : e.state = job.state

def asNew (job : JobData) : JobData :=
  { job with
    pid := 0
    forkTime := 0
    dispatchTime := 0
    endTime := 0
    exitStatus := 0
    listId := .pend }

variable {conf : Conf} {e : LogJobNew} {job replayed : JobData} {ws : WireJobSubmit}

theorem NewRecord.mirrors (told : NewRecord conf e job) (hostCount : 0 ≤ job.res.numHosts)
    (alloc : replayAlloc conf e = some replayed) : MirrorJob replayed (asNew job) := by
  obtain ⟨q, known, ofQueue⟩ := told.queue
  have distinct := nodup_machinesHashPopulate conf e.machines
  unfold replayAlloc at alloc
  generalize machinesHashPopulate conf e.machines = machines at alloc distinct
  simp only [known, told.deps, map_some, isSome_some, if_true] at alloc
  split at alloc
  · cases alloc
  next settled =>
    cases alloc
    refine ⟨?_, fun _ => ⟨told.state, rfl, rfl, ?_⟩, fun on => (by cases on),
      fun on => (by cases on), ?_, ?_, ?_⟩
    · simp only [JobData.core, asNew, told.jobId, told.uid, told.gid, told.user, told.flags,
        told.numCpus, told.numGpus, told.memMb, told.storageMb, told.arrayId, told.arrayIndex,
        told.arrayStart, told.arrayEnd, told.arrayStride, told.priority, ofQueue]
    · exact hostCount
    · exact Int.not_lt.mp settled
    · exact distinct
    · intro asked
      simp only [settledHosts]
      rw [if_pos (length_pos_of_ne_nil asked)]

theorem queueText_fits {q : QueueConf} {name : QueueName} (known : conf.findQueue name = some q) :
    strlcpy 64 name = name := by
  have fits := conf.queue_names_fit q (mem_of_find?_eq_some known)
  rw [Conf.findQueue_name known] at fits
  exact strlcpy_of_fits fits

theorem Prepared.newRecord (prepared : Prepared conf ws job) :
    ∃ e, eventJobNew job ws = .jobNew e ∧ NewRecord conf e job := by
  obtain ⟨q, known, ofQueue⟩ := prepared.queue
  obtain ⟨resolve, set⟩ := prepared.deps
  refine ⟨_, rfl, rfl, rfl, rfl, ?_, prepared.flags.symm, ?_, prepared.numCpus.symm,
    prepared.numGpus.symm, prepared.memMb.symm, prepared.storageMb.symm, rfl, rfl, rfl, rfl, rfl,
    ⟨q, ?_, ofQueue⟩, rfl, rfl⟩
  · rw [prepared.user]
    exact strlcpy_of_fits (length_strlcpy_lt ws.username (by decide))
  · rw [strlcpy_of_fits ws.dependCond_fits]
    exact jobDepsSet_forget set
  · rw [queueText_fits known]
    exact known

theorem compactWriteJobNew_newRecord {j : JobId} {queue : QueueName} (wf : JobWf conf j job)
    (ofQueue : job.queue = some queue) :
    ∃ e, compactWriteJobNew job queue = .jobNew e ∧ NewRecord conf e job := by
  obtain ⟨name, named, isKnown⟩ := wf.queue
  rw [ofQueue] at named
  cases named
  obtain ⟨q, known⟩ := isSome_iff_exists.mp isKnown
  refine ⟨_, rfl, rfl, rfl, rfl, ?_, rfl, ?_, rfl, rfl, rfl, rfl, rfl, rfl, rfl, rfl, rfl,
    ⟨q, ?_, ?_⟩, rfl, rfl⟩
  · rw [strlcpy_of_fits wf.user, strlcpy_of_fits wf.user]
  · rw [strlcpy_of_fits (jobDepsSet_fits wf.deps)]
    exact wf.deps
  · rw [queueText_fits known]
    exact known
  · rw [ofQueue, Conf.findQueue_name known]

/-! ### Blocks of records -/

structure MirrorBlock (conf : Conf) (block : List Event) (j : JobId) (job : JobData) : Prop where
  about : ∀ e ∈ block, recordJob e = j
  proper : Proper conf none block
  mirrors : ∀ {replayed : JobData}, replayJobs conf j block none = some (some replayed) →
    MirrorJob replayed job
  /-- The replay gets through when the text of the machines does not change the host count. -/
  succeeds : (rewritten conf job.detail).res.numHosts = job.res.numHosts →
    ∃ replayed, replayJobs conf j block none = some (some replayed) ∧
      replayed.detail = rewritten conf job.detail

section Blocks

variable {j : JobId} {e : Event} {block : List Event}

theorem MirrorBlock.new {e : LogJobNew} {rest : List Event} (told : NewRecord conf e job)
    (detail : newDetail conf e = rewritten conf job.detail) (wf : JobWf conf j job)
    (steps : MirrorStep conf rest j (asNew job) job) :
    MirrorBlock conf (.jobNew e :: rest) j job where
  about := by
    intro e' member
    rcases mem_cons.mp member with rfl | later
    · exact told.jobId.trans wf.id
    · exact steps.about e' later
  proper := by
    refine ⟨fun _ absent => (by cases absent), fun next made => ?_⟩
    cases next with
    | none => exact proper_none steps.known
    | some replayed =>
      exact steps.orderly (told.mirrors wf.hostCount (Option.some.inj made))
  mirrors := by
    intro replayed done
    have isJob : recordJob (.jobNew e) = j := told.jobId.trans wf.id
    rw [replayJobs, if_pos isJob] at done
    cases made : replayAlloc conf e with
    | none =>
      simp only [replayJob, made] at done
      exact absurd ((replayJobs_none steps.known).symm.trans done) (by simp)
    | some first =>
      simp only [replayJob, made] at done
      exact steps.mirrors (told.mirrors wf.hostCount made) done
  succeeds := by
    intro room
    have isJob : recordJob (.jobNew e) = j := told.jobId.trans wf.id
    obtain ⟨first, made⟩ : ∃ first, replayAlloc conf e = some first := by
      apply replayAlloc_isSome
      rw [detail, room]
      exact wf.hostCount
    have tells : first.detail = rewritten conf job.detail :=
      (replayAlloc_detail made).trans detail
    have sameRoom : first.res.numHosts = (asNew job).res.numHosts :=
      (congrArg (fun d : Detail => d.res.numHosts) tells).trans room
    obtain ⟨replayed, done, _⟩ := steps.succeeds (told.mirrors wf.hostCount made) sameRoom
    refine ⟨replayed, ?_, (replayJobs_detail done).trans tells⟩
    rw [replayJobs, if_pos isJob, replayJob, made]
    exact done

theorem WaitingJob.asNew_eq (waiting : WaitingJob job) (pending : job.listId = .pend) :
    asNew job = job := by
  cases waiting
  cases job
  simp_all [asNew]

def asRunning (job : JobData) : JobData :=
  { job with
    endTime := 0
    exitStatus := 0
    listId := .run }

theorem asRunning_eq (endTime : job.endTime = 0) (exitStatus : job.exitStatus = 0)
    (onRun : job.listId = .run) : asRunning job = job := by
  cases job
  simp_all [asRunning]

theorem compactWriteJobStart_spec (placed : Placed conf job)
    (written : compactWriteJobStart job = some e) :
    ∃ start : LogJobStart, e = .jobStart start ∧ start.jobId = job.jobId ∧
      start.dispatchTime = job.dispatchTime ∧ start.nhosts = job.res.numHosts ∧
      start.hosts = job.runHosts ∧ (job.runHosts.length : Int) = job.res.numHosts := by
  have whole := placed.whole
  have count := placed.count
  unfold compactWriteJobStart at written
  split at written
  next filled =>
    cases written
    exact ⟨_, rfl, rfl, rfl, rfl, take_of_length_le (by omega), by omega⟩
  next => cases written

theorem MirrorStep.started (wf : JobWf conf j job) (placed : Placed conf job)
    (known : job.state ≠ .orphan) (unforked : job.forkTime = 0 → job.pid = 0)
    (written : compactWriteJobStart job = some e) :
    MirrorStep conf (e :: if job.forkTime ≠ 0 then [eventJobFork job] else []) j (asNew job)
      (asRunning job) := by
  obtain ⟨queue, ofQueue, _⟩ := wf.queue
  obtain ⟨record, rfl, id, time, nhosts, hosts, count⟩ := compactWriteJobStart_spec placed written
  have start : MirrorStep conf [.jobStart record] j (asNew job)
      { asRunning job with pid := 0, forkTime := 0 } := by
    refine .start (id.trans wf.id) rfl known ofQueue ?_ ?_ ?_ nhosts rfl time.symm
      hosts.symm ?_
    · rw [hosts]
      exact placed.member queue ofQueue
    · rw [hosts]
      exact placed.nonempty
    · rw [hosts, nhosts]
      exact count
    · rw [hosts]
      exact placed.whole
  split
  next forked =>
    exact start.trans (.fork wf.id rfl rfl rfl ⟨rfl, rfl⟩) rfl
  next notForked =>
    have unset : job.forkTime = 0 := not_not.mp notForked
    have same : { asRunning job with pid := 0, forkTime := 0 } = asRunning job := by
      simp only [asRunning, unforked unset, unset]
    rw [same] at start
    exact start

theorem JobWf.state_ne {state : JobState} (wf : JobWf conf j job)
    (unlisted : state.isWaiting = false ∧ state.isDispatched = false ∧ state.isFinished = false) :
    job.state ≠ state := by
  rintro rfl
  obtain ⟨idle, undispatched, unfinished⟩ := unlisted
  cases on : job.listId with
  | pend => exact absurd ((wf.waiting on).state.symm.trans idle) Bool.noConfusion
  | run => exact absurd ((wf.running on).state.symm.trans undispatched) Bool.noConfusion
  | finish =>
    rcases (wf.finished on).state with isOver | dispatched
    · exact absurd (isOver.symm.trans unfinished) Bool.noConfusion
    · exact absurd (dispatched.symm.trans undispatched) Bool.noConfusion

theorem JobWf.ne_orphan (wf : JobWf conf j job) : job.state ≠ .orphan :=
  wf.state_ne ⟨rfl, rfl, rfl⟩

theorem JobWf.ne_broken (wf : JobWf conf j job) : job.state ≠ .broken :=
  wf.state_ne ⟨rfl, rfl, rfl⟩

/-- What a compaction writes of a job behind its `JOB_NEW` record. -/
inductive CompactRest (conf : Conf) (job : JobData) : List Event → Prop where
  | waiting (fresh : asNew job = job) : CompactRest conf job []
  | running {start : Event} (placed : Placed conf job) (same : asRunning job = job)
      (unforked : job.forkTime = 0 → job.pid = 0) (written : compactWriteJobStart job = some start) :
      CompactRest conf job (start :: if job.forkTime ≠ 0 then [eventJobFork job] else [])
  | finished {start : Event} (finished : FinishedJob conf job) (isOver : job.listId = .finish)
      (dispatched : job.dispatchTime ≠ 0) (written : compactWriteJobStart job = some start) :
      CompactRest conf job
        ((start :: if job.forkTime ≠ 0 then [eventJobFork job] else []) ++ [eventJobFinish job])
  | killed (finished : FinishedJob conf job) (isOver : job.listId = .finish)
      (unstarted : job.dispatchTime = 0) : CompactRest conf job [eventJobFinish job]

theorem compactOn_cases (wf : JobWf conf j job) (written : compactOn job.listId job = some block) :
    ∃ e rest, block = .jobNew e :: rest ∧ NewRecord conf e job ∧
      newDetail conf e = rewritten conf job.detail ∧ CompactRest conf job rest := by
  obtain ⟨queue, ofQueue, _⟩ := wf.queue
  obtain ⟨e, isNew, told⟩ := compactWriteJobNew_newRecord wf ofQueue
  suffices ∃ rest, block = compactWriteJobNew job queue :: rest ∧ CompactRest conf job rest by
    obtain ⟨rest, rfl, follows⟩ := this
    exact ⟨e, rest, by rw [isNew], told, newDetail_compact isNew, follows⟩
  cases on : job.listId with
  | pend =>
    rw [on] at written
    simp only [compactOn, compactPending, ofQueue, bind_eq_bind, bind_some] at written
    cases written
    exact ⟨_, rfl, .waiting ((wf.waiting on).asNew_eq on)⟩
  | run =>
    have running := wf.running on
    rw [on] at written
    simp only [compactOn, compactRunning, ofQueue, bind_eq_bind, bind_some] at written
    obtain ⟨start, started, written⟩ := bind_eq_some_iff.mp written
    cases written
    exact ⟨_, rfl, .running running.toPlaced (asRunning_eq running.endTime running.exitStatus on)
      running.unforked started⟩
  | finish =>
    have finished := wf.finished on
    rw [on] at written
    simp only [compactOn, compactWriteJobFinished, ofQueue, bind_eq_bind, bind_some] at written
    obtain ⟨started, begun, written⟩ := bind_eq_some_iff.mp written
    cases written
    unfold compactStarted at begun
    split at begun
    next dispatched =>
      obtain ⟨start, startWritten, begun⟩ := bind_eq_some_iff.mp begun
      cases begun
      exact ⟨_, rfl, .finished finished on dispatched startWritten⟩
    next unset =>
      cases begun
      exact ⟨_, rfl, .killed finished on (not_not.mp unset)⟩

theorem compactOn_block (wf : JobWf conf j job) (written : compactOn job.listId job = some block) :
    MirrorBlock conf block j job := by
  obtain ⟨e, rest, rfl, told, detail, follows⟩ := compactOn_cases wf written
  have known := wf.ne_orphan
  refine .new told detail wf ?_
  cases follows with
  | waiting fresh =>
    rw [fresh]
    exact .silent fun mirrored => mirrored
  | running placed same unforked started =>
    have steps := MirrorStep.started wf placed known unforked started
    rwa [same] at steps
  | finished finished isOver dispatched started =>
    refine (MirrorStep.started wf (finished.placed dispatched) known finished.unforked
      started).trans ?_ rfl
    refine .finish wf.id (fun on => (by cases on)) (fun on => (by cases on))
      (fun _ => dispatched) ?_ rfl ⟨rfl, rfl⟩ rfl rfl finished.state
    simp only [JobData.core, asRunning, isOver]
  | killed finished isOver unstarted =>
    have forkTime := finished.unstarted unstarted
    refine .finish wf.id (fun on => (by cases on)) (fun _ => rfl) (fun on => (by cases on)) ?_
      unstarted ⟨rfl, rfl⟩ rfl rfl finished.state
    simp only [JobData.core, asNew, isOver, forkTime, finished.unforked forkTime]

end Blocks

/-! ### The compacted manifest -/

variable {m m' : MbdState} {write : JobData → Option (List Event)} {l : List JobId}
  {records : List Event}

theorem manifestRebuild_count (done : manifestRebuild m = some m') :
    m'.seqFile = m.seqFile ∧ m'.jobIdSeq = m.jobIdSeq := by
  obtain ⟨_, _, rfl⟩ := manifestRebuild_spec done
  exact ⟨rfl, rfl⟩

theorem compactList_own {j : JobId}
    (about : ∀ i ∈ l, ∀ job block, m.jobs i = some job → write job = some block →
      ∀ e ∈ block, recordJob e = i) (written : compactList m write l = some records) :
    (l.count j = 0 → records.filter (recordJob · = j) = []) ∧
      (l.count j = 1 → ∃ job block, m.jobs j = some job ∧ write job = some block ∧
        records.filter (recordJob · = j) = block) := by
  induction l generalizing records with
  | nil =>
    cases written
    exact ⟨fun _ => rfl, fun once => by cases once⟩
  | cons i rest ih =>
    obtain ⟨job, found, written⟩ := bind_eq_some_iff.mp written
    obtain ⟨block, blockWritten, written⟩ := bind_eq_some_iff.mp written
    obtain ⟨others, othersWritten, written⟩ := bind_eq_some_iff.mp written
    cases written
    have own := about i mem_cons_self job block found blockWritten
    obtain ⟨absent, once⟩ := ih (fun k member => about k (mem_cons_of_mem i member))
      othersWritten
    rw [filter_append]
    by_cases same : i = j
    · subst same
      have whole : block.filter (recordJob · = i) = block :=
        filter_eq_self.mpr fun e first => decide_eq_true (own e first)
      rw [count_cons_self, whole]
      refine ⟨fun none => by omega, fun one => ⟨job, block, found, blockWritten, ?_⟩⟩
      rw [absent (by omega), append_nil]
    · have nothing : block.filter (recordJob · = j) = [] :=
        filter_eq_nil_iff.mpr fun e first isJob =>
          same ((own e first).symm.trans (of_decide_eq_true isJob))
      rw [count_cons_of_ne same, nothing, nil_append]
      exact ⟨absent, once⟩

inductive Compacts (m m' : MbdState) (j : JobId) : Prop where
  | freed (gone : m'.jobs j = none) (silent : m'.manifest.filter (recordJob · = j) = [])
      (isOver : ∀ job, m.jobs j = some job → job.listId = .finish)
  | kept {job : JobData} {block : List Event} (found : m.jobs j = some job)
      (still : m'.jobs j = some job) (written : compactOn job.listId job = some block)
      (own : m'.manifest.filter (recordJob · = j) = block)

theorem compacts_keeping {kept : List JobId} {j : JobId} (parts : ListId → List Event)
    (keyed : ∀ {i job}, m.jobs i = some job → job.jobId = i) (listed : ListedAt j m)
    (kept_ : kept <+ m.finish) (whole : records = parts .pend ++ parts .run ++ parts .finish)
    (written : ∀ id, compactList m (compactOn id) ((keeping m kept records).list id) =
      some (parts id)) : Compacts m (keeping m kept records) j := by
  have after : ListedAt j (keeping m kept records) := listed.keeping kept_
  have own := fun id => compactList_own (j := j) (fun _ _ _ _ found written _ member =>
    (mem_compactOn written member).about.trans (keyed found)) (written id)
  have silent : ∀ id, presence ((keeping m kept records).jobs j) id = 0 →
      (parts id).filter (recordJob · = j) = [] := fun id absent =>
    (own id).1 ((after id).trans absent)
  have all : records.filter (recordJob · = j) = (parts .pend).filter (recordJob · = j) ++
      (parts .run).filter (recordJob · = j) ++ (parts .finish).filter (recordJob · = j) := by
    rw [whole, filter_append, filter_append]
  cases still : (keeping m kept records).jobs j with
  | none =>
    rw [still] at silent
    refine .freed still (all.trans ?_) fun job found => ?_
    · rw [silent .pend rfl, silent .run rfl, silent .finish rfl]
      rfl
    · have ended : j ∈ m.finish := by
        by_contra elsewhere
        cases (keeping_of_some found fun ended => absurd ended elsewhere).symm.trans still
      obtain ⟨_, found', on⟩ := presence_pos_iff.mp (listed .finish ▸ count_pos_iff.mpr ended)
      cases found.symm.trans found'
      exact on
  | some job =>
    have found := (keeping_jobs still).1
    have once := after job.listId
    rw [still, presence, if_pos rfl] at once
    obtain ⟨_, block, found', written, here⟩ := (own job.listId).2 once
    cases found.symm.trans found'
    refine .kept found still written (all.trans ?_)
    rw [still] at silent
    simp only [presence] at silent
    cases on : job.listId with
    | pend =>
      rw [on] at here silent
      rw [here, silent .run rfl, silent .finish rfl, append_nil, append_nil]
    | run =>
      rw [on] at here silent
      rw [silent .pend rfl, here, silent .finish rfl, append_nil, nil_append]
    | finish =>
      rw [on] at here silent
      rw [silent .pend rfl, silent .run rfl, here, nil_append, nil_append]

theorem manifestRebuild_compacts {j : JobId} (keyed : ∀ {i job}, m.jobs i = some job → job.jobId = i)
    (listed : ListedAt j m) (done : manifestRebuild m = some m') : Compacts m m' j := by
  obtain ⟨parts, written, rfl⟩ := manifestRebuild_spec done
  exact compacts_keeping parts keyed listed filter_sublist rfl written

theorem compact_compacts (compacted : manifestRebuild m = some m') (wf : Wf conf m) (j : JobId) :
    Compacts m m' j :=
  manifestRebuild_compacts (fun found => (wf.job found).id) (wf.toListed.listedAt j) compacted

theorem Compacts.history {j : JobId} (compacts : Compacts m m' j) (wf : Wf conf m) :
    (m'.jobs j = none ∧ history conf m'.manifest j = some none) ∨
    ∃ job block, m.jobs j = some job ∧ m'.jobs j = some job ∧ MirrorBlock conf block j job ∧
      history conf m'.manifest j = replayJobs conf j block none := by
  rw [Mbd.history, ← replayJobs_filter]
  cases compacts with
  | freed gone silent _ =>
    rw [silent]
    exact Or.inl ⟨gone, rfl⟩
  | kept found still written own =>
    rw [own]
    exact Or.inr ⟨_, _, found, still, compactOn_block (wf.job found) written, rfl⟩

theorem recoverable_of_compacts (wf : Wf conf m) (compacts : ∀ j, Compacts m m' j) :
    Recoverable conf m' where
  mirror := by
    intro j replayed told
    rcases (compacts j).history wf with ⟨_, nothing⟩ | ⟨job, block, _, found, mirror, same⟩
    · cases nothing.symm.trans told
    · exact ⟨job, found, mirror.mirrors (same.symm.trans told)⟩
  listed := by
    intro start final blank done
    refine replayEvents_listed (fun j => ?_) blank.listed done
    rw [congrFun blank.jobs j]
    cases compacts j with
    | freed _ silent _ =>
      rw [silent]
      trivial
    | kept found _ written own =>
      rw [own]
      exact (compactOn_block (wf.job found) written).proper

/-! ### Every effect and every commit -/

inductive Told (conf : Conf) (m m' : MbdState) : Prop where
  /-- Nothing to tell. -/
  | same (jobs : m'.jobs = m.jobs) (manifest : m'.manifest = m.manifest)
  /-- One job changed, and records tell of it. -/
  | recorded {j : JobId} {job job' : JobData} {records : List Event}
      (found : m.jobs j = some job) (jobs : m'.jobs = Function.update m.jobs j (some job'))
      (request : job'.request = job.request) (manifest : m'.manifest = m.manifest ++ records)
      (step : MirrorStep conf records j job job')
  /-- The manifest was rewritten. -/
  | compact (compacted : manifestRebuild m = some m')

variable {permits : Permit}

theorem Change.told {j : JobId} {job' : JobData} {onHost : HostChange} {onQueue : QueueChange}
    {pools : PoolName → Int} {sent : Outbox}
    (change : Change m m' j job job' onHost onQueue pools records sent)
    (step : MirrorStep conf records j job job') : Told conf m m' :=
  .recorded change.found change.jobs change.request change.manifest step

theorem Effect.told (wf : Wf conf m) (effect : Effect conf permits m m') : Told conf m m' := by
  cases effect with
  | frame framed => exact .same framed.jobs framed.manifest
  | ackReply _ _ sends | ackFinish _ _ sends =>
    subst sends
    exact .same rfl rfl
  | compact _ compacted => exact .compact compacted
  | note pending change =>
    exact change.told (.unseen rfl rfl rfl (fun _ => rfl) (fun _ => ⟨rfl, rfl⟩) fun _ _ => rfl)
  | stranded pending _ _ _ _ change =>
    exact change.told (.unseen rfl rfl rfl (fun _ => rfl) (fun left => absurd pending left)
      fun _ _ => rfl)
  | dispatch pending _ ofQueue _ planned isFirst _ _ change =>
    exact change.told (.dispatch (wf.job change.found) pending ofQueue planned isFirst)
  | signalSent _ _ change => exact change.told (.signal _ _ (wf.job change.found).id)
  | hold pending ready _ change =>
    exact change.told (.hold (wf.job change.found).id pending ready)
  | unhold pending onHold _ change =>
    exact change.told (.unhold (wf.job change.found).id pending onHold)
  | kill pending _ _ _ change =>
    have old := wf.job change.found
    exact change.told (.kill old.id pending (old.waiting pending).dispatchTime)
  | move _ _ _ known _ change => exact change.told (.move (wf.job change.found).id known)
  | priority _ _ change => exact change.told (.priority (wf.job change.found).id)
  | fork running _ _ _ _ change =>
    exact change.told (.fork (wf.job change.found).id running rfl rfl ⟨rfl, rfl⟩)
  | release running _ _ _ result _ _ change =>
    have was := (wf.job change.found).running running
    rcases result with rfl | rfl <;> exact change.told (.release running was rfl rfl rfl rfl)
  | @finish j job queue n success exitStatus now running _ _ _ _ _ _ change =>
    have old := wf.job change.found
    refine change.told (.finish old.id ?_ ?_ ?_ rfl rfl ⟨rfl, rfl⟩ rfl rfl
      (Or.inl (finishedJob_isFinished job now success exitStatus)))
    · rw [running]
      decide
    · exact fun on => absurd (running.symm.trans on) (by decide)
    · exact fun on => Int.ne_of_gt (old.running on).dispatchTime
  | stopped left _ _ change | continued left _ _ change =>
    exact change.told (.unseen rfl rfl rfl (fun on => absurd on left) (fun _ => ⟨rfl, rfl⟩)
      fun _ ended => by cases ended)

theorem Effect.recoverable (sound : Recoverable conf m) (wf : Wf conf m)
    (effect : Effect conf permits m m') : Recoverable conf m' := by
  cases effect.told wf with
  | same jobs manifest => exact sound.congr jobs manifest
  | compact compacted => exact recoverable_of_compacts wf (compact_compacts compacted wf)
  | @recorded j job job' records found jobs _ manifest step =>
    refine sound.append found ?_ (fun i other => ?_) manifest step
    · rw [jobs, Function.update_self]
    · rw [jobs, Function.update_of_ne other]

theorem Commit.recoverable {q : QueueName} (commit : Commit conf ws m m' q job)
    (sound : Recoverable conf m) : Recoverable conf m' := by
  obtain ⟨e, isNew, told⟩ := commit.prepared.newRecord
  have manifest := commit.manifest
  rw [isNew] at manifest
  have wf := commit.prepared.jobWf
  have fresh : asNew job = job :=
    (wf.waiting commit.prepared.list).asNew_eq commit.prepared.list
  constructor
  · intro j replayed history'
    rw [manifest, history_append] at history'
    obtain ⟨before, was, history'⟩ := bind_eq_some_iff.mp history'
    by_cases same : recordJob (.jobNew e) = j
    · have isJob : j = job.jobId := same.symm.trans told.jobId
      subst isJob
      cases before with
      | some old =>
        obtain ⟨live, found, _⟩ := sound.mirror was
        rw [commit.fresh] at found
        cases found
      | none =>
        rw [replayJobs, if_pos same] at history'
        obtain ⟨next, made, history'⟩ := bind_eq_some_iff.mp history'
        cases history'
        have mirrored := told.mirrors wf.hostCount (Option.some.inj made)
        rw [fresh] at mirrored
        exact ⟨job, commit.jobs_self, mirrored⟩
    · rw [replayJobs, if_neg same] at history'
      cases history'
      obtain ⟨live, found, mirrored⟩ := sound.mirror was
      exact ⟨live, commit.jobs_of_some found, mirrored⟩
  · intro start result blank done
    rw [manifest, replayEvents_append] at done
    obtain ⟨between, first, later⟩ := bind_eq_some_iff.mp done
    refine replayEvents_listed_of_about (j := e.jobId) (fun e' member => ?_) ?_ (sound.listed blank first)
      later
    · rw [mem_singleton.mp member]
      rfl
    · exact ⟨fun _ _ => trivial, fun _ _ => trivial⟩

theorem Registers.recoverable (registers : Registers conf ws m m') (sound : Recoverable conf m) :
    Recoverable conf m' :=
  registers.keeps (Recoverable conf)
    (fun sound framed => sound.congr framed.jobs framed.manifest)
    (fun sound commit => commit.recoverable sound) (fun sound => sound.congr rfl rfl) sound

end LavaLite.Mbd
