import LavaLite.Mbd.Effect

/-
The shape of a sound state: each job of the table is on exactly the list it
names, and what can be said of a job follows from its list.
-/

namespace LavaLite.Mbd

open Base Batch Kernel List Option

structure WaitingJob (job : JobData) : Prop where
  state : job.state.isWaiting = true
  pid : job.pid = 0
  forkTime : job.forkTime = 0
  dispatchTime : job.dispatchTime = 0
  endTime : job.endTime = 0
  exitStatus : job.exitStatus = 0

/-- A job whose run hosts are set: distinct hosts of its queue, within its array. -/
structure Placed (conf : Conf) (job : JobData) : Prop where
  distinct : job.runHosts.Nodup
  whole : job.runNhosts = job.runHosts.length
  nonempty : job.runHosts ≠ []
  count : (job.runNhosts : Int) ≤ job.res.numHosts
  member : ∀ q, job.queue = some q → ∀ h ∈ job.runHosts, conf.queueHasHost q h = true

structure RunningJob (conf : Conf) (job : JobData) : Prop extends Placed conf job where
  state : job.state.isDispatched = true
  dispatchTime : 0 < job.dispatchTime
  forkTime : 0 ≤ job.forkTime
  unforked : job.forkTime = 0 → job.pid = 0
  endTime : job.endTime = 0
  exitStatus : job.exitStatus = 0

/--
A job of the finished list.  A late answer to a stop or a continue can leave it
in a state of a running job.
-/
structure FinishedJob (conf : Conf) (job : JobData) : Prop where
  endTime : 0 < job.endTime
  state : job.state.isFinished = true ∨ job.state.isDispatched = true
  placed : job.dispatchTime ≠ 0 → Placed conf job
  unstarted : job.dispatchTime = 0 → job.forkTime = 0
  unforked : job.forkTime = 0 → job.pid = 0

structure JobWf (conf : Conf) (j : JobId) (job : JobData) : Prop where
  id : job.jobId = j
  queue : ∃ q, job.queue = some q ∧ (conf.findQueue q).isSome = true
  user : job.user.toList.length < 64
  hostCount : 0 ≤ job.res.numHosts
  machines : job.res.machines.Nodup
  machineCount : job.res.machines ≠ [] → job.res.numHosts = job.res.machines.length
  deps : jobDepsSet none job.dependCond = .ok (job.deps, job.dependCond)
  waiting : job.listId = .pend → WaitingJob job
  running : job.listId = .run → RunningJob conf job
  finished : job.listId = .finish → FinishedJob conf job

/-- Each job of the table is on the list it names, once. -/
structure Listed (m : MbdState) : Prop where
  distinct : ∀ id, (m.list id).Nodup
  listed : ∀ id j, j ∈ m.list id ↔ ∃ job, m.jobs j = some job ∧ job.listId = id

structure Wf (conf : Conf) (m : MbdState) : Prop extends Listed m where
  job : ∀ {j job}, m.jobs j = some job → JobWf conf j job
  ids : ∀ {j job}, m.jobs j = some job → 0 < j ∧ j ≤ m.jobIdSeq
  saved : 0 ≤ m.seqFile ∧ m.seqFile ≤ m.jobIdSeq

namespace RunningJob

variable {conf : Conf} {job : JobData}

theorem hosts_nodup (running : RunningJob conf job) : job.hosts.Nodup := by
  rw [JobData.hosts, running.whole, take_length]
  exact running.distinct

end RunningJob

/-! ### Lists and jobs after a change -/

variable {m m' : MbdState} {j : JobId} {job' : JobData}

theorem Listed.mem_iff (wf : Listed m) (found : m.jobs j = some job) (id : ListId) :
    j ∈ m.list id ↔ job.listId = id := by
  rw [wf.listed]
  constructor
  · rintro ⟨other, at', on⟩
    rw [found] at at'
    rw [← on, ← Option.some.inj at']
  · exact fun on => ⟨job, found, on⟩

theorem Listed.congr (wf : Listed m) (jobs : m'.jobs = m.jobs)
    (lists : ∀ id, m'.list id = m.list id) : Listed m' where
  distinct := fun id => by
    rw [lists]
    exact wf.distinct id
  listed := fun id j => by
    rw [lists, jobs]
    exact wf.listed id j

theorem Listed.apart (listed : Listed m) {a b : ListId} (differ : a ≠ b)
    (onA : j ∈ m.list a) : j ∉ m.list b := by
  intro onB
  obtain ⟨job, found, isA⟩ := (listed.listed a j).mp onA
  exact differ (isA.symm.trans ((listed.mem_iff found b).mp onB))

theorem Listed.not_mem (wf : Listed m) (fresh : m.jobs j = none) (id : ListId) : j ∉ m.list id := by
  intro member
  obtain ⟨job, found, _⟩ := (wf.listed id j).mp member
  rw [fresh] at found
  cases found

def presence (entry : Option JobData) (id : ListId) : Nat :=
  match entry with
  | some job => if job.listId = id then 1 else 0
  | none => 0

/-- The job is on the list it names, once, and on no other. -/
def ListedAt (j : JobId) (m : MbdState) : Prop :=
  ∀ id, (m.list id).count j = presence (m.jobs j) id

theorem presence_pos_iff {entry : Option JobData} {id : ListId} :
    0 < presence entry id ↔ ∃ job, entry = some job ∧ job.listId = id := by
  cases entry with
  | none => simp [presence]
  | some job =>
    simp only [presence, Option.some.injEq, exists_eq_left']
    split <;> simp [*]

theorem presence_le (entry : Option JobData) (id : ListId) : presence entry id ≤ 1 := by
  unfold presence
  split
  · split <;> omega
  · omega

theorem Listed.listedAt (listed : Listed m) (j : JobId) : ListedAt j m := by
  intro id
  cases found : m.jobs j with
  | none => exact count_eq_zero.mpr (listed.not_mem found id)
  | some job =>
    simp only [presence]
    split
    next on => exact count_eq_one_of_mem (listed.distinct id) ((listed.mem_iff found id).mpr on)
    next other =>
      exact count_eq_zero.mpr fun member => other ((listed.mem_iff found id).mp member)

theorem listed_of_listedAt (each : ∀ j, ListedAt j m) : Listed m where
  distinct := fun id => nodup_iff_count_le_one.mpr fun j => by
    rw [each j id]
    exact presence_le ..
  listed := fun id j => by
    rw [← count_pos_iff, each j id]
    exact presence_pos_iff

theorem ListedAt.movedList (listed : ListedAt j m) (found : m.jobs j = some job)
    (target id : ListId) :
    (movedList m j job.listId target id).count j = if target = id then 1 else 0 := by
  have here := listed id
  rw [found, presence] at here
  unfold Mbd.movedList
  split
  next stays => exact stays ▸ here
  next leaves =>
    simp only [MbdState.relist]
    by_cases onto : id = target
    · subst onto
      rw [if_neg leaves] at here
      rw [if_pos rfl, if_neg (Ne.symm leaves), if_pos rfl, count_append, here,
        count_singleton_self]
    · rw [if_neg onto, if_neg (Ne.symm onto)]
      by_cases source : id = job.listId
      · rw [if_pos source.symm] at here
        rw [if_pos source, count_erase_self, here]
      · rw [if_neg (Ne.symm source)] at here
        rw [if_neg source, here]

theorem ListedAt.added (listed : ListedAt j m) (fresh : m.jobs j = none) (id : ListId) :
    (if id = job.listId then m.list id ++ [j] else m.list id).count j = presence (some job) id := by
  have before := listed id
  rw [fresh, presence] at before
  rw [presence]
  split
  next here => rw [if_pos here.symm, count_append, before, count_singleton_self]
  next other => rw [if_neg (Ne.symm other), before]

theorem Listed.moved (wf : Listed m) (found : m.jobs j = some job)
    (jobs : m'.jobs = Function.update m.jobs j (some job'))
    (lists : ∀ id, m'.list id = movedList m j job.listId job'.listId id) : Listed m' := by
  refine listed_of_listedAt fun i id => ?_
  rw [lists, jobs]
  by_cases same : i = j
  · subst same
    rw [Function.update_self]
    exact (wf.listedAt i).movedList found job'.listId id
  · rw [Function.update_of_ne same, ← wf.listedAt i id, movedList]
    split
    · rfl
    · exact count_relist same

theorem Listed.added (wf : Listed m) (fresh : m.jobs j = none)
    (jobs : m'.jobs = Function.update m.jobs j (some job))
    (lists : ∀ id, m'.list id = if id = job.listId then m.list id ++ [j] else m.list id) :
    Listed m' := by
  refine listed_of_listedAt fun i id => ?_
  rw [lists, jobs]
  by_cases same : i = j
  · subst same
    rw [Function.update_self]
    exact (wf.listedAt i).added fresh id
  · rw [Function.update_of_ne same, ← wf.listedAt i id]
    split
    · exact count_concat_of_ne same
    · rfl

section Change

variable {onHost : HostChange} {onQueue : QueueChange} {pools : PoolName → Int}
  {records : List Event} {sent : Outbox}

variable (change : Change m m' j job job' onHost onQueue pools records sent)
include change

theorem Change.jobs_self : m'.jobs j = some job' := by
  rw [change.jobs, Function.update_self]

theorem Change.jobs_of_ne {i : JobId} (other : i ≠ j) : m'.jobs i = m.jobs i := by
  rw [change.jobs, Function.update_of_ne other]

theorem Change.jobs_cases {i : JobId} {found : JobData} (at' : m'.jobs i = some found) :
    (i = j ∧ found = job') ∨ (i ≠ j ∧ m.jobs i = some found) := by
  by_cases same : i = j
  · subst same
    rw [change.jobs_self] at at'
    exact Or.inl ⟨rfl, (Option.some.inj at').symm⟩
  · rw [change.jobs_of_ne same] at at'
    exact Or.inr ⟨same, at'⟩

theorem Change.wf (wf : Wf conf m) (sound : JobWf conf j job') : Wf conf m' where
  toListed := wf.toListed.moved change.found change.jobs change.lists
  job := by
    intro i found at'
    rcases change.jobs_cases at' with ⟨rfl, rfl⟩ | ⟨_, before⟩
    · exact sound
    · exact wf.job before
  ids := by
    intro i found at'
    rw [change.jobIdSeq]
    rcases change.jobs_cases at' with ⟨rfl, rfl⟩ | ⟨_, before⟩
    · exact wf.ids change.found
    · exact wf.ids before
  saved := by
    rw [change.seqFile, change.jobIdSeq]
    exact wf.saved

end Change

/-! ### Every effect keeps a sound state sound -/

variable {i : JobId} {permits : Permit}

theorem JobWf.of_request (wf : JobWf conf j job) (request : job'.request = job.request)
    (queue : ∃ q, job'.queue = some q ∧ (conf.findQueue q).isSome = true)
    (waiting : job'.listId = .pend → WaitingJob job')
    (running : job'.listId = .run → RunningJob conf job')
    (finished : job'.listId = .finish → FinishedJob conf job') : JobWf conf j job' := by
  have user : job'.user = job.user := congrArg Request.user request
  have res : job'.res = job.res := congrArg Request.res request
  have text : job'.dependCond = job.dependCond := congrArg Request.dependCond request
  have parsed : job'.deps = job.deps := congrArg Request.deps request
  refine ⟨(congrArg Request.jobId request).trans wf.id, queue, user ▸ wf.user, res ▸ wf.hostCount,
    res ▸ wf.machines, res ▸ wf.machineCount, ?_, waiting, running, finished⟩
  rw [text, parsed]
  exact wf.deps

def KnownOn (conf : Conf) (job : JobData) : ListId → Prop
  | .pend => WaitingJob job
  | .run => RunningJob conf job
  | .finish => FinishedJob conf job

theorem JobWf.of_list {id : ListId} (wf : JobWf conf j job) (request : job'.request = job.request)
    (queue : ∃ q, job'.queue = some q ∧ (conf.findQueue q).isSome = true) (list : job'.listId = id)
    (known : KnownOn conf job' id) : JobWf conf j job' := by
  subst list
  refine wf.of_request request queue ?_ ?_ ?_
  all_goals
    intro on
    rwa [on] at known

theorem Frame.wf (framed : Frame m m') (wf : Wf conf m) : Wf conf m' := by
  have pendMem : ∀ i, i ∈ m'.pend ↔ i ∈ m.pend := fun i => framed.pend.mem_iff
  refine ⟨⟨?_, ?_⟩, ?_, ?_, ?_⟩
  · intro id
    cases id with
    | pend => exact framed.pend.nodup_iff.mpr (wf.distinct .pend)
    | run =>
      change m'.run.Nodup
      rw [framed.run]
      exact wf.distinct .run
    | finish =>
      change m'.finish.Nodup
      rw [framed.finish]
      exact wf.distinct .finish
  · intro id i
    rw [framed.jobs, ← wf.listed id i]
    cases id with
    | pend => exact pendMem i
    | run => simp only [MbdState.list, framed.run]
    | finish => simp only [MbdState.list, framed.finish]
  · intro i job at'
    exact wf.job (framed.jobs ▸ at')
  · intro i job at'
    have old := wf.ids (framed.jobs ▸ at' : m.jobs i = some job)
    exact ⟨old.1, Int.le_trans old.2 framed.jobIdSeq⟩
  · rw [framed.seqFile]
    exact ⟨wf.saved.1, Int.le_trans wf.saved.2 framed.jobIdSeq⟩

@[simp] theorem MbdState.list_send (m : MbdState) (n : HostName) (msg : MbdMsg) (id : ListId) :
    (m.send n msg).list id = m.list id := by
  cases id <;> rfl

theorem wf_send {n : HostName} {msg : MbdMsg} (wf : Wf conf m) : Wf conf (m.send n msg) where
  toListed := wf.toListed.congr rfl (MbdState.list_send m n msg)
  job := wf.job
  ids := wf.ids
  saved := wf.saved

theorem mem_compactList {write : JobData → Option (List Event)} {l : List JobId}
    {records : List Event} (written : compactList m write l = some records) :
    ∀ e ∈ records, ∃ j job block, j ∈ l ∧ m.jobs j = some job ∧ write job = some block ∧
      e ∈ block := by
  induction l generalizing records with
  | nil =>
    intro e member
    cases written
    cases member
  | cons j l ih =>
    intro e member
    unfold compactList at written
    obtain ⟨job, found, written⟩ := bind_eq_some_iff.mp written
    obtain ⟨block, wrote, written⟩ := bind_eq_some_iff.mp written
    obtain ⟨others, rest, written⟩ := bind_eq_some_iff.mp written
    cases written
    rcases mem_append.mp member with here | later
    · exact ⟨j, job, block, mem_cons_self, found, wrote, here⟩
    · obtain ⟨i, other, block, listed, where_⟩ := ih rest e later
      exact ⟨i, other, block, mem_cons_of_mem _ listed, where_⟩

def compactOn : ListId → JobData → Option (List Event)
  | .pend => compactPending
  | .run => compactRunning
  | .finish => compactWriteJobFinished

theorem manifestRebuild_spec (compacted : manifestRebuild m = some m') :
    ∃ parts : ListId → List Event,
      (∀ id, compactList m (compactOn id) (m'.list id) = some (parts id)) ∧
      m' = { m with
        finish := m.finish.filter (keepFinished m)
        jobs := fun j =>
          if j ∈ m.finish ∧ j ∉ m.finish.filter (keepFinished m) then none else m.jobs j
        manifest := parts .pend ++ parts .run ++ parts .finish } := by
  obtain ⟨pending, writtenP, compacted⟩ := bind_eq_some_iff.mp compacted
  obtain ⟨running, writtenR, compacted⟩ := bind_eq_some_iff.mp compacted
  obtain ⟨finished, writtenF, compacted⟩ := bind_eq_some_iff.mp compacted
  cases compacted
  refine ⟨fun | .pend => pending | .run => running | .finish => finished, fun id => ?_, rfl⟩
  cases id with
  | pend => exact writtenP
  | run => exact writtenR
  | finish => exact writtenF

inductive CompactRecord (begun : Prop) (job : JobData) : Event → Prop where
  | new (queue : QueueName) : CompactRecord begun job (compactWriteJobNew job queue)
  | start {e : Event} (dispatched : begun) (written : compactWriteJobStart job = some e) :
      CompactRecord begun job e
  | fork : CompactRecord begun job (eventJobFork job)
  | finish : CompactRecord begun job (eventJobFinish job)

variable {begun : Prop} {block : List Event} {e : Event}

def begunOn : ListId → JobData → Prop
  | .pend, _ => False
  | .run, _ => True
  | .finish, job => job.dispatchTime ≠ 0

theorem mem_started {start : Event} (dispatched : begun)
    (written : compactWriteJobStart job = some start)
    (member : e ∈ start :: if job.forkTime ≠ 0 then [eventJobFork job] else []) :
    CompactRecord begun job e := by
  rcases mem_cons.mp member with rfl | forked
  · exact .start dispatched written
  · split at forked
    · cases mem_singleton.mp forked
      exact .fork
    · cases forked

theorem mem_compactStarted (written : compactStarted job = some block) (member : e ∈ block) :
    CompactRecord (job.dispatchTime ≠ 0) job e := by
  unfold compactStarted at written
  split at written
  next dispatched =>
    obtain ⟨start, started, written⟩ := bind_eq_some_iff.mp written
    cases written
    exact mem_started dispatched started member
  next =>
    cases written
    cases member

theorem mem_compactOn {id : ListId} (written : compactOn id job = some block)
    (member : e ∈ block) : CompactRecord (begunOn id job) job e := by
  cases id with
  | pend =>
    obtain ⟨queue, _, written⟩ := bind_eq_some_iff.mp written
    cases written
    cases mem_singleton.mp member
    exact .new queue
  | run =>
    obtain ⟨queue, _, written⟩ := bind_eq_some_iff.mp written
    obtain ⟨start, started, written⟩ := bind_eq_some_iff.mp written
    cases written
    rcases mem_cons.mp member with rfl | later
    · exact .new queue
    · exact mem_started trivial started later
  | finish =>
    obtain ⟨queue, _, written⟩ := bind_eq_some_iff.mp written
    obtain ⟨started, begun, written⟩ := bind_eq_some_iff.mp written
    cases written
    rcases mem_cons.mp member with rfl | later
    · exact .new queue
    · rcases mem_append.mp later with middle | last
      · exact mem_compactStarted begun middle
      · cases mem_singleton.mp last
        exact .finish

theorem mem_manifestRebuild (compacted : manifestRebuild m = some m') (member : e ∈ m'.manifest) :
    ∃ id j job, j ∈ m.list id ∧ m.jobs j = some job ∧ CompactRecord (begunOn id job) job e := by
  obtain ⟨parts, written, rfl⟩ := manifestRebuild_spec compacted
  obtain ⟨id, part⟩ : ∃ id, e ∈ parts id := by
    rcases mem_append.mp member with front | third
    · exact (mem_append.mp front).elim (fun first => ⟨_, first⟩) fun second => ⟨_, second⟩
    · exact ⟨_, third⟩
  obtain ⟨j, job, block, listed, found, wrote, here⟩ := mem_compactList (written id) e part
  refine ⟨id, j, job, ?_, found, mem_compactOn wrote here⟩
  cases id with
  | pend | run => exact listed
  | finish => exact mem_of_mem_filter listed

theorem CompactRecord.start_cases (written : compactWriteJobStart job = some e) :
    job.res.numHosts.toNat ≤ job.runHosts.length ∧ ∃ start, e = .jobStart start ∧
      start.jobId = job.jobId ∧ start.gpuAssigned = "" ∧
        start.hosts = job.runHosts.take job.res.numHosts.toNat := by
  obtain ⟨room, written⟩ := ite_none_right_eq_some.mp written
  cases written
  exact ⟨room, _, rfl, rfl, rfl, rfl⟩

theorem CompactRecord.about (record : CompactRecord begun job e) : recordJob e = job.jobId := by
  cases record with
  | start _ written =>
    obtain ⟨-, start, rfl, id, -⟩ := start_cases written
    exact id
  | _ => rfl

/-- The state when only some of the finished jobs are kept, and another manifest is written. -/
def keeping (m : MbdState) (kept : List JobId) (manifest : List Event) : MbdState :=
  { m with
    finish := kept
    jobs := fun j => if j ∈ m.finish ∧ j ∉ kept then none else m.jobs j
    manifest := manifest }

variable {kept : List JobId} {manifest : List Event}

theorem keeping_jobs (at' : (keeping m kept manifest).jobs i = some job) :
    m.jobs i = some job ∧ (i ∈ m.finish → i ∈ kept) := by
  by_cases freed : i ∈ m.finish ∧ i ∉ kept
  · simp only [keeping, if_pos freed] at at'
    cases at'
  · simp only [keeping, if_neg freed] at at'
    refine ⟨at', fun finished => ?_⟩
    by_contra absent
    exact freed ⟨finished, absent⟩

theorem keeping_of_some (found : m.jobs i = some job) (stays : i ∈ m.finish → i ∈ kept) :
    (keeping m kept manifest).jobs i = some job :=
  (if_neg fun freed => freed.2 (stays freed.1)).trans found

theorem ListedAt.keeping (listed : ListedAt i m) (kept_ : kept <+ m.finish) :
    ListedAt i (keeping m kept manifest) := by
  have most := kept_.count_le i
  have onFinish : m.finish.count i = presence (m.jobs i) .finish := listed .finish
  intro id
  by_cases freed : i ∈ m.finish ∧ i ∉ kept
  · obtain ⟨job, found, on⟩ := presence_pos_iff.mp (onFinish ▸ count_pos_iff.mpr freed.1)
    have before := listed id
    rw [found, presence, on] at before
    rw [show (Mbd.keeping m kept manifest).jobs i = none from if_pos freed]
    cases id with
    | pend | run => exact before
    | finish => exact count_eq_zero.mpr freed.2
  · rw [show (Mbd.keeping m kept manifest).jobs i = m.jobs i from if_neg freed, ← listed id]
    cases id with
    | pend | run => rfl
    | finish =>
      change kept.count i = m.finish.count i
      by_cases member : i ∈ kept
      · have once := count_pos_iff.mpr member
        have atMost := presence_le (m.jobs i) .finish
        omega
      · rw [count_eq_zero.mpr member, count_eq_zero.mpr fun ended => freed ⟨ended, member⟩]

theorem wf_keeping (wf : Wf conf m) (kept_ : kept <+ m.finish) :
    Wf conf (keeping m kept manifest) where
  toListed := listed_of_listedAt fun i => (wf.toListed.listedAt i).keeping kept_
  job := fun at' => wf.job (keeping_jobs at').1
  ids := fun at' => wf.ids (keeping_jobs at').1
  saved := wf.saved

theorem compact_jobs (compacted : manifestRebuild m = some m') (at' : m'.jobs i = some job) :
    m.jobs i = some job ∧ (i ∈ m.finish → i ∈ m'.finish) := by
  obtain ⟨_, _, result⟩ := manifestRebuild_spec compacted
  subst result
  exact keeping_jobs at'

theorem compact_open (compacted : manifestRebuild m = some m') (wf : Listed m)
    (found : m.jobs i = some job) (open_ : job.listId ≠ .finish) : m'.jobs i = some job := by
  obtain ⟨_, _, result⟩ := manifestRebuild_spec compacted
  subst result
  exact keeping_of_some found fun ended => absurd ((wf.mem_iff found .finish).mp ended) open_

theorem compact_wf (compacted : manifestRebuild m = some m') (wf : Wf conf m) : Wf conf m' := by
  obtain ⟨_, _, result⟩ := manifestRebuild_spec compacted
  rw [result]
  exact wf_keeping wf filter_sublist

theorem finishedJob_isFinished (job : JobData) (now : Time) (success : Bool) (exitStatus : Int) :
    (finishedJob job now success exitStatus).state.isFinished = true := by
  cases success <;> rfl

theorem Effect.wf (wf : Wf conf m) (effect : Effect conf permits m m') : Wf conf m' := by
  cases effect with
  | frame framed => exact framed.wf wf
  | ackReply _ _ sends | ackFinish _ _ sends => exact sends ▸ wf_send wf
  | compact _ compacted => exact compact_wf compacted wf
  | note pending change | stranded pending _ _ _ _ change =>
    have old := wf.job change.found
    refine change.wf wf (old.of_list change.request old.queue pending ?_)
    exact { old.waiting pending with }
  | dispatch pending ready ofQueue clock planned isFirst _ _ change =>
    have old := wf.job change.found
    have waiting := old.waiting pending
    refine change.wf wf (old.of_list change.request old.queue rfl ?_)
    refine ⟨⟨planned.distinct, rfl, ?_, Int.le_of_eq planned.count, ?_⟩, rfl, clock, ?_,
      fun _ => waiting.pid, waiting.endTime, waiting.exitStatus⟩
    · rintro empty
      change _ = [] at empty
      simp only [dispatchedJob, plannedJob] at empty
      rw [empty] at isFirst
      cases isFirst
    · intro q at' h member
      have sameQueue : some _ = some q := ofQueue.symm.trans at'
      exact Option.some.inj sameQueue ▸ planned.member h member
    · exact Int.le_of_eq waiting.forkTime.symm
  | signalSent left _ change | priority _ _ change =>
    have old := wf.job change.found
    refine change.wf wf (old.of_request change.request old.queue ?_ ?_
      fun on => { old.finished on with
        placed := fun started => { (old.finished on).placed started with } })
    · exact fun on => { old.waiting on with }
    · exact fun on => { old.running on with }
  | hold pending ready ofQueue change | unhold pending onHold ofQueue change =>
    have old := wf.job change.found
    refine change.wf wf (old.of_list change.request old.queue pending ?_)
    exact { old.waiting pending with state := rfl }
  | kill pending waiting ofQueue clock change =>
    have old := wf.job change.found
    have was := old.waiting pending
    refine change.wf wf (old.of_list change.request old.queue rfl ?_)
    exact ⟨clock, Or.inl rfl, fun started => absurd was.dispatchTime started,
      fun _ => was.forkTime, fun _ => was.pid⟩
  | move pending waiting ofQueue known _ change =>
    have old := wf.job change.found
    refine change.wf wf (old.of_list change.request ⟨_, rfl, by rw [known]; rfl⟩ pending ?_)
    exact { old.waiting pending with }
  | fork running _ _ clock _ change =>
    have old := wf.job change.found
    refine change.wf wf (old.of_list change.request old.queue running ?_)
    exact { old.running running with
      state := rfl
      forkTime := Int.le_of_lt clock
      unforked := fun unset => absurd unset (Int.ne_of_gt clock) }
  | release running _ dispatched ofQueue result _ _ change =>
    have old := wf.job change.found
    have was := old.running running
    rcases result with rfl | rfl
    all_goals
      refine change.wf wf (old.of_list change.request old.queue rfl ?_)
      exact ⟨rfl, rfl, rfl, rfl, was.endTime, was.exitStatus⟩
  | @finish _ job _ _ success exitStatus now running _ dispatched ofQueue forked clock _ change =>
    have old := wf.job change.found
    have was := old.running running
    refine change.wf wf (old.of_list change.request old.queue rfl ?_)
    exact ⟨clock, Or.inl (finishedJob_isFinished job now success exitStatus),
      fun _ => { was.toPlaced with }, fun unset => absurd unset (Int.ne_of_gt was.dispatchTime),
      was.unforked⟩
  | stopped left ofQueue _ change | continued left ofQueue _ change =>
    have old := wf.job change.found
    refine change.wf wf (old.of_request change.request old.queue ?_ ?_
      fun on => { old.finished on with
        state := Or.inr rfl
        placed := fun started => { (old.finished on).placed started with } })
    · exact fun on => absurd on left
    · exact fun on => { old.running on with state := rfl }

theorem Effects.keeps_of_wf (holds : MbdState → Prop)
    (kept : ∀ {m m' : MbdState}, Wf conf m → holds m → Effect conf permits m m' → holds m')
    (wf : Wf conf m) (start : holds m) (effects : Effects conf permits m m') : holds m' := by
  induction effects with
  | refl => exact start
  | tail earlier effect ih => exact kept (Effects.keeps (Wf conf) Effect.wf wf earlier) ih effect

end LavaLite.Mbd
