import LavaLite.Mbd.History

/-
The manifest mirrors the table: every effect writes records that do to the history
of its job what the effect did to the job, and so does a compaction.
-/

namespace LavaLite.Mbd

open Base Batch Kernel List

section

/-! ### The run hosts of a start record -/

def withRunHosts (job : JobData) (hosts : List HostName) : JobData :=
  { job with
    runHosts := job.runHosts.take job.runNhosts ++
      (hosts ++ job.runHosts.drop (job.runNhosts + hosts.length))
    runNhosts := job.runNhosts + hosts.length }

variable {job : JobData} {conf : Conf} {queue : QueueName} {nhosts : Int} {hosts : List HostName}

theorem withRunHosts_cons {h : HostName} {rest : List HostName}
    (filled : job.runNhosts ≤ job.runHosts.length) :
    withRunHosts
      { job with
        runHosts := job.runHosts.take job.runNhosts ++ h :: job.runHosts.drop (job.runNhosts + 1)
        runNhosts := job.runNhosts + 1 } rest = withRunHosts job (h :: rest) := by
  have front : (job.runHosts.take job.runNhosts).length = job.runNhosts := by
    rw [length_take]
    omega
  have written : (job.runHosts.take job.runNhosts ++
      h :: job.runHosts.drop (job.runNhosts + 1)).take (job.runNhosts + 1) =
        job.runHosts.take job.runNhosts ++ [h] := by
    rw [take_append, front, take_of_length_le (by omega)]
    simp
  have behind : (job.runHosts.take job.runNhosts ++
      h :: job.runHosts.drop (job.runNhosts + 1)).drop (job.runNhosts + 1 + rest.length) =
        job.runHosts.drop (job.runNhosts + (h :: rest).length) := by
    have past : job.runNhosts + 1 + rest.length - job.runNhosts = rest.length + 1 := by omega
    have nothing : (job.runHosts.take job.runNhosts).drop (job.runNhosts + 1 + rest.length) = [] :=
      drop_eq_nil_of_le (by omega)
    rw [drop_append, front, nothing, past, nil_append, drop_succ_cons, drop_drop, length_cons]
    congr 1
    omega
  simp only [withRunHosts, written, behind, length_cons, JobData.mk.injEq, true_and, and_true]
  refine ⟨by omega, ?_⟩
  simp

theorem replaySetRunHosts_all (ofQueue : job.queue = some queue)
    (members : ∀ h ∈ hosts, conf.queueHasHost queue h = true)
    (count : (job.runNhosts : Int) + hosts.length = nhosts)
    (filled : job.runNhosts ≤ job.runHosts.length) (room : hosts ≠ [] → nhosts ≤ job.res.numHosts) :
    replaySetRunHosts conf nhosts hosts job = some (.set (withRunHosts job hosts)) := by
  induction hosts generalizing job with
  | nil =>
    simp only [length_nil, Int.natCast_zero, Int.add_zero] at count
    simp [replaySetRunHosts, count, withRunHosts]
  | cons h rest ih =>
    have there := members h mem_cons_self
    have enough := room (cons_ne_nil h rest)
    simp only [length_cons] at count
    have more : ¬ nhosts ≤ (job.runNhosts : Int) := by omega
    have fits : (job.runNhosts : Int) < job.res.numHosts := by omega
    rw [replaySetRunHosts]
    simp only [ofQueue, there, if_true, if_neg more, if_pos fits]
    rw [ih rfl (fun h' member => members h' (mem_cons_of_mem h member))]
    · rw [← ofQueue, withRunHosts_cons filled]
    · simp only
      omega
    · simp only [length_append, length_take, length_cons]
      omega
    · exact fun _ => enough

theorem replaySetRunHosts_room {result : RunHostsResult} (ofQueue : job.queue = some queue)
    (members : ∀ h ∈ hosts, conf.queueHasHost queue h = true)
    (count : (job.runNhosts : Int) + hosts.length = nhosts)
    (done : replaySetRunHosts conf nhosts hosts job = some result) (nonempty : hosts ≠ []) :
    nhosts ≤ job.res.numHosts := by
  induction hosts generalizing job with
  | nil => exact absurd rfl nonempty
  | cons h rest ih =>
    have there := members h mem_cons_self
    simp only [length_cons] at count
    have more : ¬ nhosts ≤ (job.runNhosts : Int) := by omega
    rw [replaySetRunHosts] at done
    simp only [ofQueue, there, if_true, if_neg more] at done
    split at done
    next fits =>
      cases rest with
      | nil =>
        simp only [length_nil] at count
        omega
      | cons h' rest =>
        have later := fun count => ih rfl
          (fun x member => members x (mem_cons_of_mem h member)) count done
          (cons_ne_nil h' rest)
        refine later ?_
        simp only [length_cons] at count ⊢
        omega
    next => cases done

/-! ### A job and its history -/

/-- What a job and its history have in common at any time. -/
structure Core where
  jobId : JobId
  uid : Nat
  gid : Nat
  user : String
  flags : JobFlags
  deps : List JobDep
  dependCond : String
  numCpus : Int
  numGpus : Int
  memMb : Nat
  storageMb : Nat
  arrayId : JobId
  arrayIndex : Int
  arrayStart : Int
  arrayEnd : Int
  arrayStride : Int
  queue : Option QueueName
  priority : Int
  pid : Int
  forkTime : Time
  endTime : Time
  exitStatus : Int
  listId : ListId
  deriving DecidableEq, Repr

def JobData.core (job : JobData) : Core :=
  { jobId := job.jobId
    uid := job.uid
    gid := job.gid
    user := job.user
    flags := job.flags
    deps := job.deps
    dependCond := job.dependCond
    numCpus := job.res.numCpus
    numGpus := job.res.numGpus
    memMb := job.res.memMb
    storageMb := job.res.storageMb
    arrayId := job.arrayId
    arrayIndex := job.arrayIndex
    arrayStart := job.arrayStart
    arrayEnd := job.arrayEnd
    arrayStride := job.arrayStride
    queue := job.queue
    priority := job.priority
    pid := job.pid
    forkTime := job.forkTime
    endTime := job.endTime
    exitStatus := job.exitStatus
    listId := job.listId }

/--
`replayed` is what the manifest says of the live job `job`.  A running job is
always replayed as `RUNNING`: no record tells that it was stopped.
-/
structure MirrorJob (replayed job : JobData) : Prop where
  core : replayed.core = job.core
  pending : job.listId = .pend → replayed.state = job.state ∧
    replayed.dispatchTime = job.dispatchTime ∧ replayed.runNhosts = 0 ∧
    (replayed.runHosts.length : Int) ≤ job.res.numHosts
  running : job.listId = .run → replayed.state = .running ∧
    replayed.dispatchTime = job.dispatchTime ∧ replayed.runHosts = job.runHosts ∧
    replayed.runNhosts = job.runNhosts
  finished : job.listId = .finish →
    (replayed.state.isFinished = true ∨ replayed.state.isDispatched = true) ∧
    (job.state.isFinished = true → replayed.state = job.state) ∧
    replayed.dispatchTime = job.dispatchTime ∧
    (job.dispatchTime ≠ 0 → replayed.runHosts = job.runHosts ∧ replayed.runNhosts = job.runNhosts) ∧
    (job.dispatchTime = 0 → replayed.runNhosts = 0)
  fits : (replayed.runHosts.length : Int) ≤ replayed.res.numHosts
  machines : replayed.res.machines.Nodup
  machineCount : replayed.res.machines ≠ [] → replayed.res.numHosts = replayed.res.machines.length

/-- What the records of an effect do to the history of its job. -/
structure MirrorStep (conf : Conf) (records : List Event) (j : JobId) (job job' : JobData) : Prop
    where
  about : ∀ e ∈ records, recordJob e = j
  known : ∀ e ∈ records, ∀ new, e ≠ .jobNew new
  orderly : ∀ {replayed : JobData}, MirrorJob replayed job → Proper conf (some replayed) records
  mirrors : ∀ {replayed replayed' : JobData}, MirrorJob replayed job →
    replayJobs conf j records (some replayed) = some (some replayed') → MirrorJob replayed' job'
  /-- A history with the same room for hosts can take the records. -/
  succeeds : ∀ {replayed : JobData}, MirrorJob replayed job →
    replayed.res.numHosts = job.res.numHosts →
    ∃ replayed', replayJobs conf j records (some replayed) = some (some replayed') ∧
      replayed'.res = replayed.res

/-! ### The manifest and the table -/

structure Blank (m : MbdState) : Prop where
  jobs : m.jobs = fun _ => none
  lists : ∀ id, m.list id = []

theorem Blank.listed {m : MbdState} (blank : Blank m) : Listed m where
  distinct := fun id => by
    rw [blank.lists]
    exact nodup_nil
  listed := fun id j => by
    rw [blank.lists, blank.jobs]
    simp

/-- Whatever a replay of the manifest finds is in the table. -/
structure Recoverable (conf : Conf) (m : MbdState) : Prop where
  mirror : ∀ {j : JobId} {replayed : JobData}, history conf m.manifest j = some (some replayed) →
    ∃ job, m.jobs j = some job ∧ MirrorJob replayed job
  listed : ∀ {start result : MbdState}, Blank start →
    replayEvents conf m.manifest start = some result → Listed result

variable {m m' : MbdState} {j : JobId} {job' : JobData} {records : List Event}

theorem Blank.history_eq {start result : MbdState} (blank : Blank start)
    (done : replayEvents conf records start = some result) (j : JobId) :
    history conf records j = some (result.jobs j) := by
  have each := (replayEvents_spec done).1 j
  rw [blank.jobs] at each
  exact each

theorem replayJobs_none (known : ∀ e ∈ records, ∀ new, e ≠ .jobNew new) :
    replayJobs conf j records none = some none := by
  induction records with
  | nil => rfl
  | cons e rest ih =>
    have later := ih fun e' member => known e' (mem_cons_of_mem e member)
    have first : replayJob conf none e = some none :=
      replayJob_none (known e mem_cons_self)
    rw [replayJobs, first]
    simp [later]

theorem proper_none (known : ∀ e ∈ records, ∀ new, e ≠ .jobNew new) : Proper conf none records := by
  induction records with
  | nil => exact trivial
  | cons e rest ih =>
    have later := ih fun e' member => known e' (mem_cons_of_mem e member)
    refine ⟨fun _ isJob => (by cases isJob), fun next fine => ?_⟩
    have first : replayJob conf none e = some none :=
      replayJob_none (known e mem_cons_self)
    rw [first] at fine
    cases fine
    exact later

theorem Recoverable.append (sound : Recoverable conf m) (found : m.jobs j = some job)
    (found' : m'.jobs j = some job') (others : ∀ i, i ≠ j → m'.jobs i = m.jobs i)
    (manifest : m'.manifest = m.manifest ++ records) (step : MirrorStep conf records j job job') :
    Recoverable conf m' where
  mirror := by
    intro i replayed told
    rw [manifest, history_append] at told
    obtain ⟨before, was, told⟩ := Option.bind_eq_some_iff.mp told
    by_cases same : i = j
    · subst same
      cases before with
      | none =>
        rw [replayJobs_none step.known] at told
        cases told
      | some old =>
        obtain ⟨live, at', mirrored⟩ := sound.mirror was
        rw [found] at at'
        cases at'
        exact ⟨job', found', step.mirrors mirrored told⟩
    · rw [replayJobs_of_ne conf i records before fun e member about =>
        same (about.symm.trans (step.about e member))] at told
      cases told
      obtain ⟨live, at', mirrored⟩ := sound.mirror was
      exact ⟨live, (others i same).trans at', mirrored⟩
  listed := by
    intro start result blank done
    rw [manifest, replayEvents_append] at done
    obtain ⟨between, first, later⟩ := Option.bind_eq_some_iff.mp done
    refine replayEvents_listed_of_about step.about ?_ (sound.listed blank first) later
    cases at' : between.jobs j with
    | none => exact proper_none step.known
    | some old =>
      have was := blank.history_eq first j
      rw [at'] at was
      obtain ⟨live, found'', mirrored⟩ := sound.mirror was
      rw [found] at found''
      cases found''
      exact step.orderly mirrored

theorem Recoverable.congr (sound : Recoverable conf m) (jobs : m'.jobs = m.jobs)
    (manifest : m'.manifest = m.manifest) : Recoverable conf m' where
  mirror := by
    intro j replayed told
    rw [manifest] at told
    rw [jobs]
    exact sound.mirror told
  listed := by
    intro start result blank done
    rw [manifest] at done
    exact sound.listed blank done

end

/-! ### Records -/

/-! ### The records of each effect -/

variable {conf : Conf} {j : JobId} {job job' replayed : JobData} {e : LogJobStart} {sig : Int}
  {uid : Nat} {now : Time} {queue : QueueName}

/-- No record: the change must be invisible to the history. -/
theorem MirrorStep.silent
    (mirrors : ∀ {replayed : JobData}, MirrorJob replayed job → MirrorJob replayed job') :
    MirrorStep conf [] j job job' where
  about := fun _ member => by cases member
  known := fun _ member => by cases member
  orderly := fun _ => trivial
  mirrors := by
    intro replayed replayed' mirrored done
    cases done
    exact mirrors mirrored
  succeeds := fun {replayed} _ _ => ⟨replayed, rfl, rfl⟩

theorem MirrorStep.one {e : Event} (about : recordJob e = j) (known : ∀ new, e ≠ .jobNew new)
    (orderly : ∀ {replayed : JobData}, MirrorJob replayed job → Orderly replayed e)
    (mirrors : ∀ {replayed replayed' : JobData}, MirrorJob replayed job →
      replayRecord conf replayed e = some replayed' → MirrorJob replayed' job')
    (succeeds : ∀ {replayed : JobData}, MirrorJob replayed job →
      replayed.res.numHosts = job.res.numHosts →
      ∃ replayed', replayRecord conf replayed e = some replayed' ∧ replayed'.res = replayed.res) :
    MirrorStep conf [e] j job job' where
  about := fun e' member => by rw [mem_singleton.mp member, about]
  known := fun e' member => by
    rw [mem_singleton.mp member]
    exact known
  orderly := fun mirrored =>
    ⟨fun _ same => Option.some.inj same ▸ orderly mirrored, fun _ _ => trivial⟩
  mirrors := by
    intro replayed replayed' mirrored done
    rw [replayJobs, if_pos about] at done
    obtain ⟨next, first, done⟩ := Option.bind_eq_some_iff.mp done
    cases done
    rw [replayJob_some known] at first
    obtain ⟨_, result, same⟩ := Option.map_eq_some_iff.mp first
    cases same
    exact mirrors mirrored result
  succeeds := by
    intro replayed mirrored room
    obtain ⟨replayed', result, same⟩ := succeeds mirrored room
    refine ⟨replayed', ?_, same⟩
    rw [replayJobs, if_pos about, replayJob_some known, result]
    rfl

theorem MirrorStep.trans {job'' : JobData} {first rest : List Event}
    (one : MirrorStep conf first j job job'') (two : MirrorStep conf rest j job'' job')
    (hosts : job''.res.numHosts = job.res.numHosts) :
    MirrorStep conf (first ++ rest) j job job' where
  about := fun e member => (mem_append.mp member).elim (one.about e) (two.about e)
  known := fun e member => (mem_append.mp member).elim (one.known e) (two.known e)
  orderly := by
    intro replayed mirrored
    refine Proper.append one.about (one.orderly mirrored) fun next done => ?_
    cases next with
    | none => exact proper_none two.known
    | some middle => exact two.orderly (one.mirrors mirrored done)
  mirrors := by
    intro replayed replayed' mirrored done
    rw [replayJobs_append] at done
    obtain ⟨between, done₁, done₂⟩ := Option.bind_eq_some_iff.mp done
    cases between with
    | none =>
      rw [replayJobs_none two.known] at done₂
      cases done₂
    | some middle => exact two.mirrors (one.mirrors mirrored done₁) done₂
  succeeds := by
    intro replayed mirrored room
    obtain ⟨middle, done₁, same₁⟩ := one.succeeds mirrored room
    have stillRoom : middle.res.numHosts = job''.res.numHosts := by
      rw [same₁, room, hosts]
    obtain ⟨replayed', done₂, same₂⟩ := two.succeeds (one.mirrors mirrored done₁) stillRoom
    refine ⟨replayed', ?_, same₂.trans same₁⟩
    rw [replayJobs_append, done₁]
    exact done₂

theorem MirrorJob.listId (mirrored : MirrorJob replayed job) : replayed.listId = job.listId :=
  congrArg Core.listId mirrored.core

theorem MirrorStep.signal (of : JobData) (now : Time) (id : of.jobId = j) :
    MirrorStep conf [eventJobSignal of sig uid] j job { job with signalTime := now } := by
  refine .one id (fun _ => Event.noConfusion) (fun _ => trivial) ?_ fun _ _ => ⟨_, rfl, rfl⟩
  intro replayed replayed' mirrored done
  cases done
  exact ⟨mirrored.core, mirrored.pending, mirrored.running, mirrored.finished, mirrored.fits,
    mirrored.machines, mirrored.machineCount⟩

theorem MirrorJob.setWaiting (mirrored : MirrorJob replayed job) (pending : job.listId = .pend)
    (state : JobState) (now : Time) :
    MirrorJob { replayed with state := state } (signalledJob job state now) where
  core := mirrored.core
  pending := fun on => ⟨rfl, (mirrored.pending on).2⟩
  running := fun on => absurd (pending.symm.trans on) (by decide)
  finished := fun on => absurd (pending.symm.trans on) (by decide)
  fits := mirrored.fits
  machines := mirrored.machines
  machineCount := mirrored.machineCount

theorem MirrorStep.hold (id : job.jobId = j) (pending : job.listId = .pend)
    (ready : job.state = .pending) :
    MirrorStep conf [eventJobSignal (signalledJob job .held now) sig uid, .jobPendSusp j now] j job
      (signalledJob job .held now) := by
  have held : MirrorStep conf [.jobPendSusp j now] j { job with signalTime := now }
      (signalledJob job .held now) := by
    refine .one rfl (fun _ => Event.noConfusion) (fun _ => trivial) ?_ fun mirrored _ =>
      ⟨_, if_pos ((mirrored.pending pending).1.trans ready), rfl⟩
    intro replayed replayed' mirrored done
    simp only [replayRecord] at done
    split at done
    · cases done
      exact mirrored.setWaiting pending .held now
    · cases done
  exact (MirrorStep.signal (signalledJob job .held now) now id).trans held rfl

theorem MirrorStep.unhold (id : job.jobId = j) (pending : job.listId = .pend)
    (onHold : job.state = .held) :
    MirrorStep conf [eventJobSignal (signalledJob job .pending now) sig uid, .jobPendResume j now] j job
      (signalledJob job .pending now) := by
  have resumed : MirrorStep conf [.jobPendResume j now] j { job with signalTime := now }
      (signalledJob job .pending now) := by
    refine .one rfl (fun _ => Event.noConfusion) (fun _ => trivial) ?_ fun mirrored _ =>
      ⟨_, if_pos ((mirrored.pending pending).1.trans onHold), rfl⟩
    intro replayed replayed' mirrored done
    simp only [replayRecord] at done
    split at done
    · cases done
      exact mirrored.setWaiting pending .pending now
    · cases done
  exact (MirrorStep.signal (signalledJob job .pending now) now id).trans resumed rfl

theorem MirrorStep.finish {of : JobData} (id : of.jobId = j) (open_ : job.listId ≠ .finish)
    (unstarted : job.listId = .pend → job.dispatchTime = 0)
    (started : job.listId = .run → job.dispatchTime ≠ 0)
    (core : job'.core = { job.core with
      endTime := of.endTime
      exitStatus := of.exitStatus
      listId := .finish })
    (dispatchTime : job'.dispatchTime = job.dispatchTime)
    (hosts : job'.runHosts = job.runHosts ∧ job'.runNhosts = job.runNhosts)
    (uid : of.uid = job.uid) (state : job'.state = of.state)
    (final : of.state.isFinished = true ∨ of.state.isDispatched = true) :
    MirrorStep conf [eventJobFinish of] j job job' := by
  refine .one id (fun _ => Event.noConfusion) ?_ ?_ fun _ _ => ⟨_, rfl, rfl⟩
  · intro replayed mirrored
    unfold eventJobFinish Orderly
    rw [mirrored.listId]
    exact open_
  · intro replayed replayed' mirrored done
    cases done
    have onFinish : job'.listId = .finish := congrArg Core.listId core
    refine ⟨?_, fun on => ?_, fun on => ?_, fun _ => ⟨final, fun _ => state.symm, ?_⟩,
      mirrored.fits, mirrored.machines, mirrored.machineCount⟩
    · rw [core, ← mirrored.core]
      have owner : replayed.uid = job.uid := congrArg Core.uid mirrored.core
      simp only [JobData.core, uid, owner]
    · exact absurd (onFinish.symm.trans on) (by decide)
    · exact absurd (onFinish.symm.trans on) (by decide)
    · rw [dispatchTime, hosts.1, hosts.2]
      cases on : job.listId with
      | pend =>
        obtain ⟨_, time, none, _⟩ := mirrored.pending on
        exact ⟨time, fun dispatched => absurd (unstarted on) dispatched, fun _ => none⟩
      | run =>
        obtain ⟨_, time, placed⟩ := mirrored.running on
        exact ⟨time, fun _ => placed, fun unset => absurd unset (started on)⟩
      | finish => exact absurd on open_

theorem MirrorStep.kill (id : job.jobId = j) (pending : job.listId = .pend)
    (unstarted : job.dispatchTime = 0) :
    MirrorStep conf [eventJobSignal (killedJob job now) sig uid, eventJobFinish (killedJob job now)] j
      job { killedJob job now with listId := .finish } := by
  have ended : MirrorStep conf [eventJobFinish (killedJob job now)] j { job with signalTime := now }
      { killedJob job now with listId := .finish } :=
    .finish id (fun on => absurd (pending.symm.trans on) (by decide)) (fun _ => unstarted)
      (fun on => absurd (pending.symm.trans on) (by decide)) rfl rfl ⟨rfl, rfl⟩ rfl rfl (Or.inl rfl)
  exact (MirrorStep.signal (killedJob job now) now id).trans ended rfl

theorem MirrorStep.move {source : QueueName} {target : QueueConf} (id : job.jobId = j)
    (known : conf.findQueue target.name = some target) :
    MirrorStep conf [eventJobMove job now source target.name] j job
      { job with queue := some target.name } := by
  have fits : target.name.toList.length < 64 :=
    conf.queue_names_fit target (mem_of_find?_eq_some known)
  refine .one id (fun _ => Event.noConfusion) (fun _ => trivial) ?_ fun {replayed} _ _ =>
    ⟨{ replayed with queue := some target.name },
      by simp only [eventJobMove, replayRecord, strlcpy_of_fits fits, known], rfl⟩
  intro replayed replayed' mirrored done
  simp only [eventJobMove, replayRecord, strlcpy_of_fits fits, known] at done
  cases done
  refine ⟨?_, mirrored.pending, mirrored.running, mirrored.finished, mirrored.fits,
    mirrored.machines, mirrored.machineCount⟩
  exact congrArg (fun core => { core with queue := some target.name }) mirrored.core

theorem MirrorStep.priority {value old : Int} (id : job.jobId = j) :
    MirrorStep conf [eventJobPriority { job with priority := value } now old] j job
      { job with priority := value } := by
  refine .one id (fun _ => Event.noConfusion) (fun _ => trivial) ?_ fun _ _ => ⟨_, rfl, rfl⟩
  intro replayed replayed' mirrored done
  cases done
  refine ⟨?_, mirrored.pending, mirrored.running, mirrored.finished, mirrored.fits,
    mirrored.machines, mirrored.machineCount⟩
  exact congrArg (fun core => { core with priority := value }) mirrored.core

theorem MirrorStep.fork {i : JobId} {pid : Int} (id : i = j) (onRun : job.listId = .run)
    (core : job'.core = { job.core with pid := pid, forkTime := now })
    (dispatchTime : job'.dispatchTime = job.dispatchTime)
    (hosts : job'.runHosts = job.runHosts ∧ job'.runNhosts = job.runNhosts) :
    MirrorStep conf [.jobFork i pid now] j job job' := by
  have stays : job'.listId = .run := (congrArg Core.listId core).trans onRun
  refine .one id (fun _ => Event.noConfusion) (fun _ => trivial) ?_ fun _ _ => ⟨_, rfl, rfl⟩
  intro replayed replayed' mirrored done
  cases done
  refine ⟨?_, fun on => ?_, fun _ => ?_, fun on => ?_, mirrored.fits, mirrored.machines,
    mirrored.machineCount⟩
  · rw [core]
    exact congrArg (fun core => { core with pid := pid, forkTime := now }) mirrored.core
  · exact absurd (stays.symm.trans on) (by decide)
  · rw [dispatchTime, hosts.1, hosts.2]
    exact mirrored.running onRun
  · exact absurd (stays.symm.trans on) (by decide)

theorem MirrorStep.release (onRun : job.listId = .run) (running : RunningJob conf job)
    (core : job'.core = { job.core with pid := 0, forkTime := 0, listId := .pend })
    (state : job'.state = .pending) (dispatchTime : job'.dispatchTime = 0)
    (res : job'.res = job.res) : MirrorStep conf [.jobPend j now] j job job' := by
  refine .one rfl (fun _ => Event.noConfusion) (fun _ => trivial) ?_ fun mirrored _ =>
    ⟨_, if_pos (mirrored.listId.trans onRun), rfl⟩
  intro replayed replayed' mirrored done
  have onPend : job'.listId = .pend := congrArg Core.listId core
  obtain ⟨_, _, sameHosts, _⟩ := mirrored.running onRun
  have placed : replayed.listId = .run := mirrored.listId.trans onRun
  simp only [replayRecord, placed, if_true] at done
  cases done
  refine ⟨?_, fun _ => ⟨state.symm, dispatchTime.symm, rfl, ?_⟩, fun on => ?_, fun on => ?_,
    mirrored.fits, mirrored.machines, mirrored.machineCount⟩
  · rw [core, ← mirrored.core]
    rfl
  · rw [res, sameHosts, ← running.whole]
    exact running.count
  · exact absurd (onPend.symm.trans on) (by decide)
  · exact absurd (onPend.symm.trans on) (by decide)

theorem MirrorJob.started (mirrored : MirrorJob replayed job) (pending : job.listId = .pend)
    (known : job.state ≠ .orphan) (ofQueue : job.queue = some queue)
    (members : ∀ h ∈ e.hosts, conf.queueHasHost queue h = true)
    (count : (e.hosts.length : Int) = e.nhosts) (room : job.res.numHosts ≤ e.nhosts)
    (enough : e.nhosts ≤ replayed.res.numHosts) :
    startJob conf e replayed = some { replayed with
      runHosts := e.hosts
      runNhosts := e.hosts.length
      state := .running
      dispatchTime := e.dispatchTime
      gpuAssigned := strlcpy 64 e.gpuAssigned
      listId := .run } := by
  obtain ⟨sameState, _, none, fewer⟩ := mirrored.pending pending
  have sameQueue : replayed.queue = some queue :=
    (congrArg Core.queue mirrored.core).trans ofQueue
  have total : (replayed.runNhosts : Int) + e.hosts.length = e.nhosts := by
    rw [none, count]
    simp
  have past : replayed.runHosts.drop e.hosts.length = [] :=
    drop_eq_nil_of_le (by omega)
  have all := replaySetRunHosts_all sameQueue members total (by omega) fun _ => enough
  simp [startJob, sameState, known, all, withRunHosts, none, past]

theorem MirrorJob.start_room {started : JobData} (mirrored : MirrorJob replayed job)
    (pending : job.listId = .pend) (known : job.state ≠ .orphan) (ofQueue : job.queue = some queue)
    (members : ∀ h ∈ e.hosts, conf.queueHasHost queue h = true) (nonempty : e.hosts ≠ [])
    (count : (e.hosts.length : Int) = e.nhosts) (done : startJob conf e replayed = some started) :
    e.nhosts ≤ replayed.res.numHosts := by
  obtain ⟨sameState, _, none, _⟩ := mirrored.pending pending
  have sameQueue : replayed.queue = some queue :=
    (congrArg Core.queue mirrored.core).trans ofQueue
  have total : (replayed.runNhosts : Int) + e.hosts.length = e.nhosts := by
    rw [none, count]
    simp
  simp only [startJob, sameState, if_neg known] at done
  cases set : replaySetRunHosts conf e.nhosts e.hosts replayed with
  | none =>
    rw [set] at done
    cases done
  | some result => exact replaySetRunHosts_room sameQueue members total set nonempty

theorem MirrorStep.start (id : e.jobId = j) (pending : job.listId = .pend)
    (known : job.state ≠ .orphan) (ofQueue : job.queue = some queue)
    (members : ∀ h ∈ e.hosts, conf.queueHasHost queue h = true) (nonempty : e.hosts ≠ [])
    (count : (e.hosts.length : Int) = e.nhosts) (asked : e.nhosts = job.res.numHosts)
    (core : job'.core = { job.core with listId := .run })
    (dispatchTime : job'.dispatchTime = e.dispatchTime) (runHosts : job'.runHosts = e.hosts)
    (runNhosts : job'.runNhosts = e.hosts.length) : MirrorStep conf [.jobStart e] j job job' := by
  have onRun : job'.listId = .run := congrArg Core.listId core
  have room : job.res.numHosts ≤ e.nhosts := Int.le_of_eq asked.symm
  refine .one id (fun _ => Event.noConfusion) (fun mirrored => mirrored.listId.trans pending) ?_
    fun mirrored same => ⟨_, mirrored.started pending known ofQueue members count room
      (Int.le_of_eq (asked.trans same.symm)), rfl⟩
  intro replayed replayed' mirrored done
  simp only [replayRecord] at done
  have enough := mirrored.start_room pending known ofQueue members nonempty count done
  rw [mirrored.started pending known ofQueue members count room enough] at done
  cases done
  refine ⟨?_, fun on => ?_, fun _ => ⟨rfl, dispatchTime.symm, runHosts.symm, runNhosts.symm⟩,
    fun on => ?_, Int.le_trans (Int.le_of_eq count) enough, mirrored.machines,
    mirrored.machineCount⟩
  · rw [core]
    exact congrArg (fun core => { core with listId := .run }) mirrored.core
  · exact absurd (onRun.symm.trans on) (by decide)
  · exact absurd (onRun.symm.trans on) (by decide)

theorem MirrorStep.dispatch {m : MbdState} {plan : List HostName} {first : HostName} {text : String}
    (wf : JobWf conf j job) (pending : job.listId = .pend) (ofQueue : job.queue = some queue)
    (planned : PlanFor conf m job queue plan) (isFirst : plan.head? = some first) :
    MirrorStep conf [eventJobStart (dispatchedJob job plan text now)] j job
      (dispatchedJob job plan text now) := by
  have hosts : (dispatchedJob job plan text now).hosts = plan := by
    simp [JobData.hosts, dispatchedJob, plannedJob]
  have known : job.state ≠ .orphan := by
    intro orphan
    have waiting := (wf.waiting pending).state
    rw [orphan] at waiting
    cases waiting
  refine .start wf.id pending known ofQueue ?_ ?_ ?_ rfl rfl rfl hosts.symm ?_
  · rw [hosts]
    exact planned.member
  · rw [hosts]
    rintro rfl
    cases isFirst
  · rw [hosts]
    exact planned.count
  · rw [hosts]
    rfl

/-! ### Every effect on one job -/

theorem MirrorStep.unseen (core : job'.core = job.core) (res : job'.res = job.res)
    (dispatchTime : job'.dispatchTime = job.dispatchTime)
    (pending : job.listId = .pend → job'.state = job.state)
    (hosts : job.listId ≠ .pend → job'.runHosts = job.runHosts ∧ job'.runNhosts = job.runNhosts)
    (finished : job.listId = .finish → job'.state.isFinished = true → job'.state = job.state) :
    MirrorStep conf [] j job job' := by
  refine .silent fun {replayed} mirrored => ?_
  have sameList : job'.listId = job.listId := congrArg Core.listId core
  have left : ∀ {id : ListId}, id ≠ .pend → job'.listId = id → job.listId ≠ .pend :=
    fun away on waits => away (on.symm.trans (sameList.trans waits))
  refine ⟨mirrored.core.trans core.symm, fun on => ?_, fun on => ?_, fun on => ?_, mirrored.fits,
    mirrored.machines, mirrored.machineCount⟩
  · rw [pending (sameList.symm.trans on), dispatchTime, res]
    exact mirrored.pending (sameList.symm.trans on)
  · obtain ⟨sameHosts, sameCount⟩ := hosts (left (by decide) on)
    rw [dispatchTime, sameHosts, sameCount]
    exact mirrored.running (sameList.symm.trans on)
  · obtain ⟨sameHosts, sameCount⟩ := hosts (left (by decide) on)
    obtain ⟨final, same, placed⟩ := mirrored.finished (sameList.symm.trans on)
    refine ⟨final, fun ended => ?_, ?_⟩
    · have kept := finished (sameList.symm.trans on) ended
      rw [kept]
      exact same (kept ▸ ended)
    · rw [dispatchTime, sameHosts, sameCount]
      exact placed

end LavaLite.Mbd
