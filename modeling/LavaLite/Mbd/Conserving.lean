import LavaLite.Mbd.Placement

/-
What a scheduling cycle leaves undone.  In a cycle the hosts only fill up, the pools only
shrink and no dependency changes, so a job that could not be dispatched at its turn cannot be
dispatched at the end; and when no slot is left, no host takes a job.
-/

namespace LavaLite.Mbd

open Base Batch Kernel List Option

/-! ### A state later in the cycle -/

structure Fuller (a b : HostData) : Prop where
  status : b.status = a.status
  channel : b.sbdChan = a.sbdChan
  exclusive : b.exclusive = false → a.exclusive = false
  jobs : a.numJobs ≤ b.numJobs
  cpus : b.freeCpu ≤ a.freeCpu
  mem : b.freeMemMb ≤ a.freeMemMb
  storage : b.freeStorageMb ≤ a.freeStorageMb
  gpus : gpuIdsCountFree b.gpus ≤ gpuIdsCountFree a.gpus

def dependView (job : JobData) : JobId × JobId × Option JobState :=
  (job.jobId, job.arrayId, if job.state.isFinished then some job.state else none)

def Renoted (job job' : JobData) : Prop :=
  ∃ reason hosts number text, job' =
    { job with pendReason := reason, runHosts := hosts, runNhosts := number, gpuAssigned := text }

/-- The second state comes later in the cycle than the first. -/
structure Tighter (m m' : MbdState) : Prop where
  pending : ∀ {k job'}, m'.jobs k = some job' → job'.state = .pending →
    ∃ job, m.jobs k = some job ∧ Renoted job job'
  views : ∀ k, (m'.jobs k).map dependView = (m.jobs k).map dependView
  unfinished : ∀ k, k ∈ m'.pend ∨ k ∈ m'.run ↔ k ∈ m.pend ∨ k ∈ m.run
  finish : m'.finish = m.finish
  closed : ∀ q, (m'.queues q).closed = (m.queues q).closed
  pools : ∀ p, m'.pools p ≤ m.pools p
  hosts : ∀ h, Fuller (m.hosts h) (m'.hosts h)

variable {conf : Conf} {m m' : MbdState} {j : JobId} {job job' : JobData} {queue : QueueName}
  {now : Time} {a b : HostData}

theorem Fuller.refl (a : HostData) : Fuller a a :=
  ⟨rfl, rfl, id, Int.le_refl _, Int.le_refl _, Nat.le_refl _, Nat.le_refl _, Nat.le_refl _⟩

theorem Renoted.refl (job : JobData) : Renoted job job :=
  ⟨_, _, _, _, rfl⟩

theorem depJobCheck_unfinished (unfinished : job.state.isFinished = false) (type : DepType) :
    depJobCheck job type = false := by
  cases type with
  | done | exit =>
    refine decide_eq_false fun same => ?_
    rw [same] at unfinished
    cases unfinished
  | ended => exact unfinished
  | _ => rfl

theorem depJobCheck_congr (same : dependView job' = dependView job) (type : DepType) :
    depJobCheck job' type = depJobCheck job type := by
  have finished : (if job'.state.isFinished then some job'.state else none) =
      if job.state.isFinished then some job.state else none := congrArg (fun v => v.2.2) same
  cases after : job'.state.isFinished with
  | true =>
    cases before : job.state.isFinished with
    | true =>
      rw [after, before, if_pos rfl, if_pos rfl] at finished
      have state : job'.state = job.state := Option.some.inj finished
      unfold depJobCheck
      rw [state]
    | false =>
      rw [after, before] at finished
      cases finished
  | false =>
    cases before : job.state.isFinished with
    | true =>
      rw [after, before] at finished
      cases finished
    | false => rw [depJobCheck_unfinished after, depJobCheck_unfinished before]

theorem Tighter.entry (tighter : Tighter m m') (k : JobId) :
    (m.jobs k = none ∧ m'.jobs k = none) ∨ ∃ job job', m.jobs k = some job ∧
      m'.jobs k = some job' ∧ dependView job' = dependView job := by
  have view := tighter.views k
  cases before : m.jobs k with
  | none =>
    rw [before] at view
    exact .inl ⟨rfl, map_eq_none_iff.mp view⟩
  | some job =>
    rw [before] at view
    obtain ⟨job', after, same⟩ := map_eq_some_iff.mp view
    exact .inr ⟨job, job', rfl, after, same⟩

theorem arrayId_of_view (same : dependView job' = dependView job) :
    job'.jobId = job.jobId ∧ job'.arrayId = job.arrayId :=
  ⟨congrArg Prod.fst same, congrArg (fun v => v.2.1) same⟩

theorem Tighter.arrayHasMember (tighter : Tighter m m') (l : List JobId) (arrayId : JobId) :
    arrayHasMember m' l arrayId = arrayHasMember m l arrayId := by
  unfold Mbd.arrayHasMember
  congr 1
  funext k
  rcases tighter.entry k with ⟨before, after⟩ | ⟨job, job', before, after, same⟩
  · rw [before, after]
  · simp only [before, after, (arrayId_of_view same).2]

theorem Tighter.depArrayCheck (tighter : Tighter m m') (arrayId : JobId) (type : DepType) :
    depArrayCheck m' arrayId type = depArrayCheck m arrayId type := by
  have opened : (!Mbd.arrayHasMember m' m'.pend arrayId && !Mbd.arrayHasMember m' m'.run arrayId) =
      (!Mbd.arrayHasMember m m.pend arrayId && !Mbd.arrayHasMember m m.run arrayId) := by
    rw [tighter.arrayHasMember, tighter.arrayHasMember, ← Bool.not_or, ← Bool.not_or]
    unfold Mbd.arrayHasMember
    rw [← any_append, ← any_append, Bool.not_inj_iff, Bool.eq_iff_iff,
      List.any_eq_true, List.any_eq_true]
    simp only [mem_append, tighter.unfinished]
  unfold Mbd.depArrayCheck
  rw [opened, tighter.finish]
  congr 2
  funext k
  rcases tighter.entry k with ⟨before, after⟩ | ⟨job, job', before, after, same⟩
  · rw [before, after]
  · simp only [before, after, (arrayId_of_view same).2, depJobCheck_congr same]

theorem Tighter.depCallEval (tighter : Tighter m m') : depCallEval m' = depCallEval m := by
  funext type k
  unfold Mbd.depCallEval
  rcases tighter.entry k with ⟨before, after⟩ | ⟨job, job', before, after, same⟩
  · rw [before, after]
  · simp only [before, after, arrayId_of_view same, tighter.depArrayCheck, depJobCheck_congr same]

theorem Tighter.jobDepSatisfied (tighter : Tighter m m') (job : JobData) :
    jobDepSatisfied m' job = jobDepSatisfied m job := by
  unfold Mbd.jobDepSatisfied
  rw [tighter.depCallEval]

theorem Tighter.tokensAvailable (tighter : Tighter m m')
    (available : tokensAvailable conf m' job = true) : tokensAvailable conf m job = true := by
  unfold Mbd.tokensAvailable at available ⊢
  rw [List.all_eq_true] at available ⊢
  intro t member
  have enough := available t member
  split at enough
  next =>
    exact decide_eq_true (Int.le_trans (of_decide_eq_true enough) (tighter.pools t.name))
  next => cases enough

theorem Fuller.suits (fuller : Fuller a b) (suits : Suits job b) : Suits job a where
  shared := fuller.exclusive suits.shared
  alone := fun exclusive => Int.le_trans fuller.jobs (suits.alone exclusive)
  cpus := Int.le_trans suits.cpus fuller.cpus
  mem := Nat.le_trans suits.mem fuller.mem
  storage := Nat.le_trans suits.storage fuller.storage
  gpus := fun asked => Int.le_trans (suits.gpus asked) (Int.ofNat_le.mpr fuller.gpus)

theorem Tighter.accommodates {h : HostName} (tighter : Tighter m m')
    (fits : Accommodates conf m' job queue h) : Accommodates conf m job queue h := by
  have fuller := tighter.hosts h
  refine ⟨fuller.suits fits.toSuits, fits.member, fuller.channel ▸ fits.connected,
    fuller.status ▸ fits.isOk, Int.lt_of_lt_of_le fits.cpuLeft fuller.cpus, fun asked => ?_⟩
  obtain ⟨some, enough, model⟩ := fits.gpuModel asked
  exact ⟨Nat.lt_of_lt_of_le some fuller.gpus,
    Int.le_trans enough (Int.ofNat_le.mpr fuller.gpus), model⟩

/-! ### Jobs that could be dispatched -/

/-- The job is ready, its queue open, its tokens there, its dependency true, and hosts are free. -/
def Dispatchable (conf : Conf) (now : Time) (m : MbdState) (j : JobId) : Prop :=
  ∃ job queue hosts, m.jobs j = some job ∧ Runnable conf now m job queue ∧
    Fits conf m job queue hosts

variable {hosts : List HostName}

theorem Tighter.dispatchable (tighter : Tighter m m') (can : Dispatchable conf now m' j) :
    Dispatchable conf now m j := by
  obtain ⟨job', queue, hosts, found, runnable, fits⟩ := can
  obtain ⟨job, before, reason, on, number, text, rfl⟩ := tighter.pending found runnable.pending
  refine ⟨job, queue, hosts, before, ⟨runnable.ready, runnable.ofQueue, ?_, ?_, ?_⟩, ?_⟩
  · exact (tighter.closed queue).symm.trans runnable.opened
  · exact tighter.tokensAvailable runnable.tokens
  · exact (tighter.jobDepSatisfied job).symm.trans runnable.dependency
  · refine ⟨fits.number, fits.distinct, fun h member => ?_, fits.named⟩
    have now := tighter.accommodates (fits.suitable h member)
    exact ⟨⟨now.shared, now.alone, now.cpus, now.mem, now.storage, now.gpus⟩, now.member,
      now.connected, now.isOk, now.cpuLeft, now.gpuModel⟩

theorem Fits.enough (marked : Marked m) (fits : Fits conf m job queue hosts) :
    hostsNeeded job ≤ (eligibleHosts conf m job queue).length := by
  rw [← fits.number, Int.ofNat_le]
  apply (subperm_of_subset fits.distinct _).length_le
  intro h member
  have usable := (accommodates_iff marked).mpr (fits.suitable h member)
  refine mem_filter.mpr ⟨?_, usable⟩
  split
  next asked =>
    have named := fits.named (ne_nil_of_length_pos asked)
    exact (conf.hashOrder_perm _).mem_iff.mpr (named.mem_iff.mp member)
  next => exact mem_hostNames (fits.suitable h member).member

/-! ### One turn -/

/-- The requests of all the jobs that wait are of the given kind. -/
def PendingAsk (asks : JobResources → Prop) (m : MbdState) : Prop :=
  ∀ j job, m.jobs j = some job → job.state = .pending → asks job.res

structure NonNegative (res : JobResources) : Prop where
  cpus : 0 ≤ res.numCpus
  tokens : ∀ t ∈ res.tokens, 0 ≤ t.count

def AsksHost (res : JobResources) : Prop :=
  0 < settledHosts res.machines res.numHosts

variable {sendOk : JobId → Bool} {freeSlots : Int} {result : Turn} {c : HostData}

theorem Fuller.trans (first : Fuller a b) (second : Fuller b c) : Fuller a c where
  status := second.status.trans first.status
  channel := second.channel.trans first.channel
  exclusive := fun free => first.exclusive (second.exclusive free)
  jobs := Int.le_trans first.jobs second.jobs
  cpus := Int.le_trans second.cpus first.cpus
  mem := Nat.le_trans second.mem first.mem
  storage := Nat.le_trans second.storage first.storage
  gpus := Nat.le_trans second.gpus first.gpus

theorem assignGpus_count : ∀ (n : Nat) (gpus : List GpuId),
    gpuIdsCountFree (assignGpus n gpus).1 ≤ gpuIdsCountFree gpus := by
  intro n gpus
  induction gpus generalizing n with
  | nil => cases n <;> exact Nat.le_refl _
  | cons g rest ih =>
    cases n with
    | zero => exact Nat.le_refl _
    | succ n =>
      cases busy : g.inUse with
      | true =>
        have later := ih (n + 1)
        simp only [assignGpus, busy, if_true, gpuIdsCountFree, filter_cons,
          Bool.not_true, Bool.false_eq_true, if_false] at later ⊢
        exact later
      | false =>
        have later := ih n
        simp only [assignGpus, busy, gpuIdsCountFree, filter_cons, Bool.not_true,
          Bool.not_false, Bool.false_eq_true, if_false, if_true, length_cons] at later ⊢
        omega

theorem fuller_hostsAssigned {first : HostName} {gpus : List GpuId} {text : String}
    (devices : AssignedOn m job first gpus text) (h : HostName) :
    Fuller (m.hosts h) (hostsAssigned first gpus h (m.hosts h)) := by
  unfold hostsAssigned
  split
  next same =>
    subst same
    refine { Fuller.refl (m.hosts h) with gpus := ?_ }
    unfold AssignedOn at devices
    split at devices
    · unfold buildGpuAssignedStr at devices
      split at devices
      · cases devices
        exact assignGpus_count _ _
      · cases devices
    · exact Nat.le_of_eq (congrArg gpuIdsCountFree devices.1)
  next => exact Fuller.refl _

theorem subU64_le {x y : Nat} (enough : y ≤ x) : subU64 x y ≤ x := by
  unfold subU64 u64Modulus
  omega

theorem fuller_chargeHost (positive : 0 ≤ job.res.numCpus) (mem : job.res.memMb ≤ a.freeMemMb)
    (storage : job.res.storageMb ≤ a.freeStorageMb) : Fuller a (chargeHost job a) where
  status := rfl
  channel := rfl
  exclusive := by
    intro free
    change (if job.flags.exclusive then true else a.exclusive) = false at free
    split at free
    · cases free
    · exact free
  jobs := Int.le_add_of_nonneg_right (by decide)
  cpus := Int.sub_le_self _ positive
  mem := subU64_le mem
  storage := subU64_le storage
  gpus := Nat.le_refl _

theorem changeTokens_le {tokens : List JobToken} {pools : PoolName → Int}
    (positive : ∀ t ∈ tokens, 0 ≤ t.count) :
    ∀ p, changeTokens conf (-1) tokens pools p ≤ pools p := by
  induction tokens generalizing pools with
  | nil => exact fun p => Int.le_refl _
  | cons t rest ih =>
    intro p
    obtain ⟨here, later⟩ := forall_mem_cons.mp positive
    refine Int.le_trans (ih later p) ?_
    dsimp only
    cases conf.findPool t.name with
    | none => exact Int.le_refl _
    | some pool =>
      change Function.update pools t.name (pools t.name + -1 * t.count) p ≤ pools p
      rw [Function.update_apply]
      split
      next same =>
        rw [same]
        omega
      next => exact Int.le_refl _

theorem tighter_of_update (found : m.jobs j = some job)
    (jobs : m'.jobs = Function.update m.jobs j (some job'))
    (kept : job'.state = .pending → Renoted job job') (view : dependView job' = dependView job)
    (unfinished : ∀ k, k ∈ m'.pend ∨ k ∈ m'.run ↔ k ∈ m.pend ∨ k ∈ m.run)
    (finish : m'.finish = m.finish) (closed : ∀ q, (m'.queues q).closed = (m.queues q).closed)
    (pools : ∀ p, m'.pools p ≤ m.pools p) (hosts : ∀ h, Fuller (m.hosts h) (m'.hosts h)) :
    Tighter m m' where
  pending := by
    intro k other after waits
    rw [jobs, Function.update_apply] at after
    split at after
    next same =>
      cases after
      exact ⟨job, same ▸ found, kept waits⟩
    next => exact ⟨other, after, .refl other⟩
  views := by
    intro k
    rw [jobs, Function.update_apply]
    split
    next same =>
      rw [same, found]
      exact congrArg some view
    next => rfl
  unfinished := unfinished
  finish := finish
  closed := closed
  pools := pools
  hosts := hosts

theorem scheduleJob_tighter (once : NamesOnce m) (positive : PendingAsk NonNegative m)
    (waits : j ∈ m.pend ∨ j ∈ m.run)
    (done : scheduleJob conf now sendOk m j freeSlots = some result) : Tighter m result.state := by
  obtain ⟨job, found, ⟨reason, rfl, _⟩ | ⟨queue, plan, runnable, built, started⟩⟩ :=
    scheduleJob_cases done
  · exact tighter_of_update found rfl (fun _ => ⟨_, _, _, _, rfl⟩) rfl (fun _ => Iff.rfl) rfl
      (fun _ => rfl) (fun _ => Int.le_refl _) fun _ => .refl _
  · obtain ⟨distinct, usable⟩ := once.planned found built
    obtain ⟨first, gpus, text, isFirst, devices, ⟨_, sent⟩ | ⟨_, unsent⟩⟩ :=
      startPlanned_cases distinct started
    · obtain ⟨cpus, tokens⟩ := positive j job found runnable.pending
      refine tighter_of_update found sent.jobs (fun running => by cases running) ?_ ?_ sent.finish
        sent.closed ?_ ?_
      · simp only [dependView, dispatchedJob, plannedJob, runnable.pending]
        rfl
      · intro k
        rw [sent.pend, sent.run, mem_append, mem_singleton]
        by_cases same : k = j
        · subst same
          exact ⟨fun _ => waits, fun _ => .inr (.inr rfl)⟩
        · rw [mem_erase_of_ne same]
          exact or_congr Iff.rfl ⟨fun either => either.resolve_right same, .inl⟩
      · rw [sent.pools]
        exact changeTokens_le tokens
      · intro h
        rw [sent.hosts h]
        split
        next member =>
          have suits := suits_of_meets (Bool.and_eq_true_iff.mp (usable h member)).2
          have assigned := fuller_hostsAssigned devices h
          refine assigned.trans (fuller_chargeHost cpus ?_ ?_)
          · unfold hostsAssigned
            split <;> exact suits.mem
          · unfold hostsAssigned
            split <;> exact suits.storage
        next => exact .refl _
    · rw [unsent.others]
      exact tighter_of_update found unsent.jobs (fun _ => ⟨_, _, _, _, rfl⟩) rfl
        (fun _ => Iff.rfl) rfl (fun _ => rfl) (fun _ => Int.le_refl _) fun h =>
          unsent.hosts h ▸ fuller_hostsAssigned devices h

theorem Tighter.pendingAsk {asks : JobResources → Prop} (tighter : Tighter m m')
    (before : PendingAsk asks m) : PendingAsk asks m' := by
  intro k job' found waits
  obtain ⟨job, known, reason, on, number, text, rfl⟩ := tighter.pending found waits
  exact before k job known waits

/-- There are hosts for the job, but their names are too long for one text. -/
def Oversized (conf : Conf) (m : MbdState) (job : JobData) (queue : QueueName) : Prop :=
  hostsNeeded job ≤ (eligibleHosts conf m job queue).length ∧
    8192 ≤ hostsLen (chosenHosts conf m job queue)

theorem scheduleJob_settles (once : NamesOnce m) (marked : Marked m)
    (positive : PendingAsk NonNegative m) (waits : j ∈ m.pend ∨ j ∈ m.run)
    (sent : ∀ job queue plan, m.jobs j = some job → Runnable conf now m job queue →
      buildHostPlan conf m job queue = some plan → sendOk j = true)
    (short : ∀ job queue, m.jobs j = some job → Runnable conf now m job queue →
      ¬ Oversized conf m job queue)
    (done : scheduleJob conf now sendOk m j freeSlots = some result) :
    ¬ Dispatchable conf now result.state j := by
  intro can
  obtain ⟨job, found, ⟨reason, _, none⟩ | ⟨queue, plan, runnable, built, started⟩⟩ :=
    scheduleJob_cases done
  · obtain ⟨known, queue, hosts, before, runnable, fits⟩ :=
      (scheduleJob_tighter once positive waits done).dispatchable can
    cases Option.some.inj (found.symm.trans before)
    have enough := fits.enough marked
    have plan := none queue (chosenHosts conf m job queue) runnable
    rw [buildHostPlan_eq, if_neg (Int.not_lt.mpr enough)] at plan
    split at plan
    next long => exact short job queue found runnable ⟨enough, long⟩
    next => exact plan rfl
  · obtain ⟨distinct, _⟩ := once.planned found built
    obtain ⟨first, gpus, text, _, _, ⟨_, begun⟩ | ⟨lost, _⟩⟩ := startPlanned_cases distinct started
    · -- a running job is not ready
      obtain ⟨known, _, _, after, ready, _⟩ := can
      rw [begun.jobs, Function.update_self] at after
      cases after
      exact absurd ready.ready Bool.false_ne_true
    · rw [sent job queue plan found runnable built] at lost
      cases lost

/-! ### The free slots -/

def candidateCpus (conf : Conf) (m : MbdState) : Int :=
  tally (fun h => if (m.hosts h).candidate then (m.hosts h).freeCpu else 0) conf.hostNames

theorem markCandidates_slots (conf : Conf) (m : MbdState) :
    (markCandidates conf m).2 = candidateCpus conf (markCandidates conf m).1 :=
  tally_filter fun h => isCandidate (m.hosts h)

theorem chargeHost_slots (first h : HostName) (gpus : List GpuId)
    (enough : job.res.numCpus ≤ a.freeCpu) (candidate : a.candidate = true) :
    (if (chargeHost job (hostsAssigned first gpus h a)).candidate then
      (chargeHost job (hostsAssigned first gpus h a)).freeCpu else 0) =
      (if a.candidate then a.freeCpu else 0) - job.res.numCpus := by
  have kept : (hostsAssigned first gpus h a).freeCpu = a.freeCpu ∧
      (hostsAssigned first gpus h a).candidate = a.candidate := by
    unfold hostsAssigned
    split <;> exact ⟨rfl, rfl⟩
  unfold chargeHost
  simp only [kept, candidate, if_true]
  by_cases exhausted : a.freeCpu - job.res.numCpus ≤ 0
  · rw [if_pos exhausted, if_neg Bool.false_ne_true]
    omega
  · rw [if_neg exhausted, if_pos rfl]

/-- The slots a turn leaves are the free CPUs of the hosts that are still candidates. -/
theorem scheduleJob_slots (once : NamesOnce m) (slots : freeSlots = candidateCpus conf m)
    (done : scheduleJob conf now sendOk m j freeSlots = some result) :
    result.freeSlots = candidateCpus conf result.state := by
  obtain ⟨job, found, ⟨reason, rfl, _⟩ | ⟨queue, plan, _, built, started⟩⟩ := scheduleJob_cases done
  · exact slots
  · obtain ⟨distinct, usable⟩ := once.planned found built
    obtain ⟨first, gpus, text, _, _, ⟨_, sent⟩ | ⟨_, unsent⟩⟩ := startPlanned_cases distinct started
    · rw [sent.slots, slots]
      refine (tally_deduct conf.hosts_nodup distinct (fun h member => ?_) fun h _ => ?_).symm
      · exact mem_hostNames (Bool.and_eq_true_iff.mp (usable h member)).1
      · rw [sent.hosts h]
        split
        next member =>
          have suits := suits_of_meets (Bool.and_eq_true_iff.mp (usable h member)).2
          have candidate := candidate_of_usable (usable h member)
          exact chargeHost_slots first h gpus suits.cpus candidate
        next => rw [Int.sub_zero]
    · rw [unsent.slots, slots]
      refine (tally_congr fun h _ => ?_).symm
      rw [unsent.hosts h]
      unfold hostsAssigned
      split <;> rfl

theorem not_accommodates {h : HostName} (marked : Marked m) (none : candidateCpus conf m ≤ 0) :
    ¬ Accommodates conf m job queue h := by
  intro fits
  have candidate : (m.hosts h).candidate = true := by
    rw [marked h]
    exact isCandidate_iff.mpr ⟨fits.isOk, fits.connected, fits.cpuLeft⟩
  have some : ∀ i ∈ conf.hostNames,
      0 ≤ if (m.hosts i).candidate then (m.hosts i).freeCpu else 0 := by
    intro i _
    split
    next other =>
      rw [marked i] at other
      exact Int.le_of_lt (isCandidate_iff.mp other).2.2
    next => exact Int.le_refl 0
  have share := Int.le_trans (le_tally some (mem_hostNames fits.member)) none
  rw [candidate, if_pos rfl] at share
  exact Int.not_lt.mpr share fits.cpuLeft

theorem not_dispatchable (marked : Marked m) (hosted : PendingAsk AsksHost m)
    (none : candidateCpus conf m ≤ 0) (j : JobId) : ¬ Dispatchable conf now m j := by
  rintro ⟨job, queue, hosts, found, runnable, fits⟩
  have needs : 0 < hostsNeeded job := hosted j job found runnable.pending
  rw [← fits.number, Int.natCast_pos] at needs
  obtain ⟨h, member⟩ := exists_mem_of_length_pos needs
  exact not_accommodates marked none (fits.suitable h member)

/-! ### The whole cycle -/

/-- What holds of the state and the free slots during a cycle. -/
structure InCycle (conf : Conf) (order : List JobId) (s : MbdState × Int) : Prop where
  once : NamesOnce s.1
  marked : Marked s.1
  positive : PendingAsk NonNegative s.1
  waits : ∀ j ∈ order, j ∈ s.1.pend ∨ j ∈ s.1.run
  slots : s.2 = candidateCpus conf s.1

structure InHostedCycle (conf : Conf) (order : List JobId) (s : MbdState × Int) : Prop
    extends InCycle conf order s where
  hosted : PendingAsk AsksHost s.1

/-- In the cycle from `m` every plan is carried out, and none has a text that is too long. -/
structure NothingFails (conf : Conf) (m : MbdState) (now : Time) (sendOk : JobId → Bool) :
    Prop where
  sent : ∀ {j m₁ freeSlots job queue plan}, TurnComes conf m now sendOk j m₁ freeSlots →
    m₁.jobs j = some job → Runnable conf now m₁ job queue →
    buildHostPlan conf m₁ job queue = some plan → sendOk j = true
  short : ∀ {j m₁ freeSlots job queue}, TurnComes conf m now sendOk j m₁ freeSlots →
    m₁.jobs j = some job → Runnable conf now m₁ job queue → ¬ Oversized conf m₁ job queue

/-- `schedule` without the two tests of the free slots: the cycle takes every pending job. -/
def scheduleAll (conf : Conf) (m : MbdState) (now : Time) (sendOk : JobId → Bool) :
    Option MbdState :=
  if m.pend.isEmpty then some m
  else
    (walk (walkThrough (scheduleTurn conf now sendOk)) (cycleOrder conf m) (cycleStart conf m)).map
      Prod.fst

/-- The two states differ in the order of the pending list and in why jobs wait, if at all. -/
structure AlikeButReasons (m m' : MbdState) : Prop where
  pend : m'.pend.Perm m.pend
  jobs : ∀ k, (m'.jobs k).map (fun job => { job with pendReason := .none }) =
    (m.jobs k).map fun job => { job with pendReason := .none }
  others : m' = { m with pend := m'.pend, jobs := m'.jobs }

variable {m'' : MbdState} {order : List JobId} {s s' : MbdState × Int} {stop : Bool}

theorem cycleStart_tighter (conf : Conf) (m : MbdState) : Tighter m (cycleStart conf m).1 where
  pending := fun found _ => ⟨_, found, .refl _⟩
  views := fun _ => rfl
  unfinished := fun _ => or_congr_left (conf.qsort_perm _ _).mem_iff
  finish := rfl
  closed := fun _ => rfl
  pools := fun _ => Int.le_refl _
  hosts := fun h => { Fuller.refl (m.hosts h) with }

theorem inCycle_start (conf : Conf) (once : NamesOnce m) (positive : PendingAsk NonNegative m) :
    InCycle conf (cycleOrder conf m) (cycleStart conf m) where
  once := once.congr id rfl (Int.le_refl _)
  marked := markCandidates_marked conf m
  positive := positive
  waits := fun _ member => .inl member
  slots := markCandidates_slots conf m

theorem inHostedCycle_start (conf : Conf) (once : NamesOnce m)
    (positive : PendingAsk NonNegative m) (hosted : PendingAsk AsksHost m) :
    InHostedCycle conf (cycleOrder conf m) (cycleStart conf m) where
  toInCycle := inCycle_start conf once positive
  hosted := hosted

theorem InCycle.tighter (inCycle : InCycle conf order s) (member : j ∈ order)
    (turned : scheduleTurn conf now sendOk s j = some (s', stop)) : Tighter s.1 s'.1 :=
  scheduleJob_tighter inCycle.once inCycle.positive (inCycle.waits j member)
    (scheduleTurn_eq_some turned)

theorem InCycle.turn (inCycle : InCycle conf order s) (member : j ∈ order)
    (turned : scheduleTurn conf now sendOk s j = some (s', stop)) : InCycle conf order s' := by
  have done := scheduleTurn_eq_some turned
  have tighter := inCycle.tighter member turned
  exact
    { once := (scheduleJob_acts done).naming inCycle.once
      marked := scheduleJob_marked inCycle.once inCycle.marked done
      positive := tighter.pendingAsk inCycle.positive
      waits := fun k listed => (tighter.unfinished k).mpr (inCycle.waits k listed)
      slots := scheduleJob_slots inCycle.once inCycle.slots done }

theorem InHostedCycle.turn (inCycle : InHostedCycle conf order s) (member : j ∈ order)
    (turned : scheduleTurn conf now sendOk s j = some (s', stop)) : InHostedCycle conf order s' where
  toInCycle := inCycle.toInCycle.turn member turned
  hosted := (inCycle.tighter member turned).pendingAsk inCycle.hosted

theorem InCycle.stopped (inCycle : InCycle conf order s) (member : j ∈ order)
    (turned : scheduleTurn conf now sendOk s j = some (s', true)) : candidateCpus conf s'.1 ≤ 0 := by
  have done := scheduleTurn_eq_some turned
  rw [← (inCycle.turn member turned).slots]
  obtain ⟨job, found, ⟨reason, same, _⟩ | ⟨queue, plan, _, built, started⟩⟩ := scheduleJob_cases done
  · cases (congrArg Turn.stop same : true = false)
  · obtain ⟨distinct, _⟩ := inCycle.once.planned found built
    obtain ⟨first, gpus, text, _, _, ⟨_, sent⟩ | ⟨_, unsent⟩⟩ := startPlanned_cases distinct started
    · exact of_decide_eq_true sent.stop.symm
    · cases unsent.goesOn

theorem NothingFails.settles (fine : NothingFails conf m now sendOk) (scans : Scans conf m)
    (visits : Visits (scheduleTurn conf now sendOk) (cycleOrder conf m) (cycleStart conf m) j s)
    (inCycle : InCycle conf (cycleOrder conf m) s)
    (turned : scheduleTurn conf now sendOk s j = some (s', stop)) :
    ¬ Dispatchable conf now s'.1 j :=
  have comes : TurnComes conf m now sendOk j s.1 s.2 := ⟨scans, visits⟩
  scheduleJob_settles inCycle.once inCycle.marked inCycle.positive (inCycle.waits j visits.mem)
    (fun _ _ _ found runnable built => fine.sent comes found runnable built)
    (fun _ _ found runnable => fine.short comes found runnable) (scheduleTurn_eq_some turned)

theorem scheduleJob_pend (once : NamesOnce m)
    (done : scheduleJob conf now sendOk m j freeSlots = some result) : result.state.pend ⊆ m.pend := by
  obtain ⟨job, found, ⟨reason, rfl, _⟩ | ⟨queue, plan, _, built, started⟩⟩ := scheduleJob_cases done
  · exact List.Subset.refl _
  · obtain ⟨distinct, _⟩ := once.planned found built
    obtain ⟨first, gpus, text, _, _, ⟨_, sent⟩ | ⟨_, unsent⟩⟩ := startPlanned_cases distinct started
    · rw [sent.pend]
      exact erase_subset
    · rw [unsent.others]
      exact List.Subset.refl _

theorem schedule_conserves (once : NamesOnce m) (positive : PendingAsk NonNegative m)
    (hosted : PendingAsk AsksHost m) (fine : NothingFails conf m now sendOk)
    (done : schedule conf m now sendOk = some m') :
    ∀ j ∈ m'.pend, ¬ Dispatchable conf now m' j := by
  intro j member
  rcases schedule_cases done with ⟨empty, rfl⟩ | ⟨_, none, rfl⟩ | ⟨scans, freeSlots, walked⟩
  · rw [empty] at member
    cases member
  · refine not_dispatchable (markCandidates_marked conf m) hosted ?_ j
    rw [← markCandidates_slots, none]
  · have start := inHostedCycle_start conf once positive hosted
    have listed : j ∈ cycleOrder conf m := by
      have stays := walk_invariant
        (fun s => InCycle conf (cycleOrder conf m) s ∧ s.1.pend ⊆ cycleOrder conf m)
        (fun member turned both => ⟨both.1.turn member turned, List.Subset.trans
          (scheduleJob_pend both.1.once (scheduleTurn_eq_some turned)) both.2⟩)
        (fun _ => id) walked ⟨start.toInCycle, List.Subset.refl _⟩
      exact stays.2 member
    refine walk_settles (InHostedCycle conf (cycleOrder conf m))
      (fun j s => ¬ Dispatchable conf now s.1 j)
      (fun member turned inCycle => inCycle.turn member turned) ?_ ?_ (fun _ => id) start
      (fun visits inCycle turned => fine.settles scans visits inCycle.toInCycle turned) walked
      j listed
    · exact fun member turned inCycle settled can =>
        settled ((inCycle.tighter member turned).dispatchable can)
    · intro s i s' member turned inCycle
      have after := inCycle.turn member turned
      exact not_dispatchable after.marked after.hosted (inCycle.stopped member turned)

theorem AlikeButReasons.refl (m : MbdState) : AlikeButReasons m m :=
  ⟨List.Perm.refl _, fun _ => rfl, rfl⟩

theorem AlikeButReasons.trans (first : AlikeButReasons m m') (second : AlikeButReasons m' m'') :
    AlikeButReasons m m'' where
  pend := second.pend.trans first.pend
  jobs := fun k => (second.jobs k).trans (first.jobs k)
  others := second.others.trans
    (congrArg (fun m => { m with pend := m''.pend, jobs := m''.jobs }) first.others)

theorem notePending_alike {reason : PendReason} (found : m.jobs j = some job) :
    AlikeButReasons m (notePending m j job reason) where
  pend := List.Perm.refl _
  jobs := by
    intro k
    change (Function.update m.jobs j _ k).map _ = _
    rw [Function.update_apply]
    split
    next same =>
      rw [same, found]
      rfl
    next => rfl
  others := rfl

theorem InHostedCycle.noPlan (inCycle : InHostedCycle conf order s)
    (none : candidateCpus conf s.1 ≤ 0) (found : s.1.jobs j = some job)
    (waits : job.state = .pending) : buildHostPlan conf s.1 job queue = Option.none := by
  cases built : buildHostPlan conf s.1 job queue with
  | none => rfl
  | some plan =>
    have needs : 0 < hostsNeeded job := inCycle.hosted j job found waits
    have enough := Int.lt_of_lt_of_le needs (buildHostPlan_eq_some built).2
    obtain ⟨h, member⟩ := exists_mem_of_length_pos (Int.natCast_pos.mp enough)
    have usable := (eligibleHosts_usable conf s.1 queue (inCycle.once.machines found)).2 h member
    exact absurd ((accommodates_iff inCycle.marked).mp usable)
      (not_accommodates inCycle.marked none)

theorem InHostedCycle.rests (inCycle : InHostedCycle conf order s)
    (none : candidateCpus conf s.1 ≤ 0)
    (turned : scheduleTurn conf now sendOk s j = some (s', stop)) :
    candidateCpus conf s'.1 ≤ 0 ∧ AlikeButReasons s.1 s'.1 := by
  have done := scheduleTurn_eq_some turned
  obtain ⟨job, found, ⟨reason, same, _⟩ | ⟨queue, plan, runnable, built, _⟩⟩ :=
    scheduleJob_cases done
  · have state : s'.1 = notePending s.1 j job reason := congrArg Turn.state same
    rw [state]
    exact ⟨none, notePending_alike found⟩
  · rw [inCycle.noPlan none found runnable.pending] at built
    cases built

theorem schedule_alike (once : NamesOnce m) (positive : PendingAsk NonNegative m)
    (hosted : PendingAsk AsksHost m) (done : schedule conf m now sendOk = some m')
    (whole : scheduleAll conf m now sendOk = some m'') : AlikeButReasons m' m'' := by
  have start := inHostedCycle_start conf once positive hosted
  unfold scheduleAll at whole
  rcases schedule_cases done with ⟨empty, rfl⟩ | ⟨waiting, none, rfl⟩ | ⟨scans, freeSlots, walked⟩
  · rw [if_pos (List.isEmpty_iff.mpr empty)] at whole
    cases whole
    exact .refl _
  · rw [if_neg (fun empty => waiting (List.isEmpty_iff.mp empty))] at whole
    obtain ⟨t, walkedAll, rfl⟩ := map_eq_some_iff.mp whole
    have sorted : AlikeButReasons (markCandidates conf m).1 (cycleStart conf m).1 :=
      ⟨conf.qsort_perm _ _, fun _ => rfl, rfl⟩
    refine sorted.trans (walkThrough_rests (InHostedCycle conf (cycleOrder conf m))
      (fun s => candidateCpus conf s.1 ≤ 0) (fun s t => AlikeButReasons s.1 t.1)
      (fun member turned inCycle => inCycle.turn member turned)
      (fun _ turned inCycle none => inCycle.rests none turned) (fun s => .refl s.1)
      AlikeButReasons.trans (fun _ => id) start ?_ walkedAll)
    rw [← start.slots]
    exact Int.le_of_eq none
  · rw [if_neg (fun empty => scans.waiting (List.isEmpty_iff.mp empty))] at whole
    obtain ⟨t, walkedAll, rfl⟩ := map_eq_some_iff.mp whole
    exact walk_walkThrough (InHostedCycle conf (cycleOrder conf m))
      (fun s => candidateCpus conf s.1 ≤ 0) (fun s t => AlikeButReasons s.1 t.1)
      (fun member turned inCycle => inCycle.turn member turned)
      (fun member turned inCycle => inCycle.stopped member turned)
      (fun _ turned inCycle none => inCycle.rests none turned) (fun s => .refl s.1)
      AlikeButReasons.trans (fun _ => id) start walked walkedAll

theorem hostsLen_le {plan names : List HostName} (distinct : plan.Nodup) (within : plan ⊆ names) :
    hostsLen plan ≤ hostsLen names := by
  obtain ⟨part, same, kept⟩ := subperm_of_subset distinct within
  unfold hostsLen
  rw [← (same.map _).sum_eq]
  exact (kept.map _).sum_le_sum fun _ _ => Nat.zero_le _

theorem nothingFails_of_small (once : NamesOnce m) (small : hostsLen conf.hostNames < 8192)
    (sends : ∀ j, sendOk j = true) : NothingFails conf m now sendOk where
  sent := fun {j} _ _ _ _ _ _ _ _ _ => sends j
  short := by
    intro j m₁ freeSlots job queue comes found _ long
    obtain ⟨distinct, usable⟩ :=
      chosenHosts_usable conf m₁ queue ((comes.marked once).1.machines found)
    have within : chosenHosts conf m₁ job queue ⊆ conf.hostNames := fun h member =>
      mem_hostNames (Bool.and_eq_true_iff.mp (usable h member)).1
    exact Nat.not_lt.mpr long.2 (Nat.lt_of_le_of_lt (hostsLen_le distinct within) small)

/-- Each of the jobs is known, and one that waits has a queue and a dependency with a value. -/
def Readable (order : List JobId) (m : MbdState) : Prop :=
  ∀ j ∈ order, ∃ job, m.jobs j = some job ∧
    (job.state = .pending → job.queue.isSome = true ∧ (jobDepSatisfied m job).isSome = true)

theorem Tighter.readable (tighter : Tighter m m') (readable : Readable order m) :
    Readable order m' := by
  intro k member
  obtain ⟨job, before, known⟩ := readable k member
  rcases tighter.entry k with ⟨absent, _⟩ | ⟨_, job', _, after, _⟩
  · rw [absent] at before
    cases before
  · refine ⟨job', after, fun waits => ?_⟩
    obtain ⟨same, found, reason, on, number, text, rfl⟩ := tighter.pending after waits
    cases Option.some.inj (before.symm.trans found)
    obtain ⟨queue, dependency⟩ := known waits
    refine ⟨queue, ?_⟩
    rw [tighter.jobDepSatisfied]
    exact dependency

theorem InHostedCycle.goes (inCycle : InHostedCycle conf order s)
    (readable : Readable order s.1) (none : candidateCpus conf s.1 ≤ 0) (member : j ∈ order) :
    ∃ next, scheduleTurn conf now sendOk s j = some next := by
  obtain ⟨job, found, known⟩ := readable j member
  suffices taken : (scheduleJob conf now sendOk s.1 j s.2).isSome = true by
    obtain ⟨turn, done⟩ := isSome_iff_exists.mp taken
    exact ⟨_, congrArg (Option.map _) done⟩
  rw [scheduleJob, found]
  simp only [bind_eq_bind, bind_some]
  split
  · rfl
  next ready =>
    have waits : job.state = .pending := by
      simp [jobIsReady] at ready
      exact ready.1
    obtain ⟨hasQueue, evaluates⟩ := known waits
    obtain ⟨queue, ofQueue⟩ := isSome_iff_exists.mp hasQueue
    obtain ⟨satisfied, value⟩ := isSome_iff_exists.mp evaluates
    have noPlan : buildHostPlan conf s.1 job queue = Option.none :=
      inCycle.noPlan none found waits
    rw [ofQueue, value]
    simp only [bind_some, noPlan]
    split
    · rfl
    · split
      · rfl
      · split <;> rfl

theorem scheduleAll_isSome (once : NamesOnce m) (positive : PendingAsk NonNegative m)
    (hosted : PendingAsk AsksHost m) (readable : Readable m.pend m)
    (done : schedule conf m now sendOk = some m') :
    ∃ m'', scheduleAll conf m now sendOk = some m'' := by
  have start := inHostedCycle_start conf once positive hosted
  have known : Readable (cycleOrder conf m) (cycleStart conf m).1 := fun k member =>
    (cycleStart_tighter conf m).readable readable k ((conf.qsort_perm _ _).mem_iff.mp member)
  have kept : ∀ {s i s' stop}, i ∈ cycleOrder conf m →
      scheduleTurn conf now sendOk s i = some (s', stop) →
      InHostedCycle conf (cycleOrder conf m) s ∧ Readable (cycleOrder conf m) s.1 →
      InHostedCycle conf (cycleOrder conf m) s' ∧ Readable (cycleOrder conf m) s'.1 :=
    fun member turned both =>
      ⟨both.1.turn member turned, (both.1.tighter member turned).readable both.2⟩
  unfold scheduleAll
  split
  next => exact ⟨_, rfl⟩
  next some =>
    suffices walks : ∃ t, walk (walkThrough (scheduleTurn conf now sendOk)) (cycleOrder conf m)
        (cycleStart conf m) = Option.some t by
      obtain ⟨t, walked⟩ := walks
      exact ⟨_, congrArg (Option.map Prod.fst) walked⟩
    rcases schedule_cases done with ⟨empty, _⟩ | ⟨_, none, _⟩ | ⟨_, freeSlots, walked⟩
    · exact absurd (List.isEmpty_iff.mpr empty) some
    · have resting : candidateCpus conf (cycleStart conf m).1 ≤ 0 := by
        rw [← start.slots]
        exact Int.le_of_eq none
      exact walkThrough_isSome (fun s => (InHostedCycle conf (cycleOrder conf m) s ∧
          Readable (cycleOrder conf m) s.1) ∧ candidateCpus conf s.1 ≤ 0)
        (fun member turned all =>
          ⟨kept member turned all.1, (all.1.1.rests all.2 turned).1⟩)
        (fun member all => all.1.1.goes all.1.2 all.2 member) (fun _ => id)
        ⟨⟨start, known⟩, resting⟩
    · exact walk_walkThrough_isSome (fun s => InHostedCycle conf (cycleOrder conf m) s ∧
          Readable (cycleOrder conf m) s.1) (fun s => candidateCpus conf s.1 ≤ 0) kept
        (fun member turned both => both.1.stopped member turned)
        (fun _ turned both none => (both.1.rests none turned).1)
        (fun member both none => both.1.goes both.2 none member) (fun _ => id)
        ⟨start, known⟩ walked

end LavaLite.Mbd
