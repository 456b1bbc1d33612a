import LavaLite.Mbd.QueueBalance

/-
The resources and counters of a host follow the running jobs that use it.  An
exclusive job shares none of its hosts, and the mark of a host tells of it.
-/

namespace LavaLite.Mbd

open Base Batch Kernel

def hostShare (h : HostName) (k : HostCounter) (job : JobData) : Int :=
  if job.listId = .run ∧ h ∈ job.hosts then hostCount job k else 0

def Conf.hostBase (conf : Conf) (h : HostName) : HostCounter → Int
  | .freeCpu => (conf.hostConf h).totalCpu
  | .freeMem => (conf.hostConf h).totalMemMb
  | .freeStorage => (conf.hostConf h).totalStorageMb
  | _ => 0

/-- One counter of every host is its start value and what the running jobs add. -/
def HostBalanced (conf : Conf) (k : HostCounter) (m : MbdState) : Prop :=
  ∀ h, (m.hosts h).count k = conf.hostBase h k + openTally m (hostShare h k)

def HostCounter.steady : HostCounter → Bool
  | .numRun | .numSusp => false
  | _ => true

/--
The reports after which the counters of running and stopped jobs on a host still
agree with the states of the jobs: they are orderly, and the host that answers
is the only one the job uses.
-/
def localReports : Permit
  | m, job, .stopped n => orderlyReports m job (.stopped n) ∧ job.hosts = [n]
  | m, job, .continued n => orderlyReports m job (.continued n) ∧ job.hosts = [n]
  | m, job, report => orderlyReports m job report

instance decidableLocal (m : MbdState) (job : JobData) :
    ∀ report, Decidable (localReports m job report)
  | .stopped n =>
    inferInstanceAs (Decidable (orderlyReports m job (.stopped n) ∧ job.hosts = [n]))
  | .continued n =>
    inferInstanceAs (Decidable (orderlyReports m job (.continued n) ∧ job.hosts = [n]))
  | .forked => inferInstanceAs (Decidable (orderlyReports m job .forked))
  | .released | .finished | .unsent | .compacted | .moved _ | .ranked _ => isTrue trivial

/-! ### Shares -/

theorem hostShare_open (h : HostName) (k : HostCounter) : OpenWeight (hostShare h k) := by
  intro job ended
  simp [hostShare, ended]

variable {h : HostName} {k : HostCounter} {job : JobData} {m : MbdState} {conf : Conf}

theorem hostShare_of_ne (away : job.listId ≠ .run) : hostShare h k job = 0 :=
  if_neg fun both => away both.1

theorem hostShare_of_run (running : job.listId = .run) :
    hostShare h k job = if h ∈ job.hosts then hostCount job k else 0 := by
  simp [hostShare, running]

theorem hostShare_of_steady (steady : k.steady = true) (state : JobState) :
    hostShare h k { job with state := state } = hostShare h k job := by
  cases k <;> first | rfl | cases steady

theorem openTally_hostShare (wf : Listed m) (h : HostName) (k : HostCounter) :
    openTally m (hostShare h k) = listTally m (hostShare h k) .run :=
  openTally_of_running wf fun _ => hostShare_of_ne

/-! ### Sizes fit -/

theorem Conf.hostConf_fits (conf : Conf) (h : HostName) :
    (conf.hostConf h).totalMemMb < u64Modulus ∧ (conf.hostConf h).totalStorageMb < u64Modulus := by
  unfold Conf.hostConf
  cases found : conf.findHost h with
  | none => exact ⟨by decide, by decide⟩
  | some hc => exact conf.sizes_fit hc (List.mem_of_find?_eq_some found)

variable {j : JobId}

structure Divisible (k : HostCounter) (total : HostConf → Nat) (free : HostData → Nat)
    (ask : JobResources → Nat) : Prop where
  base : ∀ (conf : Conf) h, conf.hostBase h k = total (conf.hostConf h)
  count : ∀ host : HostData, host.count k = free host
  share : ∀ job : JobData, hostCount job k = -(ask job.res : Int)

theorem divisible_mem :
    Divisible .freeMem HostConf.totalMemMb HostData.freeMemMb JobResources.memMb :=
  ⟨fun _ _ => rfl, fun _ => rfl, fun _ => rfl⟩

theorem divisible_storage :
    Divisible .freeStorage HostConf.totalStorageMb HostData.freeStorageMb JobResources.storageMb :=
  ⟨fun _ _ => rfl, fun _ => rfl, fun _ => rfl⟩

variable {total : HostConf → Nat} {free : HostData → Nat} {ask : JobResources → Nat}

theorem Divisible.used_nonneg (divisible : Divisible k total free ask) (h : HostName)
    (job : JobData) : 0 ≤ -hostShare h k job := by
  unfold hostShare
  split
  · rw [divisible.share]
    omega
  · omega

theorem Divisible.free_le (divisible : Divisible k total free ask) (wf : Listed m)
    (balanced : HostBalanced conf k m) : free (m.hosts h) ≤ total (conf.hostConf h) := by
  have even := balanced h
  rw [divisible.count, divisible.base] at even
  have used := openTally_nonneg wf (fun {_ job} _ => divisible.used_nonneg h job)
  rw [openTally_neg (hostShare h k)] at used
  omega

theorem Divisible.free_add_le (divisible : Divisible k total free ask) (wf : Listed m)
    (balanced : HostBalanced conf k m) (found : m.jobs j = some job) (running : job.listId = .run)
    (uses : h ∈ job.hosts) : free (m.hosts h) + ask job.res ≤ total (conf.hostConf h) := by
  have even := balanced h
  rw [divisible.count, divisible.base] at even
  have used := le_openTally wf found (by rw [running]; decide)
    (fun {_ job} _ => divisible.used_nonneg h job)
  rw [openTally_neg (hostShare h k), hostShare_of_run running, if_pos uses, divisible.share] at used
  omega

/-! ### What the scheduler checked -/

structure Suits (job : JobData) (a : HostData) : Prop where
  shared : a.exclusive = false
  alone : job.flags.exclusive = true → a.numJobs ≤ 0
  cpus : job.res.numCpus ≤ a.freeCpu
  mem : job.res.memMb ≤ a.freeMemMb
  storage : job.res.storageMb ≤ a.freeStorageMb
  gpus : 0 < job.res.numGpus → job.res.numGpus ≤ gpuIdsCountFree a.gpus

theorem suits_of_hostRefusal {hc : HostConf} {a : HostData} (fine : hostRefusal hc a job = none) :
    Suits job a := by
  unfold hostRefusal at fine
  simp only [ite_eq_right_iff, reduceCtorEq, imp_false, ite_eq_iff, and_false, false_or] at fine
  obtain ⟨_, shared, alone, cpus, mem, storage, gpus, _⟩ := fine
  refine ⟨by simpa using shared, fun exclusive => ?_, by omega, by omega, by omega,
    fun positive => ?_⟩
  · exact Int.not_lt.mp fun busy => alone ⟨exclusive, busy⟩
  · have enough : hostHasGpuCount a job ≠ 0 := fun none => gpus ⟨positive, none⟩
    unfold hostHasGpuCount at enough
    by_contra short
    exact enough (if_neg short)

theorem suits_of_meets (meets : hostMeetsRequirements conf m job h = true) :
    Suits job (m.hosts h) := by
  unfold hostMeetsRequirements at meets
  split at meets
  · exact suits_of_hostRefusal (Option.isNone_iff_eq_none.mp meets)
  · cases meets

theorem PlanFor.suits {queue : QueueName} {plan : List HostName}
    (planned : PlanFor conf m job queue plan) (member : h ∈ plan) : Suits job (m.hosts h) :=
  suits_of_meets (planned.meets h member)

/-! ### Charging and releasing one host -/

variable {a b : HostData}

structure Affords (k : HostCounter) (job : JobData) (a : HostData) : Prop where
  mem : k = .freeMem → job.res.memMb ≤ a.freeMemMb ∧ a.freeMemMb < u64Modulus
  storage : k = .freeStorage → job.res.storageMb ≤ a.freeStorageMb ∧ a.freeStorageMb < u64Modulus

theorem count_chargeHost (affords : Affords k job a) (running : job.state = .running) :
    (chargeHost job a).count k = a.count k + hostCount job k := by
  cases k with
  | freeMem =>
    obtain ⟨enough, fits⟩ := affords.mem rfl
    simp only [HostData.count, chargeHost, hostCount, subU64_eq_sub enough fits]
    omega
  | freeStorage =>
    obtain ⟨enough, fits⟩ := affords.storage rfl
    simp only [HostData.count, chargeHost, hostCount, subU64_eq_sub enough fits]
    omega
  | freeCpu | numJobs | numCpusUsed => simp [HostData.count, chargeHost, hostCount, Int.sub_eq_add_neg]
  | numRun | numSusp => simp [HostData.count, chargeHost, hostCount, running]

structure Holds (k : HostCounter) (job : JobData) (a : HostData) : Prop where
  mem : k = .freeMem → a.freeMemMb + job.res.memMb < u64Modulus
  storage : k = .freeStorage → a.freeStorageMb + job.res.storageMb < u64Modulus

theorem count_resetHost (holds : Holds k job a) (reset : resetHost job a = some b) :
    b.count k = a.count k - hostCount job k := by
  obtain ⟨gpus, _, done⟩ := Option.bind_eq_some_iff.mp reset
  cases done
  cases k with
  | freeMem =>
    simp only [HostData.count, hostCount, addU64_eq_add (holds.mem rfl)]
    omega
  | freeStorage =>
    simp only [HostData.count, hostCount, addU64_eq_add (holds.storage rfl)]
    omega
  | freeCpu | numJobs | numCpusUsed => simp [HostData.count, hostCount]
  | numRun | numSusp =>
    simp only [HostData.count, hostCount]
    split <;> omega

theorem count_hostsAssigned (first : HostName) (gpus : List GpuId) (h : HostName) (a : HostData) :
    (hostsAssigned first gpus h a).count k = a.count k := by
  unfold hostsAssigned
  split
  · cases k <;> rfl
  · rfl

theorem SameAccount.count (same : SameAccount a b) : b.count k = a.count k := by
  rw [same]
  cases k <;> rfl

variable {permits : Permit} {m' : MbdState} {job' : JobData}
  {onHost : HostChange} {onQueue : QueueChange} {pools : PoolName → Int} {records : List Event}
  {sent : Outbox} {queue : QueueName} {plan : List HostName} {ws : WireJobSubmit} {n : HostName}
  {state : JobState} {f : HostData → HostData}

theorem Change.hostBalanced
    (change : Change m m' j job job' onHost onQueue pools records sent) (wf : Listed m)
    (balanced : HostBalanced conf k m) (counted : ∀ h, (m'.hosts h).count k =
      (m.hosts h).count k - hostShare h k job + hostShare h k job') : HostBalanced conf k m' := by
  intro h
  rw [counted, balanced h, change.openTally wf (hostShare_open h k)]
  omega

theorem Change.hostBalanced_kept
    (change : Change m m' j job job' hostsKept onQueue pools records sent) (wf : Listed m)
    (balanced : HostBalanced conf k m) (share : ∀ h, hostShare h k job' = hostShare h k job) :
    HostBalanced conf k m' := by
  refine change.hostBalanced wf balanced fun h => ?_
  rw [change.hosts h, share]
  omega

theorem Change.hostBalanced_idle
    (change : Change m m' j job job' onHost onQueue pools records sent) (wf : Listed m)
    (balanced : HostBalanced conf k m) (before : job.listId ≠ .run) (after : job'.listId ≠ .run)
    (counted : ∀ h a b, onHost h a b → b.count k = a.count k) : HostBalanced conf k m' := by
  refine change.hostBalanced wf balanced fun h => ?_
  rw [counted h _ _ (change.hosts h), hostShare_of_ne before, hostShare_of_ne after]
  omega

theorem PlanFor.affords (planned : PlanFor conf m job queue plan) (wf : Listed m)
    (balanced : HostBalanced conf k m) (member : h ∈ plan) : Affords k job (m.hosts h) := by
  have fits := conf.hostConf_fits h
  have suits := planned.suits member
  constructor
  · intro isMem
    subst isMem
    have bounded := divisible_mem.free_le (h := h) wf balanced
    exact ⟨suits.mem, by omega⟩
  · intro isStorage
    subst isStorage
    have bounded := divisible_storage.free_le (h := h) wf balanced
    exact ⟨suits.storage, by omega⟩

theorem holds_of_running (wf : Listed m) (balanced : HostBalanced conf k m)
    (found : m.jobs j = some job) (running : job.listId = .run) (uses : h ∈ job.hosts) :
    Holds k job (m.hosts h) := by
  have fits := conf.hostConf_fits h
  constructor
  · intro isMem
    subst isMem
    have bounded := divisible_mem.free_add_le wf balanced found running uses
    omega
  · intro isStorage
    subst isStorage
    have bounded := divisible_storage.free_add_le wf balanced found running uses
    omega

theorem Change.hostBalanced_reset
    (change : Change m m' j job job' (hostsReset job) onQueue pools records sent) (wf : Listed m)
    (balanced : HostBalanced conf k m) (running : job.listId = .run)
    (left : job'.listId ≠ .run) : HostBalanced conf k m' := by
  refine change.hostBalanced wf balanced fun h => ?_
  have relates := change.hosts h
  unfold hostsReset at relates
  rw [hostShare_of_ne left, hostShare_of_run running]
  by_cases uses : h ∈ job.hosts
  · rw [if_pos uses] at relates ⊢
    rw [count_resetHost (holds_of_running wf balanced change.found running uses) relates]
    omega
  · rw [if_neg uses] at relates ⊢
    rw [relates]
    omega

theorem Change.hostBalanced_charged {text : String} {now : Time} {first : HostName}
    {gpus : List GpuId} (change : Change m m' j job (dispatchedJob job plan text now)
      (hostsCharged (dispatchedJob job plan text now) first gpus) onQueue pools records sent)
    (wf : Listed m) (balanced : HostBalanced conf k m) (pending : job.listId = .pend)
    (planned : PlanFor conf m job queue plan) : HostBalanced conf k m' := by
  refine change.hostBalanced wf balanced fun h => ?_
  have relates := change.hosts h
  unfold hostsCharged at relates
  have hosts : (dispatchedJob job plan text now).hosts = plan := List.take_length
  rw [hosts] at relates
  rw [relates, hostShare_of_ne (by rw [pending]; decide), hostShare_of_run rfl, hosts]
  by_cases uses : h ∈ plan
  · rw [if_pos uses, if_pos uses]
    have affords := planned.affords wf balanced uses
    have marked : Affords k (dispatchedJob job plan text now)
        (hostsAssigned first gpus h (m.hosts h)) := by
      unfold hostsAssigned
      split
      · exact ⟨affords.mem, affords.storage⟩
      · exact ⟨affords.mem, affords.storage⟩
    rw [count_chargeHost marked rfl, count_hostsAssigned]
    omega
  · rw [if_neg uses, if_neg uses, count_hostsAssigned]
    omega

theorem Frame.hostBalanced (framed : Frame m m') (balanced : HostBalanced conf k m) :
    HostBalanced conf k m' := by
  intro h
  rw [framed.openTally, ← balanced h, (framed.hosts h).count]

theorem Change.hostBalanced_unseen
    (change : Change m m' j job { job with state := state } (atHost n f) onQueue pools records sent)
    (wf : Listed m) (balanced : HostBalanced conf k m) (steady : k.steady = true)
    (counted : ∀ a, (f a).count k = a.count k) : HostBalanced conf k m' := by
  refine change.hostBalanced wf balanced fun h => ?_
  have same : hostShare h k { job with state := state } = hostShare h k job :=
    hostShare_of_steady steady state
  rw [change.hosts h, same]
  split
  · rw [counted]
    omega
  · omega

theorem Change.hostBalanced_alone
    (change : Change m m' j job { job with state := state } (atHost n f) onQueue pools records sent)
    (wf : Listed m) (balanced : HostBalanced conf k m) (running : job.listId = .run)
    (alone : job.hosts = [n])
    (counted : ∀ a, (f a).count k =
      a.count k - hostCount job k + hostCount { job with state := state } k) :
    HostBalanced conf k m' := by
  refine change.hostBalanced wf balanced fun h => ?_
  have after : hostShare h k { job with state := state } =
      if h ∈ job.hosts then hostCount { job with state := state } k else 0 :=
    hostShare_of_run running
  rw [change.hosts h, after, hostShare_of_run running, alone]
  simp only [List.mem_singleton]
  split
  · exact counted _
  · omega

theorem Effect.hostBalanced (wf : Wf conf m) (balanced : HostBalanced conf k m)
    (orderly : k.steady = true ∨ ∀ m job report, permits m job report → localReports m job report)
    (effect : Effect conf permits m m') : HostBalanced conf k m' := by
  cases effect with
  | frame framed => exact framed.hostBalanced balanced
  | ackReply _ _ sends | ackFinish _ _ sends =>
    subst sends
    exact balanced
  | compact _ compacted =>
    intro h
    have hosts : m'.hosts = m.hosts := by
      obtain ⟨_, _, result⟩ := manifestRebuild_spec compacted
      rw [result]
    rw [compact_openTally compacted wf, ← balanced h, hosts]
  | note pending change | signalSent _ _ change | move pending _ _ _ _ change
  | priority _ _ change =>
    exact change.hostBalanced_kept wf.toListed balanced fun _ => rfl
  | stranded pending _ _ _ _ change =>
    have away := pending.trans_ne (by decide : ListId.pend ≠ .run)
    refine change.hostBalanced_idle wf.toListed balanced away away fun h a b relates => ?_
    rw [relates, count_hostsAssigned]
  | dispatch pending _ _ _ planned _ _ _ change =>
    exact change.hostBalanced_charged wf.toListed balanced pending planned
  | hold pending _ _ change | unhold pending _ _ change =>
    have away := pending.trans_ne (by decide : ListId.pend ≠ .run)
    exact change.hostBalanced_idle wf.toListed balanced away away fun _ _ _ same =>
      congrArg (HostData.count · k) same
  | kill pending _ _ _ change =>
    have away := pending.trans_ne (by decide : ListId.pend ≠ .run)
    exact change.hostBalanced_idle wf.toListed balanced away nofun fun _ _ _ same =>
      congrArg (HostData.count · k) same
  | @fork _ job _ pid now running _ unforked _ permitted change =>
    refine change.hostBalanced_kept wf.toListed balanced fun h => ?_
    rcases orderly with steady | orderly
    · have same : hostShare h k { job with pid := pid, forkTime := now, state := .running } =
          hostShare h k { job with pid := pid, forkTime := now } :=
        hostShare_of_steady steady .running
      exact same
    · have wasRunning : job.state = .running := orderly _ _ _ permitted unforked
      rw [← wasRunning]
      rfl
  | release running _ _ _ result _ _ change =>
    refine change.hostBalanced_reset wf.toListed balanced running ?_
    rcases result with rfl | rfl <;> exact nofun
  | finish running _ _ _ _ _ _ change =>
    exact change.hostBalanced_reset wf.toListed balanced running nofun
  | stopped left _ permitted change =>
    rcases orderly with steady | orderly
    · refine change.hostBalanced_unseen wf.toListed balanced steady fun a => ?_
      cases k <;> first | rfl | cases steady
    · obtain ⟨⟨running, isRunning⟩, alone⟩ := orderly _ _ _ permitted
      refine change.hostBalanced_alone wf.toListed balanced running alone fun a => ?_
      cases k <;> simp [hostStopped, HostData.count, hostCount, isRunning]
  | continued left _ permitted change =>
    rcases orderly with steady | orderly
    · refine change.hostBalanced_unseen wf.toListed balanced steady fun a => ?_
      cases k <;> first | rfl | cases steady
    · obtain ⟨⟨running, isStopped⟩, alone⟩ := orderly _ _ _ permitted
      refine change.hostBalanced_alone wf.toListed balanced running alone fun a => ?_
      cases k <;> simp [hostResumed, HostData.count, hostCount, isStopped]

theorem Commit.hostBalanced (commit : Commit conf ws m m' queue job) (wf : Wf conf m)
    (balanced : HostBalanced conf k m) : HostBalanced conf k m' := by
  intro h
  have away := commit.prepared.list.trans_ne (by decide : ListId.pend ≠ .run)
  rw [commit.openTally wf.toListed (hostShare_open h k), hostShare_of_ne away, commit.hosts,
    balanced h]
  omega

theorem Registers.hostBalanced (registers : Registers conf ws m m') (wf : Wf conf m)
    (balanced : HostBalanced conf k m) : HostBalanced conf k m' :=
  registers.keeps_of_wf (HostBalanced conf k) (fun _ balanced framed => framed.hostBalanced balanced)
    (fun wf balanced commit => commit.hostBalanced wf balanced) (fun _ balanced => balanced)
    wf balanced

/-! ### The recount -/

def HostCounts.count (c : HostCounts) : HostCounter → Int
  | .numJobs => c.numJobs
  | .numRun => c.numRun
  | .numSusp => c.numSusp
  | .numCpusUsed => c.numCpusUsed
  | _ => 0

def HostCounter.recounted : HostCounter → Bool
  | .numJobs | .numRun | .numSusp | .numCpusUsed => true
  | _ => false

theorem count_recountHost (wf : Listed m) (recounted : k.recounted = true) :
    (recountHost m h).count k = openTally m (hostShare h k) := by
  have body : ∀ j ∈ m.run, ∀ c, (recountOnHost m h c j).count k =
      c.count k + (m.jobs j).elim 0 (hostShare h k) := by
    intro j member c
    obtain ⟨job, found, on⟩ := (wf.listed .run j).mp member
    simp only [recountOnHost, found, Option.elim_some, hostShare_of_run on, jobUsesHost,
      List.contains_iff_mem]
    split
    · cases k with
      | freeCpu | freeMem | freeStorage => cases recounted
      | numJobs | numCpusUsed => rfl
      | numRun | numSusp =>
        simp only [HostCounts.count, hostCount]
        split <;> omega
    · omega
  have none : HostCounts.none.count k = 0 := by
    cases k <;> rfl
  unfold recountHost
  rw [foldl_tally (HostCounts.count · k) body, none, openTally_hostShare wf, Int.zero_add]
  rfl

/-! ### Exclusive jobs -/

/-- The running job `j` uses the host `h`; `x` is whether it asked for the host alone. -/
def Occupies (m : MbdState) (h : HostName) (j : JobId) (x : Bool) : Prop :=
  ∃ job, m.jobs j = some job ∧ job.listId = .run ∧ h ∈ job.hosts ∧ job.flags.exclusive = x

/-- Exclusive jobs have their hosts for themselves, and the marks say where they are. -/
structure Exclusivity (m : MbdState) : Prop where
  alone : ∀ {h j i x}, Occupies m h j true → Occupies m h i x → i = j
  marked : ∀ h, (m.hosts h).exclusive = true ↔ ∃ j, Occupies m h j true

variable {x : Bool}

theorem Exclusivity.congr (exclusive : Exclusivity m)
    (same : ∀ h i x, Occupies m' h i x ↔ Occupies m h i x)
    (marks : ∀ h, (m'.hosts h).exclusive = (m.hosts h).exclusive) : Exclusivity m' where
  alone := by
    intro h j i x first second
    exact exclusive.alone ((same h j true).mp first) ((same h i x).mp second)
  marked := by
    intro h
    rw [marks, exclusive.marked]
    exact exists_congr fun j => (same h j true).symm

theorem Change.occupies_self (change : Change m m' j job job' onHost onQueue pools records sent) :
    Occupies m' h j x ↔ job'.listId = .run ∧ h ∈ job'.hosts ∧ job'.flags.exclusive = x := by
  constructor
  · rintro ⟨found, at', rest⟩
    rw [change.jobs_self] at at'
    cases at'
    exact rest
  · exact fun rest => ⟨job', change.jobs_self, rest⟩

theorem Change.occupies_of_ne
    (change : Change m m' j job job' onHost onQueue pools records sent) {i : JobId}
    (other : i ≠ j) : Occupies m' h i x ↔ Occupies m h i x := by
  unfold Occupies
  rw [change.jobs_of_ne other]

theorem occupies_iff (found : m.jobs j = some job) :
    Occupies m h j x ↔ job.listId = .run ∧ h ∈ job.hosts ∧ job.flags.exclusive = x := by
  constructor
  · rintro ⟨other, at', rest⟩
    rw [found] at at'
    cases at'
    exact rest
  · exact fun rest => ⟨job, found, rest⟩

theorem Change.flags (change : Change m m' j job job' onHost onQueue pools records sent) :
    job'.flags = job.flags :=
  congrArg Request.flags change.request

theorem Change.exclusivity_kept (change : Change m m' j job job' onHost onQueue pools records sent)
    (exclusive : Exclusivity m)
    (stays : ∀ h, job'.listId = .run ∧ h ∈ job'.hosts ↔ job.listId = .run ∧ h ∈ job.hosts)
    (marks : ∀ h a b, onHost h a b → b.exclusive = a.exclusive) : Exclusivity m' := by
  refine exclusive.congr (fun h i x => ?_) fun h => marks h _ _ (change.hosts h)
  by_cases same : i = j
  · subst same
    rw [change.occupies_self, occupies_iff change.found, change.flags, ← and_assoc, ← and_assoc,
      stays h]
  · exact change.occupies_of_ne same

theorem Change.exclusivity_idle (change : Change m m' j job job' onHost onQueue pools records sent)
    (exclusive : Exclusivity m) (before : job.listId ≠ .run) (after : job'.listId ≠ .run)
    (marks : ∀ h a b, onHost h a b → b.exclusive = a.exclusive) : Exclusivity m' :=
  change.exclusivity_kept exclusive
    (fun _ => ⟨fun both => absurd both.1 after, fun both => absurd both.1 before⟩) marks

theorem Change.exclusivity_reset
    (change : Change m m' j job job' (hostsReset job) onQueue pools records sent)
    (exclusive : Exclusivity m) (running : job.listId = .run) (left : job'.listId ≠ .run) :
    Exclusivity m' := by
  have gone : ∀ h x, ¬ Occupies m' h j x := fun h x there =>
    left (change.occupies_self.mp there).1
  have remains : ∀ {h i x}, Occupies m' h i x → i ≠ j ∧ Occupies m h i x := by
    intro h i x there
    have other : i ≠ j := fun same => gone h x (same ▸ there)
    exact ⟨other, (change.occupies_of_ne other).mp there⟩
  refine ⟨fun first second => exclusive.alone (remains first).2 (remains second).2, fun h => ?_⟩
  have relates := change.hosts h
  unfold hostsReset at relates
  have after : (m'.hosts h).exclusive = true ↔
      (m.hosts h).exclusive = true ∧ ¬ (h ∈ job.hosts ∧ job.flags.exclusive = true) := by
    by_cases uses : h ∈ job.hosts
    · rw [if_pos uses] at relates
      obtain ⟨gpus, _, done⟩ := Option.bind_eq_some_iff.mp relates
      rw [← Option.some.inj done]
      cases job.flags.exclusive <;> simp [uses]
    · rw [if_neg uses] at relates
      rw [relates]
      simp [uses]
  rw [after, exclusive.marked]
  constructor
  · rintro ⟨⟨i, there⟩, notMine⟩
    have other : i ≠ j := by
      rintro rfl
      exact notMine ((occupies_iff change.found).mp there).2
    exact ⟨i, (change.occupies_of_ne other).mpr there⟩
  · rintro ⟨i, there⟩
    obtain ⟨other, before⟩ := remains there
    refine ⟨⟨i, before⟩, fun ⟨uses, mine⟩ => other ?_⟩
    exact exclusive.alone ((occupies_iff change.found).mpr ⟨running, uses, mine⟩) before

theorem HostBalanced.vacant (balanced : HostBalanced conf .numJobs m) (wf : Listed m)
    (none : (m.hosts h).numJobs ≤ 0) (i : JobId) (x : Bool) : ¬ Occupies m h i x := by
  rintro ⟨job, found, running, uses, _⟩
  have counted := balanced h
  have share : hostShare h .numJobs job = 1 := by
    rw [hostShare_of_run running, if_pos uses]
    rfl
  have each : ∀ {j job}, m.jobs j = some job → 0 ≤ hostShare h .numJobs job := by
    intro j job _
    unfold hostShare
    split
    · exact Int.zero_le_ofNat 1
    · exact Int.le_refl 0
  have most := le_openTally wf found (running.trans_ne (by decide)) each
  simp only [HostData.count, Conf.hostBase] at counted
  omega

theorem Change.exclusivity_charged {text : String} {now : Time} {first : HostName}
    {gpus : List GpuId} (change : Change m m' j job (dispatchedJob job plan text now)
      (hostsCharged (dispatchedJob job plan text now) first gpus) onQueue pools records sent)
    (wf : Listed m) (exclusive : Exclusivity m) (balanced : HostBalanced conf .numJobs m)
    (pending : job.listId = .pend) (planned : PlanFor conf m job queue plan) : Exclusivity m' := by
  have hosts : (dispatchedJob job plan text now).hosts = plan := List.take_length
  have mine : ∀ {h x}, Occupies m' h j x ↔ h ∈ plan ∧ job.flags.exclusive = x := by
    intro h x
    rw [change.occupies_self, hosts]
    exact ⟨fun there => there.2, fun there => ⟨rfl, there⟩⟩
  -- on a planned host nobody is exclusive, and nobody is there when the job asks for it alone
  have shared : ∀ {h i}, h ∈ plan → ¬ Occupies m h i true := by
    intro h i member there
    have mark := (exclusive.marked h).mpr ⟨i, there⟩
    rw [(planned.suits member).shared] at mark
    cases mark
  have vacant : ∀ {h i x}, h ∈ plan → job.flags.exclusive = true → ¬ Occupies m h i x :=
    fun member asks => balanced.vacant wf ((planned.suits member).alone asks) _ _
  constructor
  · intro h a b x one two
    by_cases isA : a = j
    · by_cases isB : b = j
      · rw [isA, isB]
      · rw [isA] at one
        obtain ⟨member, asks⟩ := mine.mp one
        exact absurd ((change.occupies_of_ne isB).mp two) (vacant member asks)
    · have before := (change.occupies_of_ne isA).mp one
      by_cases isB : b = j
      · rw [isB] at two
        exact absurd before (shared (mine.mp two).1)
      · exact exclusive.alone before ((change.occupies_of_ne isB).mp two)
  · intro h
    have relates := change.hosts h
    unfold hostsCharged at relates
    rw [hosts] at relates
    have mark : (hostsAssigned first gpus h (m.hosts h)).exclusive = (m.hosts h).exclusive := by
      unfold hostsAssigned
      split <;> rfl
    have after : (m'.hosts h).exclusive = true ↔
        (h ∈ plan ∧ job.flags.exclusive = true) ∨ (m.hosts h).exclusive = true := by
      rw [relates]
      by_cases member : h ∈ plan
      · rw [if_pos member]
        simp only [chargeHost, mark]
        have same : (dispatchedJob job plan text now).flags = job.flags := rfl
        rw [same]
        cases job.flags.exclusive <;> simp [member]
      · rw [if_neg member, mark]
        simp [member]
    rw [after, exclusive.marked]
    constructor
    · rintro (there | ⟨i, there⟩)
      · exact ⟨j, mine.mpr there⟩
      · have other : i ≠ j := by
          rintro rfl
          exact absurd (pending.symm.trans ((occupies_iff change.found).mp there).1) (by decide)
        exact ⟨i, (change.occupies_of_ne other).mpr there⟩
    · rintro ⟨i, there⟩
      by_cases same : i = j
      · rw [same] at there
        exact Or.inl (mine.mp there)
      · exact Or.inr ⟨i, (change.occupies_of_ne same).mp there⟩

theorem SameAccount.exclusive {a b : HostData} (same : SameAccount a b) :
    b.exclusive = a.exclusive := by
  rw [same]

theorem Frame.exclusivity (framed : Frame m m') (exclusive : Exclusivity m) : Exclusivity m' :=
  exclusive.congr (fun _ _ _ => by rw [Occupies, framed.jobs, Occupies])
    fun h => (framed.hosts h).exclusive

theorem Effect.exclusivity (wf : Wf conf m) (balanced : HostBalanced conf .numJobs m)
    (exclusive : Exclusivity m) (effect : Effect conf permits m m') : Exclusivity m' := by
  have kept : ∀ (h : HostName) (a b : HostData), hostsKept h a b → b.exclusive = a.exclusive :=
    fun _ _ _ same => congrArg HostData.exclusive same
  have pendingAway : ListId.pend ≠ .run := by decide
  cases effect with
  | frame framed => exact framed.exclusivity exclusive
  | ackReply _ _ sends | ackFinish _ _ sends =>
    subst sends
    exact exclusive.congr (fun _ _ _ => Iff.rfl) fun _ => rfl
  | note _ change | signalSent _ _ change | hold _ _ _ change | unhold _ _ _ change
  | move _ _ _ _ _ change | priority _ _ change | fork _ _ _ _ _ change =>
    exact change.exclusivity_kept exclusive (fun _ => Iff.rfl) kept
  | stranded pending _ _ _ _ change =>
    have away := pending.trans_ne pendingAway
    refine change.exclusivity_idle exclusive away away fun h a b relates => ?_
    rw [relates, hostsAssigned]
    split <;> rfl
  | dispatch pending _ _ _ planned _ _ _ change =>
    exact change.exclusivity_charged wf.toListed exclusive balanced pending planned
  | kill pending _ _ _ change =>
    exact change.exclusivity_idle exclusive (pending.trans_ne pendingAway) nofun kept
  | release running _ _ _ result _ _ change =>
    refine change.exclusivity_reset exclusive running ?_
    rcases result with rfl | rfl <;> exact nofun
  | finish running _ _ _ _ _ _ change => exact change.exclusivity_reset exclusive running nofun
  | stopped _ _ _ change | continued _ _ _ change =>
    refine change.exclusivity_kept exclusive (fun _ => Iff.rfl) fun h a b relates => ?_
    rw [relates]
    split <;> rfl
  | compact _ compacted =>
    have hosts : m'.hosts = m.hosts := by
      obtain ⟨_, _, result⟩ := manifestRebuild_spec compacted
      rw [result]
    refine exclusive.congr (fun h i x => ?_) fun h => by rw [hosts]
    constructor
    · rintro ⟨job, found, rest⟩
      exact ⟨job, (compact_jobs compacted found).1, rest⟩
    · rintro ⟨job, found, running, rest⟩
      exact ⟨job, compact_open compacted wf.toListed found (running.trans_ne (by decide)),
        running, rest⟩

theorem Commit.exclusivity (commit : Commit conf ws m m' queue job) (exclusive : Exclusivity m) :
    Exclusivity m' := by
  refine exclusive.congr (fun h i x => ?_) fun h => by rw [commit.hosts]
  constructor
  · rintro ⟨found, at', running, rest⟩
    rcases commit.jobs_cases at' with ⟨rfl, rfl⟩ | before
    · exact absurd (commit.prepared.list.symm.trans running) (by decide)
    · exact ⟨found, before, running, rest⟩
  · rintro ⟨found, at', rest⟩
    exact ⟨found, commit.jobs_of_some at', rest⟩

theorem Registers.exclusivity (registers : Registers conf ws m m') (exclusive : Exclusivity m) :
    Exclusivity m' :=
  registers.keeps Exclusivity (fun exclusive framed => framed.exclusivity exclusive)
    (fun exclusive commit => commit.exclusivity exclusive)
    (fun exclusive => exclusive.congr (fun _ _ _ => Iff.rfl) fun _ => rfl) exclusive

end LavaLite.Mbd
