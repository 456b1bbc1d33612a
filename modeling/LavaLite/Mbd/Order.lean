import LavaLite.Mbd.Conserving

/-
The order of a scheduling cycle.  The comparator subtracts 32-bit priorities; where nothing
overflows the jobs come by the priority of their queue, their own and their id, and of two
jobs that need the same the first one is served first.
-/

namespace LavaLite.Mbd

open Base Batch Kernel

/-- The first job is to be taken before the second, or they are the same. -/
def Precedes (conf : Conf) (a b : JobData) : Prop :=
  queuePriority conf b < queuePriority conf a ∨ queuePriority conf b = queuePriority conf a ∧
      (b.priority < a.priority ∨ b.priority = a.priority ∧ a.jobId ≤ b.jobId)

def PrecedesIn (conf : Conf) (m : MbdState) (a b : JobId) : Prop :=
  ∀ ja jb, m.jobs a = some ja → m.jobs b = some jb → Precedes conf ja jb

def Fits32 (v : Int) : Prop :=
  intMin ≤ v ∧ v ≤ intMax

/-- No two jobs on the pending list have priorities too far apart to be subtracted. -/
def PrioritiesFit (conf : Conf) (m : MbdState) : Prop :=
  ∀ a ∈ m.pend, ∀ b ∈ m.pend, ∀ ja jb, m.jobs a = some ja → m.jobs b = some jb →
    Fits32 (queuePriority conf jb - queuePriority conf ja) ∧ Fits32 (jb.priority - ja.priority)

instance decidableFits32 (v : Int) : Decidable (Fits32 v) :=
  inferInstanceAs (Decidable (intMin ≤ v ∧ v ≤ intMax))

instance decidablePrioritiesFit (conf : Conf) (m : MbdState) : Decidable (PrioritiesFit conf m) :=
  decidable_of_iff (∀ a ∈ m.pend, ∀ b ∈ m.pend, (m.jobs a).all (fun ja => (m.jobs b).all fun jb =>
      decide (Fits32 (queuePriority conf jb - queuePriority conf ja) ∧
        Fits32 (jb.priority - ja.priority))) = true) <| by
    simp only [PrioritiesFit, Option.all_eq_true, decide_eq_true_eq]
    exact forall₄_congr fun a _ b _ =>
      ⟨fun each ja jb first => each ja first jb, fun each ja first jb => each ja jb first⟩

/-- Two jobs that wait for the same: whatever the cycle looks at is equal. -/
structure SameNeeds (a b : JobData) : Prop where
  state : a.state = b.state
  beginTime : a.beginTime = b.beginTime
  queue : a.queue = b.queue
  deps : a.deps = b.deps
  exclusive : a.flags.exclusive = b.flags.exclusive
  numCpus : a.res.numCpus = b.res.numCpus
  numHosts : a.res.numHosts = b.res.numHosts
  numGpus : a.res.numGpus = b.res.numGpus
  gpuModel : a.res.gpuModel = b.res.gpuModel
  memMb : a.res.memMb = b.res.memMb
  storageMb : a.res.storageMb = b.res.storageMb
  machines : a.res.machines = b.res.machines
  tokens : a.res.tokens = b.res.tokens

def Before (conf : Conf) (m : MbdState) (a b : JobId) : Prop :=
  ∃ front, front ++ [b] <+: cycleOrder conf m ∧ a ∈ front ∧ b ∉ front

variable {conf : Conf} {m : MbdState} {a b : JobId} {ja jb jc : JobData}

theorem Precedes.total (conf : Conf) (ja jb : JobData) :
    Precedes conf ja jb ∨ Precedes conf jb ja := by
  unfold Precedes JobId
  omega

theorem Precedes.trans (first : Precedes conf ja jb) (second : Precedes conf jb jc) :
    Precedes conf ja jc := by
  unfold Precedes JobId at *
  omega

theorem pendJobCmp_le_zero (first : m.jobs a = some ja) (second : m.jobs b = some jb)
    (byQueue : Fits32 (queuePriority conf jb - queuePriority conf ja))
    (byJob : Fits32 (jb.priority - ja.priority)) :
    pendJobCmp conf m a b ≤ 0 ↔ Precedes conf ja jb := by
  unfold pendJobCmp
  simp only [first, second, toInt32_of_fits byQueue.1 byQueue.2, toInt32_of_fits byJob.1 byJob.2]
  unfold Precedes JobId
  split_ifs <;> omega

theorem pendJobCmp_consistentOn (known : ∀ j ∈ m.pend, (m.jobs j).isSome = true)
    (fits : PrioritiesFit conf m) : ConsistentOn (pendJobCmp conf m) m.pend := by
  have found : ∀ j ∈ m.pend, ∃ job, m.jobs j = some job := fun j member =>
    Option.isSome_iff_exists.mp (known j member)
  have orders : ∀ {a b ja jb}, a ∈ m.pend → b ∈ m.pend → m.jobs a = some ja →
      m.jobs b = some jb → (pendJobCmp conf m a b ≤ 0 ↔ Precedes conf ja jb) := by
    intro a b ja jb inA inB first second
    obtain ⟨byQueue, byJob⟩ := fits a inA b inB ja jb first second
    exact pendJobCmp_le_zero first second byQueue byJob
  constructor
  · intro a inA b inB
    obtain ⟨ja, first⟩ := found a inA
    obtain ⟨jb, second⟩ := found b inB
    rw [orders inA inB first second, orders inB inA second first]
    exact Precedes.total conf ja jb
  · intro a inA b inB c inC
    obtain ⟨ja, first⟩ := found a inA
    obtain ⟨jb, second⟩ := found b inB
    obtain ⟨jc, third⟩ := found c inC
    rw [orders inA inB first second, orders inB inC second third, orders inA inC first third]
    exact Precedes.trans

theorem cycleOrder_sorted (sorts : Sorts conf.qsort)
    (known : ∀ j ∈ m.pend, (m.jobs j).isSome = true) (fits : PrioritiesFit conf m) :
    (cycleOrder conf m).Pairwise (PrecedesIn conf m) := by
  have consistent : ConsistentOn (pendJobCmp conf (markCandidates conf m).1) m.pend :=
    pendJobCmp_consistentOn (m := (markCandidates conf m).1) known fits
  have order := conf.qsort_perm (pendJobCmp conf (markCandidates conf m).1) m.pend
  refine List.Pairwise.imp_of_mem ?_ (sorts _ _ consistent)
  intro a b inA inB below ja jb first second
  have inA := order.mem_iff.mp inA
  have inB := order.mem_iff.mp inB
  obtain ⟨byQueue, byJob⟩ := fits a inA b inB ja jb first second
  exact (pendJobCmp_le_zero (m := (markCandidates conf m).1) first second byQueue byJob).mp below

/-! ### Two jobs that need the same -/

variable {m' m'' m₁ m₂ : MbdState} {queue : QueueName} {now : Time} {sendOk : JobId → Bool}
  {hosts : List HostName}

theorem SameNeeds.runnable (same : SameNeeds ja jb) (runnable : Runnable conf now m jb queue) :
    Runnable conf now m ja queue where
  ready := by
    have ready := runnable.ready
    unfold jobIsReady at ready ⊢
    rw [same.state, same.beginTime]
    exact ready
  ofQueue := same.queue.trans runnable.ofQueue
  opened := runnable.opened
  tokens := by
    have tokens := runnable.tokens
    unfold tokensAvailable at tokens ⊢
    rw [same.tokens]
    exact tokens
  dependency := by
    have dependency := runnable.dependency
    unfold jobDepSatisfied at dependency ⊢
    rw [same.deps]
    exact dependency

theorem SameNeeds.accommodates {h : HostName} (same : SameNeeds ja jb)
    (fits : Accommodates conf m jb queue h) : Accommodates conf m ja queue h where
  shared := fits.shared
  alone := by
    rw [same.exclusive]
    exact fits.alone
  cpus := same.numCpus.trans_le fits.cpus
  mem := same.memMb.trans_le fits.mem
  storage := same.storageMb.trans_le fits.storage
  gpus := by
    rw [same.numGpus]
    exact fits.gpus
  member := fits.member
  connected := fits.connected
  isOk := fits.isOk
  cpuLeft := fits.cpuLeft
  gpuModel := by
    rw [same.gpuModel, same.numGpus]
    exact fits.gpuModel

theorem SameNeeds.fits (same : SameNeeds ja jb) (fits : Fits conf m jb queue hosts) :
    Fits conf m ja queue hosts where
  number := by
    unfold hostsNeeded
    rw [same.machines, same.numHosts]
    exact fits.number
  distinct := fits.distinct
  suitable := fun h member => same.accommodates (fits.suitable h member)
  named := by
    rw [same.machines]
    exact fits.named

theorem SameNeeds.renoted {ja' jb' : JobData} (same : SameNeeds ja jb) (first : Renoted ja ja')
    (second : Renoted jb jb') : SameNeeds ja' jb' := by
  obtain ⟨_, _, _, _, rfl⟩ := first
  obtain ⟨_, _, _, _, rfl⟩ := second
  exact ⟨same.state, same.beginTime, same.queue, same.deps, same.exclusive, same.numCpus,
    same.numHosts, same.numGpus, same.gpuModel, same.memMb, same.storageMb, same.machines,
    same.tokens⟩

theorem Renoted.trans {first second third : JobData} (one : Renoted first second)
    (two : Renoted second third) : Renoted first third := by
  obtain ⟨_, _, _, _, rfl⟩ := one
  obtain ⟨_, _, _, _, rfl⟩ := two
  exact ⟨_, _, _, _, rfl⟩

theorem Tighter.trans (first : Tighter m m') (second : Tighter m' m'') : Tighter m m'' where
  pending := by
    intro k job'' found waits
    obtain ⟨job', between, later⟩ := second.pending found waits
    have still : job'.state = .pending := by
      obtain ⟨_, _, _, _, rfl⟩ := later
      exact waits
    obtain ⟨job, before, earlier⟩ := first.pending between still
    exact ⟨job, before, earlier.trans later⟩
  views := fun k => (second.views k).trans (first.views k)
  unfinished := fun k => (second.unfinished k).trans (first.unfinished k)
  finish := second.finish.trans first.finish
  closed := fun q => (second.closed q).trans (first.closed q)
  pools := fun p => Int.le_trans (second.pools p) (first.pools p)
  hosts := fun h => (first.hosts h).trans (second.hosts h)

theorem Dispatches.dispatchable (once : NamesOnce m)
    (dispatches : Dispatches conf m now sendOk b m₁ m₂) : Dispatchable conf now m₁ b := by
  obtain ⟨job, queue, plan, text, before, _, runnable, _, _, fits⟩ := dispatches.planned once
  exact ⟨job, queue, plan, before, runnable, fits⟩

theorem Dispatches.no_overtaking (once : NamesOnce m) (positive : PendingAsk NonNegative m)
    (fine : NothingFails conf m now sendOk) (dispatches : Dispatches conf m now sendOk b m₁ m₂)
    (before : Before conf m a b) (first : m.jobs a = some ja) (second : m.jobs b = some jb)
    (same : SameNeeds ja jb) {job : JobData} (found : m₁.jobs a = some job) :
    job.state ≠ .pending := by
  intro waits
  obtain ⟨front, order, inFront, fresh⟩ := before
  obtain ⟨known, queue, hosts, here, runnable, fits⟩ := dispatches.dispatchable once
  obtain ⟨freeSlots, turn, ⟨scans, visits⟩, _⟩ := dispatches
  have start := inCycle_start conf once positive
  -- its turn has settled the earlier job, and it still is settled
  have settled : ¬ Dispatchable conf now m₁ a :=
    visits.settled (InCycle conf (cycleOrder conf m)) (fun j s => ¬ Dispatchable conf now s.1 j)
      (fun member turned inCycle => inCycle.turn member turned)
      (fun member turned inCycle settled can =>
        settled ((inCycle.tighter member turned).dispatchable can))
      order inFront fresh (fun _ => id) start
      (fun visits inCycle turned => fine.settles scans visits inCycle turned)
  have later : Tighter m m₁ := by
    have along := visits.invariant
      (fun s => InCycle conf (cycleOrder conf m) s ∧ Tighter m s.1)
      (fun member turned both => ⟨both.1.turn member turned,
        both.2.trans (both.1.tighter member turned)⟩) (fun _ => id)
      ⟨start, cycleStart_tighter conf m⟩
    exact along.2
  obtain ⟨ja', wasA, renotedA⟩ := later.pending found waits
  obtain ⟨jb', wasB, renotedB⟩ := later.pending here runnable.pending
  cases Option.some.inj (first.symm.trans wasA)
  cases Option.some.inj (second.symm.trans wasB)
  have still := same.renoted renotedA renotedB
  exact settled ⟨job, queue, hosts, found, still.runnable runnable, still.fits fits⟩

end LavaLite.Mbd
