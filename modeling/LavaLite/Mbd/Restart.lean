import Mathlib.Data.Int.ModEq
import LavaLite.Mbd.Compaction
import LavaLite.Mbd.HostBalance

/-
A restart of mbd: the jobs are those of the manifest, and the counters and
resources are rebuilt from the lists.  What was sound before the restart is
sound after it.
-/

namespace LavaLite.Mbd

open Base Batch Kernel List Option

/-! ### The loops over the lists -/

variable {step : MbdState → JobId → Option MbdState} {l : List JobId} {m m' : MbdState}

theorem forEachJob_tally (measure : MbdState → Int) (weight : JobId → Int)
    {table : JobId → Option JobData}
    (adds : ∀ {m m' : MbdState} {j : JobId}, j ∈ l → m.jobs = table → step m j = some m' →
      m'.jobs = table ∧ measure m' = measure m + weight j)
    (done : forEachJob step l m = some m') (same : m.jobs = table) :
    measure m' = measure m + tally weight l := by
  induction l generalizing m with
  | nil =>
    cases done
    simp
  | cons j rest ih =>
    obtain ⟨m₁, first, done⟩ := bind_eq_some_iff.mp done
    obtain ⟨same', added⟩ := adds mem_cons_self same first
    rw [ih (fun member => adds (mem_cons_of_mem j member)) done same', added, tally_cons,
      Int.add_assoc]

theorem forEachJob_keeps (related : MbdState → MbdState → Prop) (refl : ∀ m, related m m)
    (trans : ∀ {a b c}, related a b → related b c → related a c)
    (each : ∀ {m m' : MbdState} {j : JobId}, step m j = some m' → related m m')
    (done : forEachJob step l m = some m') : related m m' := by
  induction l generalizing m with
  | nil =>
    cases done
    exact refl _
  | cons j rest ih =>
    obtain ⟨m₁, first, done⟩ := bind_eq_some_iff.mp done
    exact trans (each first) (ih done)

/-! ### The rebuild -/

variable {conf : Conf} {a b : MbdState} {j : JobId} {job : JobData} {c c' : QueueData}
  {k : QueueCounter} {q : QueueName}

theorem rebuildPending_spec (done : rebuildPending m j = some m') :
    ∃ job q c, m.jobs j = some job ∧ job.queue = some q ∧ countPending job (m.queues q) = some c ∧
      m' = { m with queues := Function.update m.queues q c } := by
  obtain ⟨job, found, done⟩ := bind_eq_some_iff.mp done
  obtain ⟨q, ofQueue, done⟩ := bind_eq_some_iff.mp done
  obtain ⟨c, counted, done⟩ := bind_eq_some_iff.mp done
  cases done
  exact ⟨job, q, c, found, ofQueue, counted, rfl⟩

theorem rebuildRunning_spec (done : rebuildRunning conf m j = some m') :
    ∃ job q c hosts, m.jobs j = some job ∧ job.queue = some q ∧
      countRunning job (m.queues q) = some c ∧
      updateEach (replayChargeHost job) job.hosts m.hosts = some hosts ∧
      m' = { m with
        queues := Function.update m.queues q c
        hosts := hosts
        pools := changeTokens conf (-1) job.res.tokens m.pools } := by
  obtain ⟨job, found, done⟩ := bind_eq_some_iff.mp done
  obtain ⟨q, ofQueue, done⟩ := bind_eq_some_iff.mp done
  obtain ⟨c, counted, done⟩ := bind_eq_some_iff.mp done
  obtain ⟨hosts, charged, done⟩ := bind_eq_some_iff.mp done
  cases done
  exact ⟨job, q, c, hosts, found, ofQueue, counted, charged, rfl⟩

theorem forEachJob_rebuildPending (done : forEachJob rebuildPending l m = some m') :
    ∃ queues, m' = { m with queues := queues } := by
  refine forEachJob_keeps (fun a b => ∃ queues, b = { a with queues := queues })
    (fun m => ⟨m.queues, rfl⟩) ?_ (fun turned => ?_) done
  · rintro _ _ _ ⟨_, rfl⟩ ⟨queues, rfl⟩
    exact ⟨queues, rfl⟩
  · obtain ⟨_, _, _, _, _, _, rfl⟩ := rebuildPending_spec turned
    exact ⟨_, rfl⟩

theorem forEachJob_rebuildRunning (done : forEachJob (rebuildRunning conf) l m = some m') :
    ∃ queues hosts pools, m' = { m with queues := queues, hosts := hosts, pools := pools } := by
  refine forEachJob_keeps (fun a b => ∃ queues hosts pools,
      b = { a with queues := queues, hosts := hosts, pools := pools })
    (fun m => ⟨m.queues, m.hosts, m.pools, rfl⟩) ?_ (fun turned => ?_) done
  · rintro _ _ _ ⟨_, _, _, rfl⟩ ⟨queues, hosts, pools, rfl⟩
    exact ⟨queues, hosts, pools, rfl⟩
  · obtain ⟨_, _, _, _, _, _, _, _, rfl⟩ := rebuildRunning_spec turned
    exact ⟨_, _, _, rfl⟩

/-- The atoms of the jobs of a list that name `k`. -/
def namingsIn (m : MbdState) (k : JobId) (l : List JobId) : Int :=
  tally (fun j => (m.jobs j).elim 0 fun job => (namings job k : Int)) l

/-- The jobs of a list that are elements of the array `k`. -/
def elementsIn (m : MbdState) (k : JobId) (l : List JobId) : Int :=
  tally (fun j => (m.jobs j).elim 0 fun job => if job.arrayId = k then 1 else 0) l

theorem rebuildHolds_eq (m : MbdState) (j : JobId) :
    rebuildHolds m j = { m with depRefcnt := (rebuildHolds m j).depRefcnt } := by
  unfold rebuildHolds
  split <;> rfl

theorem foldl_rebuildHolds (l : List JobId) (m : MbdState) :
    ∃ refs, l.foldl rebuildHolds m = { m with depRefcnt := refs } ∧
      ∀ k, (m.jobs k).isSome = true → refs k = m.depRefcnt k + namingsIn m k l := by
  induction l generalizing m with
  | nil => exact ⟨m.depRefcnt, rfl, fun k _ => (Int.add_zero _).symm⟩
  | cons j rest ih =>
    obtain ⟨refs, later, counted⟩ := ih (rebuildHolds m j)
    rw [← foldl_cons, rebuildHolds_eq] at later
    rw [rebuildHolds_eq] at counted
    refine ⟨refs, later, fun k known => ?_⟩
    have turn : (rebuildHolds m j).depRefcnt k =
        m.depRefcnt k + (m.jobs j).elim 0 fun job => (namings job k : Int) := by
      unfold rebuildHolds
      cases m.jobs j with
      | none => exact (Int.add_zero _).symm
      | some job =>
        simp only [elim_some]
        rw [depRefcnt_jobDepsRefcnt, if_pos known, Int.one_mul]
    rw [counted k known, turn, namingsIn, namingsIn, tally_cons, Int.add_assoc]

theorem rebuildElements_eq (m : MbdState) (j : JobId) :
    rebuildElements m j = { m with arrayElementCnt := (rebuildElements m j).arrayElementCnt } := by
  unfold rebuildElements
  split <;> rfl

theorem foldl_rebuildElements (l : List JobId) (m : MbdState) :
    ∃ counts, l.foldl rebuildElements m = { m with arrayElementCnt := counts } ∧
      ∀ k, k ≠ 0 → (m.jobs k).isSome = true →
        counts k = m.arrayElementCnt k + elementsIn m k l := by
  induction l generalizing m with
  | nil => exact ⟨m.arrayElementCnt, rfl, fun k _ _ => (Int.add_zero _).symm⟩
  | cons j rest ih =>
    obtain ⟨counts, later, counted⟩ := ih (rebuildElements m j)
    rw [← foldl_cons, rebuildElements_eq] at later
    rw [rebuildElements_eq] at counted
    refine ⟨counts, later, fun k positive known => ?_⟩
    have turn : (rebuildElements m j).arrayElementCnt k =
        m.arrayElementCnt k + (m.jobs j).elim 0 fun job => if job.arrayId = k then 1 else 0 := by
      unfold rebuildElements
      cases m.jobs j with
      | none => exact (Int.add_zero _).symm
      | some job =>
        simp only [elim_some]
        by_cases element : job.arrayId = k
        · subst element
          rw [if_pos ⟨positive, known⟩, Function.update_self, if_pos rfl]
        · rw [if_neg element, Int.add_zero]
          split
          · exact Function.update_of_ne (Ne.symm element) _ _
          · rfl
    rw [counted k positive known, turn, elementsIn, elementsIn, tally_cons, Int.add_assoc]

/-- The loops of the rebuild, and what they leave of the replayed state `m`. -/
structure Rebuilds (conf : Conf) (m : MbdState) (queues₁ queues : QueueName → QueueData)
    (hosts : HostName → HostData) (pools : PoolName → Int) (refs counts : JobId → Int) : Prop where
  pended : forEachJob rebuildPending m.pend m = some { m with queues := queues₁ }
  ran : forEachJob (rebuildRunning conf) m.run { m with queues := queues₁ } =
    some { m with queues := queues, hosts := hosts, pools := pools }
  holds : ∀ k, (m.jobs k).isSome = true → refs k = m.depRefcnt k + namingsIn m k m.pend
  elements : ∀ k, k ≠ 0 → (m.jobs k).isSome = true →
    counts k = m.arrayElementCnt k + elementsIn m k (m.pend ++ m.run)

theorem replayRebuildCounters_spec (done : replayRebuildCounters conf m = some m') :
    ∃ queues₁ queues hosts pools refs counts,
      Rebuilds conf m queues₁ queues hosts pools refs counts ∧
      m' = { m with
        queues := queues
        hosts := hosts
        pools := pools
        depRefcnt := refs
        arrayElementCnt := counts } := by
  obtain ⟨m₁, pended, done⟩ := bind_eq_some_iff.mp done
  obtain ⟨queues₁, rfl⟩ := forEachJob_rebuildPending pended
  obtain ⟨m₂, ran, done⟩ := bind_eq_some_iff.mp done
  obtain ⟨queues, hosts, pools, rfl⟩ := forEachJob_rebuildRunning ran
  obtain ⟨refs, held, holds⟩ := foldl_rebuildHolds m.pend
    { m with queues := queues, hosts := hosts, pools := pools }
  obtain ⟨counts, elements, counted⟩ := foldl_rebuildElements (m.pend ++ m.run)
    { m with queues := queues, hosts := hosts, pools := pools, depRefcnt := refs }
  refine ⟨queues₁, queues, hosts, pools, refs, counts, ⟨pended, ran, holds, counted⟩, ?_⟩
  simp only [held, elements] at done
  exact (Option.some.inj done).symm

theorem countPending_count (counted : countPending job c = some c') :
    c'.count k = c.count k + pendingCount job k := by
  unfold countPending at counted
  split at counted <;> cases counted
  all_goals cases k <;> simp [QueueData.count, pendingCount, *]

theorem countRunning_count (counted : countRunning job c = some c') :
    c'.count k = c.count k + runningCount job k := by
  unfold countRunning at counted
  split at counted <;> cases counted
  all_goals cases k <;> simp [QueueData.count, runningCount, *]

theorem count_update {queues : QueueName → QueueData} {q' : QueueName} {share : Int}
    (counted : c.count k = (queues q').count k + share) : (Function.update queues q' c q).count k =
      (queues q).count k + if some q' = some q then share else 0 := by
  by_cases here : q = q'
  · subst here
    rw [Function.update_self, if_pos rfl]
    exact counted
  · rw [Function.update_of_ne here, if_neg fun other => here (Option.some.inj other).symm,
      Int.add_zero]

theorem rebuildPending_count (wf : Listed m) (pending : j ∈ m.pend) (same : a.jobs = m.jobs)
    (done : rebuildPending a j = some b) : b.jobs = m.jobs ∧
      (b.queues q).count k = (a.queues q).count k + (m.jobs j).elim 0 (queueShare q k) := by
  obtain ⟨job, q', c, found, ofQueue, counted, rfl⟩ := rebuildPending_spec done
  rw [same] at found
  have on : job.listId = .pend := (wf.mem_iff found .pend).mp pending
  rw [found, elim_some, queueShare, ofQueue, jobShare, on]
  exact ⟨same, count_update (countPending_count counted)⟩

theorem rebuildRunning_count (wf : Listed m) (running : j ∈ m.run) (same : a.jobs = m.jobs)
    (done : rebuildRunning conf a j = some b) : b.jobs = m.jobs ∧
      (b.queues q).count k = (a.queues q).count k + (m.jobs j).elim 0 (queueShare q k) := by
  obtain ⟨job, q', c, hosts, found, ofQueue, counted, _, rfl⟩ := rebuildRunning_spec done
  rw [same] at found
  have on : job.listId = .run := (wf.mem_iff found .run).mp running
  rw [found, elim_some, queueShare, ofQueue, jobShare, on]
  exact ⟨same, count_update (countRunning_count counted)⟩

theorem rebuild_queueBalanced (wf : Listed m) (empty : ∀ q, (m.queues q).count k = 0)
    (done : replayRebuildCounters conf m = some m') : QueueBalanced k m' := by
  obtain ⟨queues₁, queues, _, _, _, _, rebuilt, rfl⟩ := replayRebuildCounters_spec done
  intro q
  have first := forEachJob_tally (fun m => (m.queues q).count k) _
    (fun member table turned => rebuildPending_count wf member table turned) rebuilt.pended rfl
  have second := forEachJob_tally (fun m => (m.queues q).count k) _
    (fun member table turned => rebuildRunning_count wf member table turned) rebuilt.ran rfl
  change (queues q).count k = listTally m (queueShare q k) .pend + listTally m (queueShare q k) .run
  rw [second, first, empty q, Int.zero_add]
  rfl

/-! ### Hosts -/

/-- The modulus a counter of a host is kept in: 0 for plain integers. -/
def HostCounter.modulus : HostCounter → Int
  | .freeMem | .freeStorage => u64Modulus
  | _ => 0

theorem subU64_modEq (a b : Nat) : (subU64 a b : Int) ≡ a + -b [ZMOD u64Modulus] := by
  unfold subU64 u64Modulus Int.ModEq
  omega

theorem count_replayChargeHost {k : HostCounter} {a b : HostData} (running : job.state = .running)
    (charged : replayChargeHost job a = some b) :
    b.count k ≡ a.count k + hostCount job k [ZMOD k.modulus] := by
  obtain ⟨gpus, _, done⟩ := bind_eq_some_iff.mp charged
  cases done
  cases k with
  | freeMem | freeStorage => exact subU64_modEq _ _
  | freeCpu | numJobs | numCpusUsed => rfl
  | numRun | numSusp => simp [HostData.count, hostCount, running]

/--
What the rebuild asks of the jobs on the two lists it counts.  It also counts those a
replay has marked as broken or orphaned.
-/
structure Rebuildable (m : MbdState) : Prop extends Listed m where
  pending : ∀ {j job}, m.jobs j = some job → job.listId = .pend → (∃ q, job.queue = some q) ∧
    (job.state.isWaiting = true ∨ job.state = .orphan ∨ job.state = .broken)
  running : ∀ {j job}, m.jobs j = some job → job.listId = .run → (∃ q, job.queue = some q) ∧
    job.state.isDispatched = true ∧ job.hosts.Nodup

theorem Wf.rebuildable (wf : Wf conf m) : Rebuildable m where
  toListed := wf.toListed
  pending := by
    intro j job found on
    obtain ⟨q, ofQueue, _⟩ := (wf.job found).queue
    exact ⟨⟨q, ofQueue⟩, .inl ((wf.job found).waiting on).state⟩
  running := by
    intro j job found on
    obtain ⟨q, ofQueue, _⟩ := (wf.job found).queue
    have running := (wf.job found).running on
    exact ⟨⟨q, ofQueue⟩, running.state, running.hosts_nodup⟩

def chargedOn (m : MbdState) (h : HostName) : List JobData :=
  (m.run.filterMap m.jobs).filter fun job => h ∈ job.hosts

def chargeAll : List JobData → HostData → Option HostData
  | [], host => some host
  | job :: rest, host => do
    let host ← replayChargeHost job host
    chargeAll rest host

theorem mem_chargedOn {h : HostName} (listed : Listed m) :
    job ∈ chargedOn m h ↔ ∃ j, m.jobs j = some job ∧ job.listId = .run ∧ h ∈ job.hosts := by
  rw [chargedOn, mem_filter, mem_filterMap, decide_eq_true_iff]
  constructor
  · rintro ⟨⟨j, member, found⟩, uses⟩
    exact ⟨j, found, (listed.mem_iff found .run).mp member, uses⟩
  · rintro ⟨j, found, on, uses⟩
    exact ⟨⟨j, (listed.mem_iff found .run).mpr on, found⟩, uses⟩

theorem rebuildRunning_host (ready : Rebuildable m) (members : ∀ j ∈ l, j ∈ m.run)
    (done : forEachJob (rebuildRunning conf) l a = some b) (same : a.jobs = m.jobs) (h : HostName) :
    chargeAll ((l.filterMap m.jobs).filter fun job => h ∈ job.hosts) (a.hosts h) =
      some (b.hosts h) := by
  induction l generalizing a with
  | nil =>
    cases done
    rfl
  | cons j rest ih =>
    obtain ⟨between, first, done⟩ := bind_eq_some_iff.mp done
    obtain ⟨job, _, _, hosts, found, _, _, charged, rfl⟩ := rebuildRunning_spec first
    rw [same] at found
    have on := (ready.mem_iff found .run).mp (members j mem_cons_self)
    obtain ⟨listed, others⟩ := updateEach_spec (ready.running found on).2.2 charged
    have later := ih (fun i member => members i (mem_cons_of_mem j member)) done same
    rw [filterMap_cons_some found, filter_cons]
    by_cases uses : h ∈ job.hosts
    · rw [if_pos (decide_eq_true uses), chargeAll, listed h uses]
      exact later
    · rw [if_neg (by simpa using uses), ← others h uses]
      exact later

theorem Rebuilds.host {queues₁ queues : QueueName → QueueData} {hosts : HostName → HostData}
    {pools : PoolName → Int} {refs counts : JobId → Int}
    (rebuilt : Rebuilds conf m queues₁ queues hosts pools refs counts) (ready : Rebuildable m)
    (h : HostName) : chargeAll (chargedOn m h) (m.hosts h) = some (hosts h) :=
  rebuildRunning_host ready (fun _ member => member) rebuilt.ran rfl h

theorem count_chargeAll {k : HostCounter} {jobs : List JobData} {a b : HostData}
    (runs : ∀ job ∈ jobs, job.state = .running) (done : chargeAll jobs a = some b) :
    b.count k ≡ a.count k + tally (hostCount · k) jobs [ZMOD k.modulus] := by
  induction jobs generalizing a with
  | nil =>
    cases done
    simp
  | cons job rest ih =>
    obtain ⟨between, first, done⟩ := bind_eq_some_iff.mp done
    have later := ih (fun other member => runs other (mem_cons_of_mem job member)) done
    rw [tally_cons, ← Int.add_assoc]
    exact later.trans ((count_replayChargeHost (runs job mem_cons_self) first).add_right _)

theorem rebuild_count {k : HostCounter} (wf : Wf conf m)
    (runs : ∀ {j job}, m.jobs j = some job → job.listId = .run → job.state = .running)
    (done : replayRebuildCounters conf m = some m') (h : HostName) :
    (m'.hosts h).count k ≡ (m.hosts h).count k + openTally m' (hostShare h k) [ZMOD k.modulus] := by
  obtain ⟨_, _, _, _, _, _, rebuilt, rfl⟩ := replayRebuildCounters_spec done
  have shares : openTally m (hostShare h k) = tally (hostCount · k) (chargedOn m h) := by
    rw [chargedOn, tally_filter]
    refine openTally_eq_tally_run wf.toListed fun job => ?_
    simp only [hostShare, ite_and, decide_eq_true_iff]
  change _ ≡ _ + openTally m (hostShare h k) [ZMOD k.modulus]
  rw [shares]
  refine count_chargeAll (fun job member => ?_) (rebuilt.host wf.rebuildable h)
  obtain ⟨j, found, on, _⟩ := (mem_chargedOn wf.toListed).mp member
  exact runs found on

/-! ### The jobs of a restarted mbd -/

variable {replayed : JobData}

theorem MirrorJob.self (mirrored : MirrorJob replayed job) : MirrorJob replayed replayed where
  core := rfl
  pending := by
    intro on
    have was := mirrored.pending (mirrored.listId.symm.trans on)
    exact ⟨rfl, rfl, was.2.2.1, mirrored.fits⟩
  running := by
    intro on
    have was := mirrored.running (mirrored.listId.symm.trans on)
    exact ⟨was.1, rfl, rfl, rfl⟩
  finished := by
    intro on
    have was := mirrored.finished (mirrored.listId.symm.trans on)
    exact ⟨was.1, fun _ => rfl, rfl, fun _ => ⟨rfl, rfl⟩, fun unset => was.2.2.2.2 (was.2.2.1.symm.trans unset)⟩
  fits := mirrored.fits
  machines := mirrored.machines
  machineCount := mirrored.machineCount

theorem MirrorJob.placed (mirrored : MirrorJob replayed job) (placed : Placed conf job)
    (runHosts : replayed.runHosts = job.runHosts) (runNhosts : replayed.runNhosts = job.runNhosts) :
    Placed conf replayed where
  distinct := by
    rw [runHosts]
    exact placed.distinct
  whole := by
    rw [runNhosts, runHosts]
    exact placed.whole
  nonempty := by
    rw [runHosts]
    exact placed.nonempty
  count := by
    have fits := mirrored.fits
    rw [runHosts] at fits
    rw [runNhosts, placed.whole]
    exact fits
  member := by
    have queue : replayed.queue = job.queue := congrArg Core.queue mirrored.core
    rw [queue, runHosts]
    exact placed.member

theorem MirrorJob.jobWf (mirrored : MirrorJob replayed job) (wf : JobWf conf j job) :
    JobWf conf j replayed := by
  have core := mirrored.core
  have list := mirrored.listId
  constructor
  · exact (congrArg Core.jobId core).trans wf.id
  · have queue : replayed.queue = job.queue := congrArg Core.queue core
    rw [queue]
    exact wf.queue
  · have user : replayed.user = job.user := congrArg Core.user core
    rw [user]
    exact wf.user
  · exact Int.le_trans (Int.natCast_nonneg _) mirrored.fits
  · exact mirrored.machines
  · exact mirrored.machineCount
  · have deps : replayed.deps = job.deps := congrArg Core.deps core
    have text : replayed.dependCond = job.dependCond := congrArg Core.dependCond core
    rw [deps, text]
    exact wf.deps
  · intro on
    have was := wf.waiting (list.symm.trans on)
    obtain ⟨state, dispatchTime, _, _⟩ := mirrored.pending (list.symm.trans on)
    refine ⟨?_, (congrArg Core.pid core).trans was.pid,
      (congrArg Core.forkTime core).trans was.forkTime, dispatchTime.trans was.dispatchTime,
      (congrArg Core.endTime core).trans was.endTime,
      (congrArg Core.exitStatus core).trans was.exitStatus⟩
    rw [state]
    exact was.state
  · intro on
    have was := wf.running (list.symm.trans on)
    obtain ⟨state, dispatchTime, runHosts, runNhosts⟩ := mirrored.running (list.symm.trans on)
    have forkTime : replayed.forkTime = job.forkTime := congrArg Core.forkTime core
    have pid : replayed.pid = job.pid := congrArg Core.pid core
    refine ⟨mirrored.placed was.toPlaced runHosts runNhosts, ?_, ?_, ?_, ?_,
      (congrArg Core.endTime core).trans was.endTime,
      (congrArg Core.exitStatus core).trans was.exitStatus⟩
    · rw [state]
      rfl
    · rw [dispatchTime]
      exact was.dispatchTime
    · rw [forkTime]
      exact was.forkTime
    · rw [forkTime, pid]
      exact was.unforked
  · intro on
    have was := wf.finished (list.symm.trans on)
    obtain ⟨state, _, dispatchTime, hosts, _⟩ := mirrored.finished (list.symm.trans on)
    have forkTime : replayed.forkTime = job.forkTime := congrArg Core.forkTime core
    have pid : replayed.pid = job.pid := congrArg Core.pid core
    have endTime : replayed.endTime = job.endTime := congrArg Core.endTime core
    refine ⟨?_, state, fun started => ?_, ?_, ?_⟩
    · rw [endTime]
      exact was.endTime
    · rw [dispatchTime] at started
      exact mirrored.placed (was.placed started) (hosts started).1 (hosts started).2
    · rw [dispatchTime, forkTime]
      exact was.unstarted
    · rw [forkTime, pid]
      exact was.unforked

theorem initialState_blank (conf : Conf) (marks : ClosedMarks) (manifest : List Event)
    (seqFile : JobId) : Blank (initialState conf marks manifest seqFile) :=
  ⟨rfl, fun id => by cases id <;> rfl⟩

/-- What a restart knows of the state before it. -/
structure Restored (conf : Conf) (m m' : MbdState) : Prop where
  mirror : ∀ {j replayed}, m'.jobs j = some replayed →
    ∃ job, m.jobs j = some job ∧ MirrorJob replayed job
  told : ∀ j, history conf m.manifest j = some (m'.jobs j)
  wf : Wf conf m'
  recoverable : Recoverable conf m'
  manifest : m'.manifest = m.manifest
  seqFile : m'.seqFile = m.seqFile
  marks : m'.marks = m.marks
  outbox : m'.outbox = []

structure StartedFrom (conf : Conf) (marks : ClosedMarks) (records manifest : List Event)
    (seqFile : JobId) (m : MbdState) : Prop where
  told : ∀ j, history conf records j = some (m.jobs j)
  jobIdSeq : m.jobIdSeq = max (maxId records) seqFile
  manifest : m.manifest = manifest
  seqFile : m.seqFile = seqFile
  marks : m.marks = marks
  outbox : m.outbox = []

theorem started_of_replay {marks : ClosedMarks} {records manifest : List Event} {seqFile : JobId}
    (done : replayRecords conf marks records manifest seqFile = some m) :
    StartedFrom conf marks records manifest seqFile m := by
  obtain ⟨r, events, rebuilt⟩ := bind_eq_some_iff.mp done
  obtain ⟨_, _, _, _, _, _, _, rfl⟩ := replayRebuildCounters_spec rebuilt
  have told := (initialState_blank conf marks manifest seqFile).history_eq events
  have rest := (replayEvents_spec events).2
  exact ⟨told, rfl, rest.manifest, rest.seqFile, rest.marks, rest.outbox⟩

section StartedFrom

variable {marks : ClosedMarks} {records manifest : List Event} {seqFile : JobId}
  (started : StartedFrom conf marks records manifest seqFile m)

include started

theorem StartedFrom.jobId (found : m.jobs j = some job) : job.jobId = j :=
  (history_known ((started.told j).trans (congrArg some found))).1

theorem StartedFrom.idsCounted (saved : 0 ≤ seqFile) : IdsCounted m := by
  constructor
  · intro j job found
    have known := (history_known ((started.told j).trans (congrArg some found))).2
    rw [started.jobIdSeq]
    exact Int.le_trans known (Int.le_max_left ..)
  · rw [started.seqFile, started.jobIdSeq]
    exact ⟨saved, Int.le_max_right ..⟩

end StartedFrom

structure Replayed (conf : Conf) (m r : MbdState) : Prop where
  mirror : ∀ {j replayed}, r.jobs j = some replayed →
    ∃ job, m.jobs j = some job ∧ MirrorJob replayed job
  told : ∀ j, history conf m.manifest j = some (r.jobs j)
  wf : Wf conf r
  hosts : r.hosts = fun h => makeHost (conf.hostConf h) (readBack m.marks.hosts h)
  queues : r.queues = fun q => makeQueue (readBack m.marks.queues q)
  manifest : r.manifest = m.manifest
  seqFile : r.seqFile = m.seqFile
  marks : r.marks = m.marks
  outbox : r.outbox = []
  pools : r.pools = conf.poolTotal

theorem replayed_of_events {r : MbdState} (wf : Wf conf m) (sound : Recoverable conf m)
    (saved : IdsSaved m)
    (done : replayEvents conf m.manifest (initialState conf m.marks m.manifest m.seqFile) = some r) :
    Replayed conf m { r with jobIdSeq := max (maxId m.manifest) m.seqFile } := by
  have blank := initialState_blank conf m.marks m.manifest m.seqFile
  have told := blank.history_eq done
  have rest := (replayEvents_spec done).2
  have mirror : ∀ {j replayed}, r.jobs j = some replayed →
      ∃ job, m.jobs j = some job ∧ MirrorJob replayed job := by
    intro j replayed found
    exact sound.mirror ((told j).trans (congrArg some found))
  have listed := sound.listed blank done
  refine ⟨mirror, told, ?_, rest.hosts, rest.queues, rest.manifest, rest.seqFile, rest.marks,
    rest.outbox, rest.pools⟩
  constructor
  · exact listed.congr rfl fun id => by cases id <;> rfl
  · intro j replayed found
    obtain ⟨job, live, mirrored⟩ := mirror found
    exact mirrored.jobWf (wf.job live)
  · intro j replayed found
    obtain ⟨job, live, _⟩ := mirror found
    exact ⟨(wf.ids live).1, Int.le_trans (saved live) (Int.le_max_right _ _)⟩
  · rw [rest.seqFile]
    exact ⟨wf.saved.1, Int.le_max_right _ _⟩

theorem replayed_of_recover (wf : Wf conf m) (sound : Recoverable conf m) (saved : IdsSaved m)
    (done : recover conf m = some m') :
    ∃ r, Replayed conf m r ∧ replayRebuildCounters conf r = some m' := by
  obtain ⟨r, events, rebuilt⟩ := bind_eq_some_iff.mp done
  exact ⟨_, replayed_of_events wf sound saved events, rebuilt⟩

theorem restored_of_recover (wf : Wf conf m) (sound : Recoverable conf m) (saved : IdsSaved m)
    (done : recover conf m = some m') : Restored conf m m' := by
  have started := started_of_replay done
  obtain ⟨r, replayed, rebuilt⟩ := replayed_of_recover wf sound saved done
  obtain ⟨_, _, _, _, _, _, _, rfl⟩ := replayRebuildCounters_spec rebuilt
  refine ⟨replayed.mirror, started.told, ?_, ⟨?_, ?_⟩, started.manifest, started.seqFile,
    started.marks, started.outbox⟩
  · have wf := replayed.wf
    exact ⟨wf.toListed.congr rfl fun id => (by cases id <;> rfl), wf.job, wf.ids, wf.saved⟩
  · intro j entry found
    rw [started.manifest, started.told j] at found
    have known := Option.some.inj found
    obtain ⟨job, _, mirrored⟩ := replayed.mirror known
    exact ⟨entry, known, mirrored.self⟩
  · rw [started.manifest]
    exact sound.listed

theorem Restored.idsSaved (restored : Restored conf m m') (saved : IdsSaved m) : IdsSaved m' := by
  intro j replayed found
  obtain ⟨job, live, _⟩ := restored.mirror found
  rw [restored.seqFile]
  exact saved live

/-! ### The accounts of a restarted mbd -/

section Accounts

variable {k : HostCounter}

theorem MirrorJob.hostShare (mirrored : MirrorJob replayed job) (steady : k.steady = true)
    (h : HostName) : hostShare h k replayed = hostShare h k job := by
  unfold Mbd.hostShare
  rw [mirrored.listId]
  by_cases on : job.listId = .run
  · obtain ⟨_, _, runHosts, runNhosts⟩ := mirrored.running on
    have hosts : replayed.hosts = job.hosts := by
      unfold JobData.hosts
      rw [runHosts, runNhosts]
    have cpus : replayed.res.numCpus = job.res.numCpus := congrArg Core.numCpus mirrored.core
    have mem : replayed.res.memMb = job.res.memMb := congrArg Core.memMb mirrored.core
    have storage : replayed.res.storageMb = job.res.storageMb :=
      congrArg Core.storageMb mirrored.core
    have count : hostCount replayed k = hostCount job k := by
      cases k with
      | numRun | numSusp => cases steady
      | numJobs => rfl
      | freeCpu | freeMem | freeStorage | numCpusUsed => simp only [hostCount, cpus, mem, storage]
    rw [hosts, count]
  · simp [on]

theorem Restored.used_le (restored : Restored conf m m') (wf : Listed m) (steady : k.steady = true)
    (h : HostName) (uses : ∀ {j job}, m.jobs j = some job → 0 ≤ -hostShare h k job) :
    openTally m (hostShare h k) ≤ openTally m' (hostShare h k) := by
  have entry : ∀ {j job}, m.jobs j = some job →
      (m.jobs j).elim 0 (fun job => -hostShare h k job) = -hostShare h k job := by
    intro j job found
    rw [found]
    rfl
  have part : tally (fun j => (m.jobs j).elim 0 fun job => -hostShare h k job) m'.run ≤
      tally (fun j => (m.jobs j).elim 0 fun job => -hostShare h k job) m.run := by
    refine tally_le_of_subset (restored.wf.distinct .run) (fun j member => ?_) fun j _ => ?_
    · obtain ⟨replayed, found, on⟩ := (restored.wf.listed .run j).mp member
      obtain ⟨job, live, mirrored⟩ := restored.mirror found
      exact (wf.listed .run j).mpr ⟨job, live, mirrored.listId.symm.trans on⟩
    · cases found : m.jobs j with
      | none => exact Int.le_refl 0
      | some job => exact uses found
  have same : tally (fun j => (m.jobs j).elim 0 fun job => -hostShare h k job) m'.run =
      listTally m' (fun job => -hostShare h k job) .run := by
    refine tally_congr fun j member => ?_
    obtain ⟨replayed, found, on⟩ := (restored.wf.listed .run j).mp member
    obtain ⟨job, live, mirrored⟩ := restored.mirror found
    rw [entry live, found, elim_some, mirrored.hostShare steady]
  have whole : tally (fun j => (m.jobs j).elim 0 fun job => -hostShare h k job) m.run =
      -listTally m (hostShare h k) .run := listTally_neg (hostShare h k) .run
  rw [same, listTally_neg, whole] at part
  rw [openTally_hostShare wf, openTally_hostShare restored.wf.toListed]
  omega

/-- The sizes of a host are `uint64_t`. -/
def SizesFit (host : HostData) : Prop :=
  host.freeMemMb < u64Modulus ∧ host.freeStorageMb < u64Modulus

theorem fits_chargeAll {jobs : List JobData} {a b : HostData}
    (done : chargeAll jobs a = some b) (fits : SizesFit a) : SizesFit b := by
  induction jobs generalizing a with
  | nil =>
    cases done
    exact fits
  | cons job rest ih =>
    obtain ⟨between, first, done⟩ := bind_eq_some_iff.mp done
    refine ih done ?_
    obtain ⟨gpus, _, result⟩ := bind_eq_some_iff.mp first
    cases result
    exact ⟨Nat.mod_lt _ (by decide), Nat.mod_lt _ (by decide)⟩

theorem eq_of_modEq {a b : Int} (same : a ≡ b [ZMOD u64Modulus]) (low : 0 ≤ a) (low' : 0 ≤ b)
    (high : a < u64Modulus) (high' : b < u64Modulus) : a = b := by
  unfold Int.ModEq at same
  rwa [Int.emod_eq_of_lt low high, Int.emod_eq_of_lt low' high'] at same

variable {total : HostConf → Nat} {free : HostData → Nat} {ask : JobResources → Nat} {h : HostName}

theorem Divisible.eq_of_modEq (divisible : Divisible k total free ask) (wf : Listed m)
    (size : total (conf.hostConf h) < u64Modulus) (fits : free (m.hosts h) < u64Modulus)
    (same : (m.hosts h).count k ≡ conf.hostBase h k + openTally m (hostShare h k) [ZMOD u64Modulus])
    (room : 0 ≤ conf.hostBase h k + openTally m (hostShare h k)) :
    (m.hosts h).count k = conf.hostBase h k + openTally m (hostShare h k) := by
  have used := openTally_nonneg wf (fun {_ job} _ => divisible.used_nonneg h job)
  rw [openTally_neg (hostShare h k)] at used
  have base := divisible.base conf h
  have count := divisible.count (m.hosts h)
  exact Mbd.eq_of_modEq same (by omega) room (by omega) (by omega)

theorem Restored.room (restored : Restored conf m m') (wf : Listed m)
    (divisible : Divisible k total free ask) (steady : k.steady = true)
    (balanced : HostBalanced conf k m) (h : HostName) :
    0 ≤ conf.hostBase h k + openTally m' (hostShare h k) := by
  have less := restored.used_le wf steady h fun {_ job} _ => divisible.used_nonneg h job
  have even := balanced h
  rw [divisible.count] at even
  omega

theorem exclusive_chargeAll {jobs : List JobData} {a b : HostData}
    (done : chargeAll jobs a = some b) :
    b.exclusive = true ↔ a.exclusive = true ∨ ∃ job ∈ jobs, job.flags.exclusive = true := by
  induction jobs generalizing a with
  | nil =>
    cases done
    simp
  | cons job rest ih =>
    obtain ⟨between, first, done⟩ := bind_eq_some_iff.mp done
    obtain ⟨gpus, _, result⟩ := bind_eq_some_iff.mp first
    cases result
    rw [ih done, exists_mem_cons_iff]
    dsimp only
    cases job.flags.exclusive <;> simp

section Recovered

variable (wf : Wf conf m) (sound : Recoverable conf m) (saved : IdsSaved m)
  (done : recover conf m = some m')

include wf sound saved done

theorem restart_queueBalanced (k : QueueCounter) : QueueBalanced k m' := by
  obtain ⟨r, replayed, rebuilt⟩ := replayed_of_recover wf sound saved done
  refine rebuild_queueBalanced replayed.wf.toListed (fun q => ?_) rebuilt
  rw [replayed.queues]
  cases k <;> rfl

theorem restart_host (h : HostName) :
    chargeAll (chargedOn m' h) (makeHost (conf.hostConf h) (readBack m.marks.hosts h)) =
      some (m'.hosts h) := by
  obtain ⟨r, replayed, rebuilt⟩ := replayed_of_recover wf sound saved done
  obtain ⟨_, _, _, _, _, _, loops, rfl⟩ := replayRebuildCounters_spec rebuilt
  have charged := loops.host replayed.wf.rebuildable h
  rwa [replayed.hosts] at charged

theorem restart_hostBalanced (balanced : HostBalanced conf k m) : HostBalanced conf k m' := by
  have restored := restored_of_recover wf sound saved done
  have size := conf.hostConf_fits
  have fits := fun h => fits_chargeAll (restart_host wf sound saved done h) (size h)
  have counted : ∀ h, (m'.hosts h).count k ≡ conf.hostBase h k + openTally m' (hostShare h k)
      [ZMOD k.modulus] := by
    intro h
    obtain ⟨r, replayed, rebuilt⟩ := replayed_of_recover wf sound saved done
    have base : conf.hostBase h k = (r.hosts h).count k := by
      rw [replayed.hosts]
      cases k <;> rfl
    rw [base]
    refine rebuild_count replayed.wf (fun found on => ?_) rebuilt h
    obtain ⟨job, _, mirrored⟩ := replayed.mirror found
    exact (mirrored.running (mirrored.listId.symm.trans on)).1
  intro h
  have same := counted h
  cases k with
  | freeMem =>
    exact divisible_mem.eq_of_modEq restored.wf.toListed (size h).1 (fits h).1 same
      (restored.room wf.toListed divisible_mem rfl balanced h)
  | freeStorage =>
    exact divisible_storage.eq_of_modEq restored.wf.toListed (size h).2 (fits h).2 same
      (restored.room wf.toListed divisible_storage rfl balanced h)
  | freeCpu | numJobs | numRun | numSusp | numCpusUsed => exact Int.modEq_zero_iff.mp same

theorem restart_exclusivity (exclusive : Exclusivity m) : Exclusivity m' := by
  have restored := restored_of_recover wf sound saved done
  have before : ∀ {h j x}, Occupies m' h j x → Occupies m h j x := by
    rintro h j x ⟨replayed, found, on, uses, asked⟩
    obtain ⟨job, live, mirrored⟩ := restored.mirror found
    have running := mirrored.listId.symm.trans on
    obtain ⟨_, _, runHosts, runNhosts⟩ := mirrored.running running
    have flags : replayed.flags = job.flags := congrArg Core.flags mirrored.core
    refine ⟨job, live, running, ?_, flags ▸ asked⟩
    unfold JobData.hosts at uses ⊢
    rw [← runHosts, ← runNhosts]
    exact uses
  refine ⟨fun first second => exclusive.alone (before first) (before second), fun h => ?_⟩
  rw [exclusive_chargeAll (restart_host wf sound saved done h)]
  simp only [mem_chargedOn restored.wf.toListed]
  constructor
  · rintro (never | ⟨job, ⟨j, found, on, uses⟩, asked⟩)
    · cases never
    · exact ⟨j, job, found, on, uses, asked⟩
  · rintro ⟨j, job, found, on, uses, asked⟩
    exact Or.inr ⟨job, ⟨j, found, on, uses⟩, asked⟩

end Recovered

end Accounts

end LavaLite.Mbd
