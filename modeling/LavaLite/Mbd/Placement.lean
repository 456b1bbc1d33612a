import LavaLite.Mbd.Lost
import LavaLite.Kernel.Sorting
import LavaLite.Kernel.Walk

/-
What the machines of the jobs are, in whatever state mbd is.  A turn of a scheduling cycle
either notes why the job waits, or finds a plan for it and dispatches it; the plan is
made of hosts that suit the job at that moment.
-/

namespace LavaLite.Mbd

open Base Batch Kernel Function List Option

section

/-- The jobs have ids mbd has counted, and the machines they name are of a given kind. -/
structure JobsNaming (named : JobId → List String → Prop) (m : MbdState) : Prop
    extends IdsCounted m where
  keyed : ∀ {j job}, m.jobs j = some job → job.jobId = j
  machines : ∀ {j job}, m.jobs j = some job → named j job.res.machines

/-- No job names a machine twice. -/
abbrev NamesOnce : MbdState → Prop :=
  JobsNaming fun _ machines => machines.Nodup

variable {conf : Conf} {m m' : MbdState} {i : JobId} {now : Time}
  {named : JobId → List String → Prop}

theorem Touches.naming (touches : Touches i m m') (naming : JobsNaming named m) :
    JobsNaming named m' where
  toIdsCounted := touches.idsCounted naming.toIdsCounted
  keyed := by
    intro j job' found
    obtain ⟨job, before, same⟩ := touches.known found
    exact (congrArg Prod.fst same).trans (naming.keyed before)
  machines := by
    intro j job' found
    obtain ⟨job, before, same⟩ := touches.known found
    have kept : job'.res = job.res := congrArg Prod.snd same
    rw [kept]
    exact naming.machines before

theorem JobsNaming.congr (naming : JobsNaming named m) (jobs : ∀ {j job}, m'.jobs j = some job →
    m.jobs j = some job) (seqFile : m'.seqFile = m.seqFile) (jobIdSeq : m.jobIdSeq ≤ m'.jobIdSeq) :
    JobsNaming named m' where
  ids := fun found => Int.le_trans (naming.ids (jobs found)) jobIdSeq
  saved := seqFile ▸ ⟨naming.saved.1, Int.le_trans naming.saved.2 jobIdSeq⟩
  keyed := fun found => naming.keyed (jobs found)
  machines := fun found => naming.machines (jobs found)

theorem jobsSignal_naming {uid : Nat} {jobId : JobId} {arrayIndex sig : Int}
    {sendOk : JobId → Bool} {status : Status} (naming : JobsNaming named m)
    (done : jobsSignal conf m now uid jobId arrayIndex sig sendOk = some (m', status)) :
    JobsNaming named m' := by
  apply jobsSignal_invariant _ _ _ done naming
  · exact fun _ found one => (signalOneJob_acts found one).naming
  · exact fun one => (signalScanPending_acts one).naming
  · exact fun one => (signalScanRunning_acts one).naming

theorem schedule_naming {sendOk : JobId → Bool} (naming : JobsNaming named m)
    (done : schedule conf m now sendOk = some m') : JobsNaming named m' := by
  apply schedule_invariant _ _ done naming
  · exact fun _ _ before => before.congr id rfl (Int.le_refl _)
  · exact fun turn => (scheduleJob_acts turn).naming

theorem maybeRebuildManifest_naming (naming : JobsNaming named m)
    (done : maybeRebuildManifest conf m = some m') : JobsNaming named m' := by
  unfold maybeRebuildManifest at done
  split at done
  · cases done
    exact naming
  · obtain ⟨seqFile, jobIdSeq⟩ := manifestRebuild_count done
    exact naming.congr (fun found => (compact_jobs done found).1) seqFile (Int.le_of_eq jobIdSeq.symm)

theorem jobRegister_naming {env : SubmitEnv} {uid gid : Nat} {request : WireJobSubmit}
    {answer : Except Status JobId} (naming : JobsNaming named m)
    (new : ∀ {j}, m.jobIdSeq < j → named j (machinesHashPopulate conf request.machines))
    (done : jobRegister conf env m uid gid request = some (m', answer)) : JobsNaming named m' := by
  rcases jobRegister_cases naming.toIdsCounted done with
    framed | ⟨m₁, m₂, _, _, jobs, framed, half, committed, rfl⟩
  · exact naming.congr (fun found => framed.jobs ▸ found) framed.seqFile framed.jobIdSeq
  · have whole := Halfway.induction (Halfway conf _ m.jobs uid gid _ _ _)
      (fun half commit _ _ => half.turn commit) half half committed
    have grown : m.jobIdSeq ≤ m₂.jobIdSeq := by
      rw [whole.counted.trans half.counted.symm]
      exact framed.jobIdSeq
    have known : ∀ {j job}, m₂.jobs j = some job → j ≤ m₂.jobIdSeq ∧ job.jobId = j ∧
        named j job.res.machines := by
      intro j job found
      rcases whole.known found with before | ⟨member, rfl⟩
      · exact ⟨Int.le_trans (naming.ids before) grown, naming.keyed before, naming.machines before⟩
      · obtain ⟨prepared, above, below⟩ := whole.ready job (List.mem_append_left [] member)
        refine ⟨whole.counted ▸ below, rfl, ?_⟩
        rw [prepared.machines]
        exact new above
    exact ⟨⟨fun found => (known found).1, Int.le_trans (Int.le_trans naming.saved.1 naming.saved.2)
      grown, Int.le_refl _⟩, fun found => (known found).2.1, fun found => (known found).2.2⟩

variable {j : JobId} {job : JobData}

theorem history_machines {manifest : List Event}
    (told : history conf manifest j = some (some job)) :
    ∃ e, .jobNew e ∈ manifest ∧ e.jobId = j ∧
      job.res.machines = machinesHashPopulate conf e.machines := by
  refine history_invariant (fun job => ∃ e, .jobNew e ∈ manifest ∧ e.jobId = j ∧
    job.res.machines = machinesHashPopulate conf e.machines) (fun e job member mine alloc => ?_) ?_ told
  · have same := congrArg (fun d : Detail => d.res.machines) (replayAlloc_detail alloc)
    simp only [JobData.detail, newDetail] at same
    exact ⟨e, member, mine, same⟩
  · intro _ _ _ job job' recorded known
    have kept : job'.res = job.res := congrArg Request.res (replayRecord_request recorded)
    rw [kept]
    exact known

theorem replayRecords_naming {marks : ClosedMarks} {records manifest : List Event}
    {seqFile : JobId} (saved : 0 ≤ seqFile) (new : ∀ {j e}, .jobNew e ∈ records → e.jobId = j →
      named j (machinesHashPopulate conf e.machines))
    (done : replayRecords conf marks records manifest seqFile = some m) : JobsNaming named m := by
  have started := started_of_replay done
  refine ⟨started.idsCounted saved, started.jobId, fun {j _} found => ?_⟩
  obtain ⟨e, member, mine, same⟩ := history_machines ((started.told j).trans (congrArg some found))
  rw [same]
  exact new member mine

end

/-! ### The names of a machine list -/

section

/-- What a machine list says: every name in it, a group for its members. -/
def listedMachines (conf : Conf) (machines : String) : List String :=
  (machineTokens machines).foldl (machinesHashInsertToken conf) []

def behindGroup (conf : Conf) : List String → List String
  | [] => []
  | tok :: rest => if (conf.findGroup tok).isSome then rest else behindGroup conf rest

/-- What stands behind the first group of the list is named without it too. -/
def NoneLost (conf : Conf) (machines : String) : Prop :=
  ∀ tok ∈ behindGroup conf (machineTokens machines), ∀ name ∈ tokenMachines conf tok,
    name ∈ machinesHashPopulate conf machines

instance (conf : Conf) (machines : String) : Decidable (NoneLost conf machines) :=
  inferInstanceAs (Decidable (∀ tok ∈ behindGroup conf (machineTokens machines), _))

variable {conf : Conf} {machines name : String}

theorem mem_foldl_insertKey : ∀ {names keys : List String},
    name ∈ names.foldl insertKey keys ↔ name ∈ keys ∨ name ∈ names := by
  intro names
  induction names with
  | nil => simp
  | cons key rest ih =>
    intro keys
    have inserted : name ∈ insertKey keys key ↔ name ∈ keys ∨ name = key := by
      unfold insertKey
      split
      next known =>
        rw [contains_iff_mem] at known
        exact ⟨.inl, fun either => either.elim id fun same => same ▸ known⟩
      next => simp
    rw [foldl_cons, ih, inserted, mem_cons]
    grind

theorem mem_foldl_tokens : ∀ {tokens keys : List String},
    name ∈ tokens.foldl (machinesHashInsertToken conf) keys ↔
      name ∈ keys ∨ ∃ tok ∈ tokens, name ∈ tokenMachines conf tok := by
  intro tokens
  induction tokens with
  | nil => simp
  | cons tok rest ih =>
    intro keys
    rw [foldl_cons, ih, machinesHashInsertToken, mem_foldl_insertKey, exists_mem_cons_iff]
    grind

theorem foldl_tokens_eq : ∀ (tokens keys : List String),
    tokens.foldl (machinesHashInsertToken conf) keys =
      (behindGroup conf tokens).foldl (machinesHashInsertToken conf)
        (machinesHashTokens conf keys tokens) := by
  intro tokens
  induction tokens with
  | nil => exact fun _ => rfl
  | cons tok rest ih =>
    intro keys
    rw [behindGroup, machinesHashTokens]
    split
    · rfl
    · exact ih _

theorem nodup_foldl_tokens (tokens : List String) {keys : List String} (distinct : keys.Nodup) :
    (tokens.foldl (machinesHashInsertToken conf) keys).Nodup := by
  induction tokens generalizing keys with
  | nil => exact distinct
  | cons tok rest ih => exact ih (nodup_foldl_insertKey _ _ distinct)

theorem mem_listedMachines : name ∈ listedMachines conf machines ↔
    name ∈ machinesHashPopulate conf machines ∨
      ∃ tok ∈ behindGroup conf (machineTokens machines), name ∈ tokenMachines conf tok := by
  rw [listedMachines, foldl_tokens_eq, mem_foldl_tokens]
  rfl

theorem perm_listedMachines_iff : (machinesHashPopulate conf machines).Perm
    (listedMachines conf machines) ↔ NoneLost conf machines := by
  constructor
  · intro same tok behind name member
    exact same.mem_iff.mpr (mem_listedMachines.mpr (.inr ⟨tok, behind, member⟩))
  · intro none
    refine (perm_ext_iff_of_nodup (nodup_machinesHashPopulate conf machines)
      (nodup_foldl_tokens _ nodup_nil)).mpr fun name =>
        ⟨fun member => mem_listedMachines.mpr (.inl member), fun member => ?_⟩
    rcases mem_listedMachines.mp member with kept | ⟨tok, behind, named⟩
    · exact kept
    · exact none tok behind name named

end

/-! ### Plans -/

/-! ### The turns of a cycle -/

/-- The body of the loop of `schedule`, on the state and the free slots. -/
def scheduleTurn (conf : Conf) (now : Time) (sendOk : JobId → Bool) (s : MbdState × Int)
    (j : JobId) : Option ((MbdState × Int) × Bool) :=
  (scheduleJob conf now sendOk s.1 j s.2).map fun turn => ((turn.state, turn.freeSlots), turn.stop)

def cycleOrder (conf : Conf) (m : MbdState) : List JobId :=
  conf.qsort (pendJobCmp conf (markCandidates conf m).1) m.pend

/-- The state and the free slots with which the loop of `schedule` begins. -/
def cycleStart (conf : Conf) (m : MbdState) : MbdState × Int :=
  ({ (markCandidates conf m).1 with pend := cycleOrder conf m }, (markCandidates conf m).2)

structure Scans (conf : Conf) (m : MbdState) : Prop where
  waiting : m.pend ≠ []
  slots : (markCandidates conf m).2 ≠ 0
  fits : m.pend.length ≤ schedSortBufMax

/-- In the cycle that starts in `m`, the turn of `j` comes in the state `m₁`. -/
def TurnComes (conf : Conf) (m : MbdState) (now : Time) (sendOk : JobId → Bool) (j : JobId)
    (m₁ : MbdState) (freeSlots : Int) : Prop :=
  Scans conf m ∧
    Visits (scheduleTurn conf now sendOk) (cycleOrder conf m) (cycleStart conf m) j (m₁, freeSlots)

/-- In the cycle that starts in `m`, `j` is dispatched: its turn puts it on the run list. -/
def Dispatches (conf : Conf) (m : MbdState) (now : Time) (sendOk : JobId → Bool) (j : JobId)
    (m₁ m₂ : MbdState) : Prop :=
  ∃ freeSlots turn, TurnComes conf m now sendOk j m₁ freeSlots ∧
    scheduleJob conf now sendOk m₁ j freeSlots = some turn ∧ turn.state = m₂ ∧ m₂.run ≠ m₁.run

/-- What the cycle asks of a job before it looks for hosts. -/
structure Runnable (conf : Conf) (now : Time) (m : MbdState) (job : JobData) (queue : QueueName) :
    Prop where
  ready : jobIsReady now job = true
  ofQueue : job.queue = some queue
  opened : (m.queues queue).closed = false
  tokens : tokensAvailable conf m job = true
  dependency : jobDepSatisfied m job = some true

variable {conf : Conf} {now : Time} {m : MbdState} {job : JobData} {queue : QueueName}

theorem Runnable.pending (runnable : Runnable conf now m job queue) : job.state = .pending := by
  have ready := runnable.ready
  simp only [jobIsReady, Bool.and_eq_true, decide_eq_true_eq] at ready
  exact ready.1

theorem Runnable.begun (runnable : Runnable conf now m job queue) :
    0 < job.beginTime → job.beginTime ≤ now := by
  have ready := runnable.ready
  simp only [jobIsReady, Bool.and_eq_true, Bool.not_eq_true', Bool.and_eq_false_imp,
    decide_eq_true_eq, decide_eq_false_iff_not] at ready
  exact fun later => Int.not_lt.mp (ready.2 later)

structure StartedOn (conf : Conf) (now : Time) (m : MbdState) (j : JobId) (job : JobData)
    (plan : List HostName) (first : HostName) (gpus : List GpuId) (text : String)
    (freeSlots : Int) (turn : Turn) : Prop where
  jobs : turn.state.jobs = update m.jobs j (some (dispatchedJob job plan text now))
  pend : turn.state.pend = m.pend.erase j
  run : turn.state.run = m.run ++ [j]
  finish : turn.state.finish = m.finish
  hosts : ∀ h, turn.state.hosts h =
    if h ∈ plan then chargeHost job (hostsAssigned first gpus h (m.hosts h)) else m.hosts h
  closed : ∀ q, (turn.state.queues q).closed = (m.queues q).closed
  pools : turn.state.pools = changeTokens conf (-1) job.res.tokens m.pools
  slots : turn.freeSlots = freeSlots - job.res.numCpus * plan.length
  stop : turn.stop = decide (turn.freeSlots ≤ 0)

structure Unsent (m : MbdState) (j : JobId) (job : JobData) (plan : List HostName)
    (first : HostName) (gpus : List GpuId) (text : String) (freeSlots : Int) (turn : Turn) :
    Prop where
  jobs : turn.state.jobs = update m.jobs j (some { plannedJob job plan with gpuAssigned := text })
  hosts : ∀ h, turn.state.hosts h = hostsAssigned first gpus h (m.hosts h)
  others : turn.state = { m with jobs := turn.state.jobs, hosts := turn.state.hosts }
  slots : turn.freeSlots = freeSlots
  goesOn : turn.stop = false

variable {m' : MbdState} {j : JobId} {plan : List HostName} {sendOk : JobId → Bool}
  {freeSlots : Int} {turn : Turn}

theorem scheduleTurn_eq_some {s s' : MbdState × Int} {stop : Bool}
    (turned : scheduleTurn conf now sendOk s j = some (s', stop)) :
    scheduleJob conf now sendOk s.1 j s.2 = some ⟨s'.1, s'.2, stop⟩ := by
  obtain ⟨turn, done, same⟩ := map_eq_some_iff.mp turned
  cases same
  exact done

theorem scheduleLoop_eq_walk : ∀ (l : List JobId) (m : MbdState) (freeSlots : Int),
    scheduleLoop conf now sendOk l m freeSlots =
      (walk (scheduleTurn conf now sendOk) l (m, freeSlots)).map Prod.fst := by
  intro l
  induction l with
  | nil => exact fun _ _ => rfl
  | cons j rest ih =>
    intro m freeSlots
    rw [scheduleLoop, walk, scheduleTurn]
    cases scheduleJob conf now sendOk m j freeSlots with
    | none => rfl
    | some turn =>
      obtain ⟨state, slots, stop⟩ := turn
      cases stop with
      | true => rfl
      | false => exact ih state slots

theorem schedule_cases (done : schedule conf m now sendOk = some m') : (m.pend = [] ∧ m' = m) ∨
    (m.pend ≠ [] ∧ (markCandidates conf m).2 = 0 ∧ m' = (markCandidates conf m).1) ∨
    (Scans conf m ∧ ∃ freeSlots, walk (scheduleTurn conf now sendOk) (cycleOrder conf m)
      (cycleStart conf m) = some (m', freeSlots)) := by
  unfold schedule at done
  split at done
  next empty =>
    cases done
    exact .inl ⟨List.isEmpty_iff.mp empty, rfl⟩
  next some =>
    have waiting : m.pend ≠ [] := fun empty => some (List.isEmpty_iff.mpr empty)
    simp only at done
    split at done
    next none =>
      cases done
      exact .inr (.inl ⟨waiting, none, rfl⟩)
    next some =>
      split at done
      · cases done
      next fits =>
        rw [scheduleLoop_eq_walk] at done
        obtain ⟨⟨_, freeSlots⟩, walked, rfl⟩ := map_eq_some_iff.mp done
        exact .inr (.inr ⟨⟨waiting, some, Nat.not_lt.mp fits⟩, freeSlots, walked⟩)

theorem schedule_eq_walk (scans : Scans conf m) : schedule conf m now sendOk =
    (walk (scheduleTurn conf now sendOk) (cycleOrder conf m) (cycleStart conf m)).map Prod.fst := by
  have some : ¬ m.pend.isEmpty = true := fun empty => scans.waiting (List.isEmpty_iff.mp empty)
  have fits : ¬ schedSortBufMax < (markCandidates conf m).1.pend.length :=
    Nat.not_lt.mpr scans.fits
  rw [schedule, if_neg some]
  simp only [if_neg scans.slots, if_neg fits]
  rw [scheduleLoop_eq_walk]
  rfl

theorem scheduleJob_cases (done : scheduleJob conf now sendOk m j freeSlots = some turn) :
    ∃ job, m.jobs j = some job ∧ ((∃ reason, turn = ⟨notePending m j job reason, freeSlots, false⟩ ∧
        ∀ queue plan, Runnable conf now m job queue → buildHostPlan conf m job queue ≠ some plan) ∨
      ∃ queue plan, Runnable conf now m job queue ∧ buildHostPlan conf m job queue = some plan ∧
        startPlanned conf m now j job queue plan (sendOk j) freeSlots = some turn) := by
  unfold scheduleJob at done
  obtain ⟨job, found, done⟩ := bind_eq_some_iff.mp done
  refine ⟨job, found, ?_⟩
  split at done
  next unready =>
    cases done
    refine .inl ⟨_, rfl, fun queue plan runnable _ => ?_⟩
    rw [runnable.ready] at unready
    cases unready
  next ready =>
    obtain ⟨queue, ofQueue, done⟩ := bind_eq_some_iff.mp done
    have sole : ∀ {q}, Runnable conf now m job q → q = queue := fun runnable =>
      Option.some.inj (runnable.ofQueue.symm.trans ofQueue)
    split at done
    next closed =>
      cases done
      refine .inl ⟨_, rfl, fun q plan runnable _ => ?_⟩
      have opened := runnable.opened
      rw [sole runnable, closed] at opened
      cases opened
    next opened =>
      split at done
      next short =>
        cases done
        refine .inl ⟨_, rfl, fun q plan runnable _ => ?_⟩
        rw [runnable.tokens] at short
        cases short
      next tokens =>
        obtain ⟨satisfied, evaluated, done⟩ := bind_eq_some_iff.mp done
        split at done
        next unmet =>
          cases done
          refine .inl ⟨_, rfl, fun q plan runnable _ => ?_⟩
          rw [Option.some.inj (evaluated.symm.trans runnable.dependency)] at unmet
          cases unmet
        next met =>
          split at done
          next none =>
            cases done
            refine .inl ⟨_, rfl, fun q plan runnable found => ?_⟩
            rw [sole runnable, none] at found
            cases found
          next plan built =>
            refine .inr ⟨queue, plan, ⟨?_, ofQueue, ?_, ?_, ?_⟩, built, done⟩
            · simpa using ready
            · simpa using opened
            · simpa using tokens
            · rw [evaluated]
              simpa using met

theorem assignDevices_cases {m₁ : MbdState} {job₁ : JobData} {first : HostName}
    (found : m.jobs j = some job) (assigned : assignDevices m j job first = some (m₁, job₁)) :
    ∃ gpus text, AssignedOn m job first gpus text ∧ job₁ = { job with gpuAssigned := text } ∧
      (∀ h, m₁.hosts h = hostsAssigned first gpus h (m.hosts h)) ∧
      m₁.jobs = update m.jobs j (some { job with gpuAssigned := text }) ∧
      m₁ = { m with jobs := m₁.jobs, hosts := m₁.hosts } := by
  unfold assignDevices at assigned
  split at assigned
  next asked =>
    obtain ⟨⟨gpus, text⟩, built, same⟩ := bind_eq_some_iff.mp assigned
    cases same
    refine ⟨gpus, text, ?_, rfl, fun h => ?_, rfl, rfl⟩
    · rw [AssignedOn, if_pos asked]
      exact built
    · change update m.hosts first { m.hosts first with gpus := gpus } h = _
      rw [update_apply, hostsAssigned]
      split
      next same => rw [same]
      next => rfl
  next unasked =>
    cases assigned
    refine ⟨(m.hosts first).gpus, job.gpuAssigned, ?_, rfl, fun h => ?_, ?_, rfl⟩
    · rw [AssignedOn, if_neg unasked]
      exact ⟨rfl, rfl⟩
    · unfold hostsAssigned
      split
      next same => rw [same]
      next => rfl
    · exact (update_eq_self_iff.mpr found.symm).symm

theorem startPlanned_cases {ok : Bool} (distinct : plan.Nodup)
    (done : startPlanned conf m now j job queue plan ok freeSlots = some turn) :
    ∃ first gpus text, plan.head? = some first ∧ AssignedOn m job first gpus text ∧
      ((ok = true ∧ StartedOn conf now m j job plan first gpus text freeSlots turn) ∨
        (ok = false ∧ Unsent m j job plan first gpus text freeSlots turn)) := by
  obtain ⟨⟨m₁, outcome⟩, dispatched, done⟩ := bind_eq_some_iff.mp done
  obtain ⟨first, isFirst, dispatched⟩ := bind_eq_some_iff.mp dispatched
  split at dispatched
  · cases dispatched
  · obtain ⟨⟨m₂, job₂⟩, assigned, dispatched⟩ := bind_eq_some_iff.mp dispatched
    have placed : (m.setJob j (plannedJob job plan)).jobs j = some (plannedJob job plan) :=
      update_self ..
    obtain ⟨gpus, text, devices, rfl, hosts, jobs, others⟩ := assignDevices_cases placed assigned
    have hosts : ∀ h, m₂.hosts h = hostsAssigned first gpus h (m.hosts h) := hosts
    refine ⟨first, gpus, text, isFirst, devices, ?_⟩
    have written : m₂.jobs =
        update m.jobs j (some { plannedJob job plan with gpuAssigned := text }) :=
      jobs.trans (update_idem ..)
    cases ok with
    | false =>
      cases dispatched
      cases done
      exact .inr ⟨rfl, written, hosts, others, rfl, rfl⟩
    | true =>
      cases dispatched
      obtain ⟨m₃, charged, done⟩ := bind_eq_some_iff.mp done
      obtain ⟨table, updated, same⟩ := bind_eq_some_iff.mp charged
      cases same
      cases done
      have all : (dispatchedJob job plan text now).hosts = plan := take_length
      obtain ⟨listed, unlisted⟩ := updateEach_spec (all.symm ▸ distinct) updated
      refine .inl ⟨rfl, ?_, ?_, ?_, ?_, fun h => ?_, fun q => ?_, ?_, rfl, rfl⟩
      · change update m₂.jobs j _ = _
        rw [written]
        exact update_idem ..
      · change m₂.pend.erase j = _
        rw [others]
        rfl
      · change m₂.run ++ [j] = _
        rw [others]
        rfl
      · change m₂.finish = _
        rw [others]
        rfl
      · change table h = _
        split
        next member =>
          rw [← hosts h]
          exact (Option.some.inj (listed h (all.symm ▸ member))).symm
        next absent =>
          rw [unlisted h (all.symm ▸ absent)]
          refine (hosts h).trans (if_neg fun same => absent ?_)
          exact same ▸ mem_of_mem_head? isFirst
      · change (update m₂.queues queue _ q).closed = _
        rw [update_apply, others]
        split
        next same => rw [same]; rfl
        next => rfl
      · change changeTokens conf (-1) job.res.tokens m₂.pools = _
        rw [others]
        rfl

/-! ### The hosts of a plan -/

def hostsNeeded (job : JobData) : Int :=
  settledHosts job.res.machines job.res.numHosts

def eligibleHosts (conf : Conf) (m : MbdState) (job : JobData) (queue : QueueName) :
    List HostName :=
  (if job.res.machines.length > 0 then conf.hashOrder job.res.machines else conf.hostNames).filter
    fun h => conf.queueHasHost queue h && hostMeetsRequirements conf m job h

def chosenHosts (conf : Conf) (m : MbdState) (job : JobData) (queue : QueueName) : List HostName :=
  if job.res.machines.length > 0 then eligibleHosts conf m job queue
  else (conf.qsortHosts (hostPlanCmp m) (eligibleHosts conf m job queue)).take
    job.res.numHosts.toNat

/-- The marks of the cycle say which hosts are candidates now. -/
def Marked (m : MbdState) : Prop :=
  ∀ h, (m.hosts h).candidate = isCandidate (m.hosts h)

/-- A host of the queue that is up, has a CPU left and all that the job asks for. -/
structure Accommodates (conf : Conf) (m : MbdState) (job : JobData) (queue : QueueName)
    (h : HostName) : Prop extends Suits job (m.hosts h) where
  member : conf.queueHasHost queue h = true
  connected : 0 ≤ (m.hosts h).sbdChan
  isOk : (m.hosts h).status = ⟨false, false⟩
  cpuLeft : 0 < (m.hosts h).freeCpu
  gpuModel : job.res.gpuModel ≠ "" → 0 < gpuIdsCountFree (m.hosts h).gpus ∧
    job.res.numGpus ≤ gpuIdsCountFree (m.hosts h).gpus ∧
    ∃ hc, conf.findHost h = some hc ∧ hc.gpuModel = job.res.gpuModel

/-- Hosts on which the job could run now, as many as it needs. -/
structure Fits (conf : Conf) (m : MbdState) (job : JobData) (queue : QueueName)
    (hosts : List HostName) : Prop where
  number : (hosts.length : Int) = hostsNeeded job
  distinct : hosts.Nodup
  suitable : ∀ h ∈ hosts, Accommodates conf m job queue h
  named : job.res.machines ≠ [] → hosts.Perm job.res.machines

/-- A job that may be dispatched in this state, and the hosts it is put on. -/
structure SoundPlacement (conf : Conf) (now : Time) (m : MbdState) (job : JobData)
    (queue : QueueName) (plan : List HostName) : Prop extends Fits conf m job queue plan where
  pending : job.state = .pending
  begun : 0 < job.beginTime → job.beginTime ≤ now
  opened : (m.queues queue).closed = false
  dependency : jobDepSatisfied m job = some true
  fewest : job.res.machines = [] → ∀ h ∈ plan, ∀ other, Accommodates conf m job queue other →
    other ∉ plan → (m.hosts h).freeCpu ≤ (m.hosts other).freeCpu

variable {h : HostName}

theorem buildHostPlan_eq (conf : Conf) (m : MbdState) (job : JobData) (queue : QueueName) :
    buildHostPlan conf m job queue =
      if ((eligibleHosts conf m job queue).length : Int) < hostsNeeded job then none
      else if 8192 ≤ hostsLen (chosenHosts conf m job queue) then none
      else some (chosenHosts conf m job queue) := by
  unfold buildHostPlan hostsNeeded settledHosts chosenHosts
  split
  next asked =>
    unfold buildHostPlanMachines eligibleHosts
    simp only [if_pos asked, Int.ofNat_lt]
  next free =>
    unfold eligibleHosts
    simp only [if_neg free]

theorem findHost_of_queueHasHost (member : conf.queueHasHost queue h = true) :
    ∃ hc, conf.findHost h = some hc := by
  unfold Conf.queueHasHost at member
  split at member
  next q found =>
    have listed := conf.queue_hosts q (mem_of_find?_eq_some found) h
      (contains_iff_mem.mp member)
    obtain ⟨hc, known, same⟩ := List.mem_map.mp listed
    apply isSome_iff_exists.mp
    rw [Conf.findHost, find?_isSome]
    exact ⟨hc, known, decide_eq_true same⟩
  next => cases member

theorem mem_hostNames (member : conf.queueHasHost queue h = true) : h ∈ conf.hostNames := by
  obtain ⟨hc, known⟩ := findHost_of_queueHasHost member
  have name : hc.name = h := by simpa using find?_some known
  exact List.mem_map.mpr ⟨hc, mem_of_find?_eq_some known, name⟩

theorem hostHasGpuCount_ne_zero {a : HostData} : hostHasGpuCount a job ≠ 0 ↔
    0 < gpuIdsCountFree a.gpus ∧ job.res.numGpus ≤ gpuIdsCountFree a.gpus := by
  unfold hostHasGpuCount
  split
  next enough => exact ⟨fun some => ⟨Nat.pos_of_ne_zero some, enough⟩, fun both => both.1.ne'⟩
  next short => exact ⟨fun some => absurd rfl some, fun both => absurd both.2 short⟩

theorem hostRefusal_eq_none_iff {hc : HostConf} {a : HostData} :
    hostRefusal hc a job = none ↔ a.candidate = true ∧ Suits job a ∧
      (job.res.gpuModel ≠ "" → hc.gpuModel = job.res.gpuModel ∧ hostHasGpuCount a job ≠ 0) := by
  constructor
  · intro fine
    have suits := suits_of_hostRefusal fine
    unfold hostRefusal at fine
    simp only [ite_eq_right_iff, reduceCtorEq, imp_false, ite_eq_iff, and_false, false_or] at fine
    obtain ⟨candidate, _, _, _, _, _, _, model⟩ := fine
    refine ⟨by simpa using candidate, suits, fun asked => ⟨?_, fun none => ?_⟩⟩
    · by_contra differs
      exact model ⟨asked, .inl differs⟩
    · exact model ⟨asked, .inr none⟩
  · rintro ⟨candidate, suits, model⟩
    unfold hostRefusal
    rw [if_neg, if_neg, if_neg, if_neg, if_neg, if_neg, if_neg, if_neg]
    · rintro ⟨asked, differs | none⟩
      · exact differs (model asked).1
      · exact (model asked).2 none
    · rintro ⟨asked, none⟩
      have enough := suits.gpus asked
      have some : hostHasGpuCount a job ≠ 0 :=
        hostHasGpuCount_ne_zero.mpr ⟨by omega, enough⟩
      exact some none
    · exact Nat.not_lt.mpr suits.storage
    · exact Nat.not_lt.mpr suits.mem
    · exact Int.not_lt.mpr suits.cpus
    · exact fun ⟨exclusive, busy⟩ => Int.not_lt.mpr (suits.alone exclusive) busy
    · rw [suits.shared]
      exact Bool.false_ne_true
    · rw [candidate]
      exact Bool.false_ne_true

theorem isCandidate_iff {a : HostData} : isCandidate a = true ↔
    a.status = ⟨false, false⟩ ∧ 0 ≤ a.sbdChan ∧ 0 < a.freeCpu := by
  obtain ⟨_, _, _, _, ⟨closed, unavail⟩⟩ := a
  simp [isCandidate, and_assoc]

theorem accommodates_iff (marked : Marked m) :
    (conf.queueHasHost queue h && hostMeetsRequirements conf m job h) = true ↔
      Accommodates conf m job queue h := by
  rw [Bool.and_eq_true]
  constructor
  · rintro ⟨member, meets⟩
    obtain ⟨hc, found⟩ := findHost_of_queueHasHost member
    rw [hostMeetsRequirements, found, isNone_iff_eq_none, hostRefusal_eq_none_iff] at meets
    obtain ⟨candidate, suits, model⟩ := meets
    rw [marked h, isCandidate_iff] at candidate
    refine ⟨suits, member, candidate.2.1, candidate.1, candidate.2.2, fun asked => ?_⟩
    obtain ⟨some, enough⟩ := hostHasGpuCount_ne_zero.mp (model asked).2
    exact ⟨some, enough, hc, found, (model asked).1⟩
  · intro fits
    obtain ⟨hc, found⟩ := findHost_of_queueHasHost fits.member
    refine ⟨fits.member, ?_⟩
    rw [hostMeetsRequirements, found, isNone_iff_eq_none, hostRefusal_eq_none_iff]
    refine ⟨?_, fits.toSuits, fun asked => ?_⟩
    · rw [marked h, isCandidate_iff]
      exact ⟨fits.isOk, fits.connected, fits.cpuLeft⟩
    · obtain ⟨some, enough, other, known, same⟩ := fits.gpuModel asked
      cases Option.some.inj (found.symm.trans known)
      exact ⟨same, hostHasGpuCount_ne_zero.mpr ⟨some, enough⟩⟩

theorem eligibleHosts_usable (conf : Conf) (m : MbdState) (queue : QueueName)
    (once : job.res.machines.Nodup) :
    (eligibleHosts conf m job queue).Nodup ∧ ∀ h ∈ eligibleHosts conf m job queue,
        (conf.queueHasHost queue h && hostMeetsRequirements conf m job h) = true := by
  refine ⟨List.Nodup.filter _ ?_, fun h member => (mem_filter.mp member).2⟩
  split
  · exact (conf.hashOrder_perm _).nodup_iff.mpr once
  · exact conf.hosts_nodup

theorem chosenHosts_usable (conf : Conf) (m : MbdState) (queue : QueueName)
    (once : job.res.machines.Nodup) :
    (chosenHosts conf m job queue).Nodup ∧ ∀ h ∈ chosenHosts conf m job queue,
        (conf.queueHasHost queue h && hostMeetsRequirements conf m job h) = true := by
  obtain ⟨distinct, usable⟩ := eligibleHosts_usable conf m queue once
  unfold chosenHosts
  split
  · exact ⟨distinct, usable⟩
  · have order := conf.qsortHosts_perm (hostPlanCmp m) (eligibleHosts conf m job queue)
    have front := take_sublist job.res.numHosts.toNat
      (conf.qsortHosts (hostPlanCmp m) (eligibleHosts conf m job queue))
    exact ⟨front.nodup (order.nodup_iff.mpr distinct),
      fun h member => usable h (order.mem_iff.mp (front.subset member))⟩

theorem buildHostPlan_eq_some (built : buildHostPlan conf m job queue = some plan) :
    plan = chosenHosts conf m job queue ∧
      hostsNeeded job ≤ (eligibleHosts conf m job queue).length := by
  rw [buildHostPlan_eq] at built
  split at built
  · cases built
  next enough =>
    split at built
    · cases built
    · exact ⟨(Option.some.inj built).symm, Int.not_lt.mp enough⟩

theorem eligibleHosts_perm (asked : job.res.machines.length > 0)
    (enough : hostsNeeded job ≤ (eligibleHosts conf m job queue).length) :
    (eligibleHosts conf m job queue).Perm job.res.machines := by
  have order := conf.hashOrder_perm job.res.machines
  unfold hostsNeeded settledHosts at enough
  unfold eligibleHosts at enough ⊢
  rw [if_pos asked] at enough ⊢
  have kept := filter_sublist (p := fun h =>
    conf.queueHasHost queue h && hostMeetsRequirements conf m job h)
    (l := conf.hashOrder job.res.machines)
  rw [kept.eq_of_length_le _]
  · exact order
  · rw [order.length_eq]
    simp only [if_pos asked] at enough
    exact Int.ofNat_le.mp enough

theorem chosenHosts_length (enough : hostsNeeded job ≤ (eligibleHosts conf m job queue).length)
    (needs : 0 < hostsNeeded job) :
    ((chosenHosts conf m job queue).length : Int) = hostsNeeded job := by
  by_cases asked : job.res.machines.length > 0
  · unfold chosenHosts hostsNeeded settledHosts
    rw [if_pos asked, if_pos asked, (eligibleHosts_perm asked enough).length_eq]
  · unfold hostsNeeded settledHosts at enough needs ⊢
    unfold chosenHosts
    rw [if_neg asked] at enough needs ⊢
    rw [length_take, (conf.qsortHosts_perm _ _).length_eq, if_neg asked]
    omega

theorem head_chosenHosts_isSome (enough : hostsNeeded job ≤ (eligibleHosts conf m job queue).length) :
    (chosenHosts conf m job queue).head?.isSome = true ↔ 0 < hostsNeeded job := by
  rw [isSome_head?]
  constructor
  · intro some
    by_contra none
    apply some
    unfold hostsNeeded settledHosts at none
    split at none
    · omega
    next unnamed =>
      unfold chosenHosts
      rw [if_neg unnamed, Int.toNat_of_nonpos (Int.not_lt.mp none), take_zero]
  · intro needs empty
    have length := chosenHosts_length enough needs
    rw [empty] at length
    exact absurd needs (Int.not_lt.mpr (Int.le_of_eq length.symm))

theorem fits_of_plan {first : HostName} (marked : Marked m) (once : job.res.machines.Nodup)
    (built : buildHostPlan conf m job queue = some plan) (isFirst : plan.head? = some first) :
    Fits conf m job queue plan := by
  obtain ⟨rfl, enough⟩ := buildHostPlan_eq_some built
  obtain ⟨distinct, usable⟩ := chosenHosts_usable conf m queue once
  have needs := (head_chosenHosts_isSome enough).mp (isFirst ▸ rfl)
  refine ⟨chosenHosts_length enough needs, distinct,
    fun h member => (accommodates_iff marked).mp (usable h member), fun named => ?_⟩
  have asked := length_pos_of_ne_nil named
  unfold chosenHosts
  rw [if_pos asked]
  exact eligibleHosts_perm asked enough

theorem chosenHosts_fewest {other : HostName} (sorts : Sorts conf.qsortHosts) (marked : Marked m)
    (unnamed : job.res.machines = []) (member : h ∈ chosenHosts conf m job queue)
    (fits : Accommodates conf m job queue other) (left : other ∉ chosenHosts conf m job queue) :
    (m.hosts h).freeCpu ≤ (m.hosts other).freeCpu := by
  have free : ¬ job.res.machines.length > 0 := by
    rw [unnamed]
    exact Nat.lt_irrefl 0
  unfold chosenHosts at member left
  rw [if_neg free] at member left
  have order := conf.qsortHosts_perm (hostPlanCmp m) (eligibleHosts conf m job queue)
  have sorted := sorts (hostPlanCmp m) (eligibleHosts conf m job queue)
    (consistentOn_key (fun h => (m.hosts h).freeCpu) _)
  have listed : other ∈ eligibleHosts conf m job queue := by
    unfold eligibleHosts
    rw [if_neg free]
    exact mem_filter.mpr ⟨mem_hostNames fits.member, (accommodates_iff marked).mpr fits⟩
  have least := le_of_mem_take sorted member (order.mem_iff.mpr listed) left
  unfold hostPlanCmp at least
  omega

/-! ### The marks during a cycle -/

variable {m₁ m₂ : MbdState}

theorem isCandidate_hostsAssigned (first h : HostName) (gpus : List GpuId) (a : HostData) :
    (hostsAssigned first gpus h a).candidate = a.candidate ∧
      isCandidate (hostsAssigned first gpus h a) = isCandidate a := by
  unfold hostsAssigned
  split <;> exact ⟨rfl, rfl⟩

theorem chargeHost_marked {a : HostData} (marked : a.candidate = isCandidate a)
    (candidate : a.candidate = true) :
    (chargeHost job a).candidate = isCandidate (chargeHost job a) := by
  obtain ⟨isOk, connected, _⟩ := isCandidate_iff.mp (marked.symm.trans candidate)
  by_cases exhausted : a.freeCpu - job.res.numCpus ≤ 0
  · have gone : ¬ isCandidate (chargeHost job a) = true := fun still =>
      Int.not_lt.mpr exhausted (isCandidate_iff.mp still).2.2
    rw [Bool.eq_false_iff.mpr gone]
    exact if_pos exhausted
  · have stays : isCandidate (chargeHost job a) = true :=
      isCandidate_iff.mpr ⟨isOk, connected, Int.not_le.mp exhausted⟩
    rw [stays, ← candidate]
    exact if_neg exhausted

theorem NamesOnce.planned (once : NamesOnce m) (found : m.jobs j = some job)
    (built : buildHostPlan conf m job queue = some plan) : plan.Nodup ∧ ∀ h ∈ plan,
      (conf.queueHasHost queue h && hostMeetsRequirements conf m job h) = true := by
  rw [(buildHostPlan_eq_some built).1]
  exact chosenHosts_usable conf m queue (once.machines found)

theorem candidate_of_usable
    (usable : (conf.queueHasHost queue h && hostMeetsRequirements conf m job h) = true) :
    (m.hosts h).candidate = true := by
  have meets := (Bool.and_eq_true_iff.mp usable).2
  unfold hostMeetsRequirements at meets
  split at meets
  · exact (hostRefusal_eq_none_iff.mp (isNone_iff_eq_none.mp meets)).1
  · cases meets

theorem scheduleJob_marked (once : NamesOnce m) (marked : Marked m)
    (done : scheduleJob conf now sendOk m j freeSlots = some turn) : Marked turn.state := by
  obtain ⟨job, found, ⟨reason, rfl, _⟩ | ⟨queue, plan, _, built, started⟩⟩ := scheduleJob_cases done
  · exact marked
  · obtain ⟨distinct, usable⟩ := once.planned found built
    obtain ⟨first, gpus, text, _, _, ⟨_, sent⟩ | ⟨_, unsent⟩⟩ := startPlanned_cases distinct started
    · intro h
      rw [sent.hosts h]
      have assigned := isCandidate_hostsAssigned first h gpus (m.hosts h)
      split
      next member =>
        apply chargeHost_marked
        · rw [assigned.1, assigned.2]
          exact marked h
        · rw [assigned.1]
          exact candidate_of_usable (usable h member)
      next => exact marked h
    · intro h
      have assigned := isCandidate_hostsAssigned first h gpus (m.hosts h)
      rw [unsent.hosts h, assigned.1, assigned.2]
      exact marked h

theorem markCandidates_marked (conf : Conf) (m : MbdState) : Marked (markCandidates conf m).1 :=
  fun _ => rfl

theorem TurnComes.marked (comes : TurnComes conf m now sendOk j m₁ freeSlots)
    (once : NamesOnce m) : NamesOnce m₁ ∧ Marked m₁ := by
  refine comes.2.invariant (fun s => NamesOnce s.1 ∧ Marked s.1)
    (fun {s i s' stop} (_ : True) turned before => ?_) (fun _ _ => trivial)
    ⟨once.congr id rfl (Int.le_refl _), markCandidates_marked conf m⟩
  have done := scheduleTurn_eq_some turned
  exact ⟨(scheduleJob_acts done).naming before.1, scheduleJob_marked before.1 before.2 done⟩

theorem TurnComes.naming {named : JobId → List String → Prop}
    (comes : TurnComes conf m now sendOk j m₁ freeSlots) (naming : JobsNaming named m) :
    JobsNaming named m₁ := by
  refine comes.2.invariant (fun s => JobsNaming named s.1)
    (fun {s i s' stop} (_ : True) turned before => ?_) (fun _ _ => trivial)
    (naming.congr id rfl (Int.le_refl _))
  exact (scheduleJob_acts (scheduleTurn_eq_some turned)).naming before

theorem Dispatches.planned (once : NamesOnce m)
    (dispatches : Dispatches conf m now sendOk j m₁ m₂) :
    ∃ job queue plan text, m₁.jobs j = some job ∧
      m₂.jobs j = some (dispatchedJob job plan text now) ∧ Runnable conf now m₁ job queue ∧
      plan = chosenHosts conf m₁ job queue ∧ Marked m₁ ∧ Fits conf m₁ job queue plan := by
  obtain ⟨freeSlots, turn, comes, done, rfl, joined⟩ := dispatches
  obtain ⟨once, marked⟩ := comes.marked once
  obtain ⟨job, found, ⟨reason, rfl, _⟩ | ⟨queue, plan, runnable, built, started⟩⟩ :=
    scheduleJob_cases done
  · exact absurd rfl joined
  · obtain ⟨distinct, _⟩ := once.planned found built
    obtain ⟨first, gpus, text, isFirst, _, ⟨_, sent⟩ | ⟨_, unsent⟩⟩ :=
      startPlanned_cases distinct started
    · refine ⟨job, queue, plan, text, found, ?_, runnable, (buildHostPlan_eq_some built).1, marked,
        fits_of_plan marked (once.machines found) built isFirst⟩
      rw [sent.jobs, update_self]
    · rw [unsent.others] at joined
      exact absurd rfl joined

theorem Dispatches.sound (sorts : Sorts conf.qsortHosts) (once : NamesOnce m)
    (dispatches : Dispatches conf m now sendOk j m₁ m₂) :
    ∃ job job' queue, m₁.jobs j = some job ∧ m₂.jobs j = some job' ∧ job.queue = some queue ∧
      SoundPlacement conf now m₁ job queue job'.hosts := by
  obtain ⟨job, queue, plan, text, before, after, runnable, rfl, marked, fits⟩ :=
    dispatches.planned once
  refine ⟨job, _, queue, before, after, runnable.ofQueue, ?_⟩
  have whole : (dispatchedJob job (chosenHosts conf m₁ job queue) text now).hosts =
      chosenHosts conf m₁ job queue := take_length
  rw [whole]
  exact
    { fits with
      pending := runnable.pending
      begun := runnable.begun
      opened := runnable.opened
      dependency := runnable.dependency
      fewest := fun unnamed h member other suits left =>
        chosenHosts_fewest sorts marked unnamed member suits left }

/-- The hosts are those a list names, or without a list the eligible ones with the fewest
free CPUs. -/
structure AsListed (conf : Conf) (m : MbdState) (job : JobData) (queue : QueueName) (text : String)
    (hosts : List HostName) : Prop where
  listed : listedMachines conf text ≠ [] → hosts.Perm (listedMachines conf text)
  unlisted : listedMachines conf text = [] → ∀ h ∈ hosts, ∀ other,
    Accommodates conf m job queue other → other ∉ hosts →
      (m.hosts h).freeCpu ≤ (m.hosts other).freeCpu

variable {text : String}

theorem SoundPlacement.asListed (placement : SoundPlacement conf now m job queue plan)
    (same : job.res.machines = machinesHashPopulate conf text) (none : NoneLost conf text) :
    AsListed conf m job queue text plan := by
  have perm := perm_listedMachines_iff.mpr none
  rw [← same] at perm
  refine ⟨fun some => (placement.named fun empty => some ?_).trans perm,
    fun empty => placement.fewest ?_⟩
  · rw [empty] at perm
    exact perm.nil_eq.symm
  · rw [empty] at perm
    exact perm.eq_nil

theorem SoundPlacement.noneLost (placement : SoundPlacement conf now m job queue plan)
    (same : job.res.machines = machinesHashPopulate conf text)
    (some_ : machinesHashPopulate conf text ≠ []) (asListed : AsListed conf m job queue text plan) :
    NoneLost conf text := by
  have listed : listedMachines conf text ≠ [] := by
    obtain ⟨name, member⟩ := exists_mem_of_ne_nil _ some_
    exact ne_nil_of_mem (mem_listedMachines.mpr (.inl member))
  apply perm_listedMachines_iff.mp
  rw [← same] at some_ ⊢
  exact (placement.named some_).symm.trans (asListed.listed listed)

end LavaLite.Mbd
