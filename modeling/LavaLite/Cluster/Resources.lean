import LavaLite.Cluster.Counters
import LavaLite.Cmd.Bsub
import LavaLite.Mbd.Rebuild

/-
The resources of hosts, their devices and the token pools along a run.  A job gives
back the first devices of the table and not its own; a token list that names a pool
twice can take more than the pool has.
-/

namespace LavaLite.Cluster

open Base Batch Mbd Sbd Kernel

def heldOn (m : MbdState) (h : HostName) (amount : JobData → Int) : Int :=
  tally amount ((m.run.filterMap m.jobs).filter fun job => h ∈ job.hosts)

theorem openTally_heldOn {m : MbdState} (listed : Listed m) (h : HostName) (k : HostCounter) :
    openTally m (hostShare h k) = heldOn m h (hostCount · k) := by
  rw [heldOn, tally_filter]
  refine openTally_eq_tally_run listed fun job => ?_
  rw [hostShare, ite_and]
  simp only [decide_eq_true_eq]

/-- What is free on every host and what the running jobs hold of it make up the total. -/
structure Conserved (conf : Conf) (m : MbdState) : Prop where
  cpus : ∀ h, (m.hosts h).freeCpu + heldOn m h (fun job => job.res.numCpus) =
    (conf.hostConf h).totalCpu
  mem : ∀ h, ((m.hosts h).freeMemMb : Int) + heldOn m h (fun job => job.res.memMb) =
    (conf.hostConf h).totalMemMb
  storage : ∀ h, ((m.hosts h).freeStorageMb : Int) + heldOn m h (fun job => job.res.storageMb) =
    (conf.hostConf h).totalStorageMb
  once : m.run.Nodup
  onceOnHost : ∀ j ∈ m.run, ∃ job, m.jobs j = some job ∧ job.hosts.Nodup

variable {conf : Conf} {guard : System → Label → Prop} {s : System}

theorem free_add_heldOn {m : MbdState} {k : HostCounter} {amount : JobData → Int}
    (listed : Listed m) (balanced : HostBalanced conf k m)
    (ask : ∀ job, hostCount job k = -amount job) (h : HostName) :
    (m.hosts h).count k + heldOn m h amount = conf.hostBase h k := by
  have even := balanced h
  have held : heldOn m h (hostCount · k) = -heldOn m h amount := by
    rw [heldOn, heldOn, ← tally_neg]
    exact tally_congr fun job _ => ask job
  rw [openTally_heldOn listed, held] at even
  omega

theorem Reachable.steadyBalanced {k : HostCounter} (reached : Reachable conf (Legibly guard) s)
    (steady : k.steady = true) : HostBalanced conf k s.mbd :=
  reached.hostBalanced anyReport (fun _ => allows_anyReport _ _) (.inl steady)

theorem Reachable.conserved (reached : Reachable conf (Legibly guard) s) : Conserved conf s.mbd := by
  have wf := reached.sound.wf
  have listed := wf.toListed
  exact
    { cpus := free_add_heldOn listed (reached.steadyBalanced rfl) (k := .freeCpu) fun _ => rfl
      mem := free_add_heldOn listed (reached.steadyBalanced rfl) (k := .freeMem) fun _ => rfl
      storage := free_add_heldOn listed (reached.steadyBalanced rfl) (k := .freeStorage)
        fun _ => rfl
      once := wf.distinct .run
      onceOnHost := fun j member => by
        obtain ⟨job, found, on⟩ := (wf.listed .run j).mp member
        exact ⟨job, found, ((wf.job found).running on).hosts_nodup⟩ }

/--
What is free changes by what the jobs that leave the running list held and by
what the jobs that join it ask for.
-/
structure Accounted (m m' : MbdState) : Prop where
  cpus : ∀ h, (m'.hosts h).freeCpu - (m.hosts h).freeCpu =
    heldOn m h (fun job => job.res.numCpus) - heldOn m' h (fun job => job.res.numCpus)
  mem : ∀ h, ((m'.hosts h).freeMemMb : Int) - (m.hosts h).freeMemMb =
    heldOn m h (fun job => job.res.memMb) - heldOn m' h (fun job => job.res.memMb)
  storage : ∀ h, ((m'.hosts h).freeStorageMb : Int) - (m.hosts h).freeStorageMb =
    heldOn m h (fun job => job.res.storageMb) - heldOn m' h (fun job => job.res.storageMb)

theorem Conserved.accounted {m m' : MbdState} (before : Conserved conf m)
    (after : Conserved conf m') : Accounted m m' where
  cpus h := by
    have earlier := before.cpus h
    have later := after.cpus h
    omega
  mem h := by
    have earlier := before.mem h
    have later := after.mem h
    omega
  storage h := by
    have earlier := before.storage h
    have later := after.storage h
    omega

theorem Reachable.cpusCovered (hosts : ∀ h ∈ conf.hosts, 0 ≤ h.totalCpu)
    (asks : ∀ {s label}, guard s label → label.Asks fun ws => 0 ≤ ws.numCpus)
    (reached : Reachable conf (Legibly guard) s) : CpusCovered s.mbd := by
  let covered (m : MbdState) : Prop :=
    EveryJob CpusAsked m ∧ HostBalanced conf .freeCpu m ∧ CpusCovered m
  suffices all : covered s.mbd from all.2.2
  refine Sound.mbd_invariant covered (fun _ => allows_anyReport _ _) ?start
    ?acted ?registered ?restarted (fun held => held) (sound_initial conf) reached
  case start =>
    exact ⟨initial_everyJob conf CpusAsked, initial_hostBalanced conf .freeCpu,
      fun h => Conf.totalCpu_nonneg hosts h⟩
  case acted =>
    intro m m' wf ⟨asked, balanced, free⟩ effect
    exact ⟨effect.everyJob asked, effect.hostBalanced wf balanced (.inl rfl),
      effect.cpusCovered asked free⟩
  case registered =>
    intro s env uid gid request m' may wf ⟨asked, balanced, free⟩ registers
    exact ⟨registers_cpusAsked registers (asks may) asked, registers.hostBalanced wf balanced,
      registers.cpusCovered free⟩
  case restarted =>
    intro s kept m' _ sound ⟨asked, balanced, free⟩ replayed
    have restored := sound.restored replayed
    have again := restart_hostBalanced sound.wf sound.recoverable sound.saved replayed balanced
    exact ⟨restored.cpusAsked asked, again,
      restored.cpusCovered sound.wf.toListed asked balanced again free⟩

theorem Reachable.heldCpus_nonneg
    (asks : ∀ {s label}, guard s label → label.Asks fun ws => 0 ≤ ws.numCpus)
    (reached : Reachable conf (Legibly guard) s) (h : HostName) :
    0 ≤ heldOn s.mbd h fun job => job.res.numCpus := by
  refine tally_nonneg fun job member => ?_
  obtain ⟨j, _, found⟩ := List.mem_filterMap.mp (List.mem_of_mem_filter member)
  exact reached.cpusAsked asks j job found

/--
As long as every restart can read its whole manifest and no job asks for a negative number
of CPUs, the resources of every host are conserved in every state reached, and every step
charges and refunds each job once.  The free CPUs never leave the range of an `int`.
-/
theorem resources_conserved (hosts : ∀ h ∈ conf.hosts, 0 ≤ h.totalCpu ∧ h.totalCpu ≤ intMax)
    (reached : Reachable conf (Legibly fun _ label => label.Asks fun ws => 0 ≤ ws.numCpus) s) :
    Conserved conf s.mbd ∧
      (∀ h, 0 ≤ (s.mbd.hosts h).freeCpu ∧ (s.mbd.hosts h).freeCpu ≤ intMax) ∧
      ∀ label t, (label.Asks fun ws => 0 ≤ ws.numCpus) → label.Rereads s →
        step conf s label = some t → Accounted s.mbd t.mbd := by
  refine ⟨reached.conserved, fun h => ?_, fun label t asks rereads taken => ?_⟩
  · have covered := reached.cpusCovered (fun h member => (hosts h member).1) id h
    have held := reached.heldCpus_nonneg id h
    have even := reached.conserved.cpus h
    have total : (conf.hostConf h).totalCpu ≤ intMax := by
      unfold Conf.hostConf
      cases found : conf.findHost h with
      | none => decide
      | some hc => exact (hosts hc (List.mem_of_find?_eq_some found)).2
    omega
  · have next : Reachable conf (Legibly fun _ label => label.Asks fun ws => 0 ≤ ws.numCpus) t :=
      reached.tail ⟨label, ⟨asks, rereads⟩, taken⟩
    exact reached.conserved.accounted next.conserved

theorem resources_conserved_restarted :
    ∃ s, Reachable smallConf (Legibly fun _ label => label.Asks fun ws => 0 ≤ ws.numCpus) s ∧
      (s.mbd.hosts "h1").freeCpu = 3 ∧ Conserved smallConf s.mbd ∧
      ∀ t, step smallConf s (.mbdRestart fun _ => 0) = some t → Accounted s.mbd t.mbd := by
  obtain ⟨s, executed, three, legible⟩ : ∃ s ∈ runOf smallConf (rereading fun _ _ => true)
      (oneStop ++ [.mbdRestart fun _ => 0]), (s.mbd.hosts "h1").freeCpu = 3 ∧ Legible s.mbd := by
    decide +kernel
  have asks : ∀ label ∈ oneStop ++ [.mbdRestart fun _ => 0],
      label.Asks fun ws => 0 ≤ ws.numCpus := by
    simp [oneStop, join, start, exchange, submitAt, Label.Asks, plainRequest]
  have reached : Reachable smallConf (Legibly fun _ label => label.Asks fun ws => 0 ≤ ws.numCpus) s :=
    steps_of_execute (fun label member _ => legibly_of_rereading fun _ => asks label member)
      executed
  obtain ⟨conserved, _, accounted⟩ := resources_conserved (by decide) reached
  exact ⟨s, reached, three, conserved, fun t => accounted _ t trivial legible⟩

/-- The name of the second job starts the first one twice on a host. -/
def forgedTwice : List Label :=
  [submitAt 1 { plainRequest with numHosts := 2 },
    submitAt 2 { plainRequest with
      name := forgedName "JOB_START 1 1 1 2 1 0 \"\" \"\" \"h1 h1" },
    .mbdRestart fun _ => 0]

theorem resources_not_conserved :
    (runOf smallConf (fun _ _ => true) forgedTwice).map
        (fun s => ((s.mbd.hosts "h1").freeCpu, heldOn s.mbd "h1" fun job => job.res.numCpus)) =
          some (2, 1) ∧
      ¬ ∀ (conf : Conf) (s : System),
        Reachable conf (fun _ label => label.Asks fun ws => ws.numGpus = 0) s →
          Conserved conf s.mbd := by
  refine ⟨by decide +kernel, fun always => ?_⟩
  have asks : ∀ label ∈ forgedTwice, label.Asks fun ws => ws.numGpus = 0 := by
    simp [forgedTwice, submitAt, Label.Asks, plainRequest]
  obtain ⟨s, executed, free, held⟩ : ∃ s ∈ runOf smallConf (fun _ _ => true) forgedTwice,
      (s.mbd.hosts "h1").freeCpu = 2 ∧ (heldOn s.mbd "h1" fun job => job.res.numCpus) = 1 := by
    decide +kernel
  have reached : Reachable smallConf (fun _ label => label.Asks fun ws => ws.numGpus = 0) s :=
    steps_of_execute (fun label member _ _ => asks label member) executed
  have even := (always smallConf s reached).cpus "h1"
  rw [free, held] at even
  exact absurd even (by decide)

/-! ### Bounds -/

def FromBsub (ws : WireJobSubmit) : Prop :=
  ∃ options username, Cmd.bsub options username = .ok ws

/-- The submission was made by bsub, with every `--cpus` value in the range of `int32_t`. -/
def FromBsubInRange (ws : WireJobSubmit) : Prop :=
  ∃ options username, Cmd.bsub options username = .ok ws ∧ Cmd.CpusFit options

/-- No host is oversubscribed. -/
structure WithinTotals (conf : Conf) (m : MbdState) : Prop where
  cpus : ∀ h, 0 ≤ (m.hosts h).freeCpu ∧ (m.hosts h).freeCpu ≤ (conf.hostConf h).totalCpu
  mem : ∀ h, 0 ≤ (m.hosts h).freeMemMb ∧ (m.hosts h).freeMemMb ≤ (conf.hostConf h).totalMemMb
  storage : ∀ h, 0 ≤ (m.hosts h).freeStorageMb ∧
    (m.hosts h).freeStorageMb ≤ (conf.hostConf h).totalStorageMb

/--
On hosts with a sensible number of CPUs, no submission of bsub oversubscribes a
host as long as no `--cpus` value is cut to 32 bits.
-/
theorem hosts_within_totals (hosts : ∀ h ∈ conf.hosts, 0 ≤ h.totalCpu)
    (reached : Reachable conf (Legibly fun _ label => label.Asks FromBsubInRange) s) :
    WithinTotals conf s.mbd := by
  have asks : ∀ {label : Label}, label.Asks FromBsubInRange →
      label.Asks fun ws => 0 ≤ ws.numCpus := by
    intro label sent
    cases label with
    | submit env uid gid request =>
      obtain ⟨options, username, sent, fits⟩ := sent
      exact Int.le_trans (by decide) (Cmd.bsub_numCpus fits sent)
    | _ => trivial
  have listed := reached.sound.wf.toListed
  have covered := reached.cpusCovered hosts asks
  exact
    { cpus := fun h => by
        have even := reached.conserved.cpus h
        have held := reached.heldCpus_nonneg asks h
        exact ⟨covered h, by omega⟩
      mem := fun h => ⟨Nat.zero_le _, divisible_mem.free_le listed (reached.steadyBalanced rfl)⟩
      storage := fun h =>
        ⟨Nat.zero_le _, divisible_storage.free_le listed (reached.steadyBalanced rfl)⟩ }

/-- What `bsub` sends without options, and with `--cpus 4294967295`. -/
def defaultRequest : WireJobSubmit :=
  { plainRequest with memMb := 0 }

def cutRequest : WireJobSubmit :=
  { defaultRequest with numCpus := -1 }

theorem hosts_within_totals_default :
    Cmd.bsub [] "user" = .ok defaultRequest ∧
      ∃ s, Reachable smallConf (Legibly fun _ label => label.Asks FromBsubInRange) s ∧
        (s.mbd.hosts "h1").freeCpu = 3 ∧ WithinTotals smallConf s.mbd := by
  have sent : Cmd.bsub [] "user" = .ok defaultRequest := by decide +kernel
  obtain ⟨s, executed, three⟩ : ∃ s ∈ runOf smallConf (rereading fun _ _ => true)
      (join "h1" 5 ++ [submitAt 1 defaultRequest, .timer 2 fun _ => true]),
        (s.mbd.hosts "h1").freeCpu = 3 := by decide +kernel
  have asks : ∀ label ∈ join "h1" 5 ++ [submitAt 1 defaultRequest, .timer 2 fun _ => true],
      label.Asks FromBsubInRange := by
    have inRange : FromBsubInRange defaultRequest := ⟨[], "user", sent, nofun⟩
    simpa [join, submitAt, Label.Asks] using inRange
  have reached : Reachable smallConf (Legibly fun _ label => label.Asks FromBsubInRange) s :=
    steps_of_execute (fun label member _ => legibly_of_rereading fun _ => asks label member)
      executed
  exact ⟨sent, s, reached, three, hosts_within_totals (by decide) reached⟩

theorem hosts_not_within_totals :
    Cmd.bsub [.cpus "4294967295"] "user" = .ok cutRequest ∧ (runOf smallConf (fun _ _ => true)
        (join "h1" 5 ++ [submitAt 1 cutRequest, .timer 2 fun _ => true])).map
          (fun s => (s.mbd.hosts "h1").freeCpu) = some 5 ∧
      ¬ ∀ (conf : Conf) (s : System), (∀ h ∈ conf.hosts, 0 ≤ h.totalCpu) →
        Reachable conf (fun _ label => label.Asks FromBsub) s → WithinTotals conf s.mbd := by
  have sent : Cmd.bsub [.cpus "4294967295"] "user" = .ok cutRequest := by decide +kernel
  have asks : ∀ label ∈ join "h1" 5 ++ [submitAt 1 cutRequest, .timer 2 fun _ => true],
      label.Asks FromBsub := by
    have fromBsub : FromBsub cutRequest := ⟨_, _, sent⟩
    simpa [join, submitAt, Label.Asks] using fromBsub
  refine ⟨sent, by decide +kernel, fun always => ?_⟩
  obtain ⟨s, executed, five⟩ : ∃ s ∈ runOf smallConf (fun _ _ => true)
      (join "h1" 5 ++ [submitAt 1 cutRequest, .timer 2 fun _ => true]),
        (s.mbd.hosts "h1").freeCpu = 5 := by decide +kernel
  have reached : Reachable smallConf (fun _ label => label.Asks FromBsub) s :=
    steps_of_execute (fun label member _ _ => asks label member) executed
  have bounded := ((always smallConf s (by decide) reached).cpus "h1").2
  rw [five] at bounded
  exact absurd bounded (by decide)

/-! ### Devices -/

/--
No restart, GPU jobs on one host each, every message of a dispatch can be queued,
and a GPU job that ends holds the first devices of its host.
-/
def firstDevicesEnd (conf : Conf) (s : System) (label : Label) : Prop :=
  Allows deviceReports s label ∧ label.NoRestart ∧ label.Asks (OneHostForGpus conf)

theorem initial_deviceState (conf : Conf) : DeviceState conf (initial conf).mbd where
  table h := by
    have start : ((initial conf).mbd.hosts h).gpus =
      (conf.hostConf h).gpuIds.map fun id => { id := id, inUse := false } := rfl
    rw [start, List.map_map]
    exact List.map_id _
  used h g member := by
    have start : ((initial conf).mbd.hosts h).gpus =
      (conf.hostConf h).gpuIds.map fun id => { id := id, inUse := false } := rfl
    rw [start] at member
    obtain ⟨id, _, rfl⟩ := List.mem_map.mp member
    exact ⟨nofun, fun ⟨_, job, found, _⟩ => absurd found (Option.some_ne_none job).symm⟩
  apart := fun ⟨job, found, _⟩ => absurd found (Option.some_ne_none job).symm
  job _ job found := absurd found (Option.some_ne_none job).symm

theorem Reachable.deviceState (proper : DistinctDevices conf)
    (reached : Reachable conf (Legibly (firstDevicesEnd conf)) s) : DeviceState conf s.mbd :=
  Sound.mbd_invariant (DeviceState conf) And.left (initial_deviceState conf)
    (fun wf state effect => effect.deviceState proper wf state)
    (fun may _ state registers => registers.deviceState may.2.2 state)
    (fun may => absurd may.2.1 id) (fun state => state.of_same rfl fun _ => rfl)
    (sound_initial conf) reached

/--
Under these conditions, in every state reached the marked devices of every host
are the disjoint union of the devices of the running jobs there, every running
job that may end gives back exactly its own devices, and every host that will do
for a job has the devices for it.
-/
theorem devices_exact (proper : DistinctDevices conf)
    (reached : Reachable conf (firstDevicesEnd conf) s) :
    DevicesExact conf s.mbd ∧ (∀ j ∈ s.mbd.run, ∃ job, s.mbd.jobs j = some job ∧
        ((0 < job.res.numGpus → FirstDevices s.mbd job) → ReleasesOwn s.mbd job)) ∧
      ∀ job h, hostMeetsRequirements conf s.mbd job h = true → 0 < job.res.numGpus →
        (buildGpuAssignedStr (s.mbd.hosts h).gpus job.res.numGpus).isSome = true := by
  have reached := reached.legibly fun _ _ may => may.2.1
  have wf := reached.sound.wf
  have state := reached.deviceState proper
  refine ⟨state.toDevicesExact, fun j member => ?_, fun job h meets asked => ?_⟩
  · obtain ⟨job, found, running⟩ := (wf.listed .run j).mp member
    exact ⟨job, found, state.releasesOwn proper found ((wf.job found).running running) running⟩
  · have distinct : ((s.mbd.hosts h).gpus.map GpuId.id).Nodup := by
      rw [state.table]
      exact proper.nodup h
    obtain ⟨marked, ids, built, _⟩ :=
      buildGpuAssignedStr_spec distinct ((suits_of_meets meets).gpus asked)
    rw [built]
    rfl

def gpuRequest : WireJobSubmit :=
  { plainRequest with numGpus := 1 }

def oneGpuJob : List Label :=
  join "h1" 5 ++ [submitAt 1 gpuRequest, .timer 2 fun _ => true] ++ start "h1" 3 77 ++
    [.jobExit "h1" 1 0, .reportFinish "h1" 1, .mbdRead "h1" 4 true]

def twoGpuJobs : List Label :=
  join "h1" 5 ++ [submitAt 1 gpuRequest, submitAt 1 gpuRequest, .timer 2 fun _ => true,
      .sbdRead "h1" (.started 77) true, .sbdRead "h1" (.started 78) true, .mbdRead "h1" 3 true,
      .mbdRead "h1" 3 true, .sbdRead "h1" .failed true, .sbdRead "h1" .failed true,
      .jobExit "h1" 2 0, .reportFinish "h1" 2, .mbdRead "h1" 4 true]

def deviceView (s : System) : List GpuId × List JobId × Option String :=
  ((s.mbd.hosts "h1").gpus, s.mbd.run, (s.mbd.jobs 1).map JobData.gpuAssigned)

theorem devices_exact_oneGpuJob :
    ∃ s, Reachable smallConf (firstDevicesEnd smallConf) s ∧
      deviceView s = ([⟨0, false⟩, ⟨1, false⟩], [], some "0") ∧ DevicesExact smallConf s.mbd := by
  obtain ⟨s, executed, view⟩ : ∃ s ∈ runOf smallConf (mayRead deviceReports) oneGpuJob,
      deviceView s = ([⟨0, false⟩, ⟨1, false⟩], [], some "0") := by decide +kernel
  have settled : OneHostForGpus smallConf gpuRequest := fun _ => by decide +kernel
  have plain : ∀ label ∈ oneGpuJob,
      label.Sends ∧ label.NoRestart ∧ label.Asks (OneHostForGpus smallConf) := by
    simpa [oneGpuJob, join, start, submitAt, Label.Sends, Label.NoRestart, Label.Asks] using settled
  have reached : Reachable smallConf (firstDevicesEnd smallConf) s :=
    steps_of_execute (fun label member _ checked =>
      ⟨allows_of_mayRead (.inl (plain label member).1) checked, (plain label member).2⟩) executed
  exact ⟨s, reached, view, (devices_exact (by decide) reached).1⟩

theorem devices_not_exact :
    (runOf smallConf (fun _ _ => true) twoGpuJobs).map deviceView =
        some ([⟨0, false⟩, ⟨1, true⟩], [1], some "0") ∧
      ¬ ∀ (conf : Conf) (s : System), (∀ hc ∈ conf.hosts, hc.gpuIds.Nodup) →
        Reachable conf (fun _ label => label.NoRestart) s → DevicesExact conf s.mbd := by
  have plain : ∀ label ∈ twoGpuJobs, label.NoRestart := by
    simp [twoGpuJobs, join, submitAt, Label.NoRestart]
  refine ⟨by decide +kernel, fun always => ?_⟩
  -- device 1 is still marked, but the only job that runs was assigned device 0
  obtain ⟨s, executed, marked, run, assigned⟩ :
      ∃ s ∈ runOf smallConf (fun _ _ => true) twoGpuJobs,
        ⟨1, true⟩ ∈ (s.mbd.hosts "h1").gpus ∧ s.mbd.run = [1] ∧
          ∀ job ∈ s.mbd.jobs 1, ¬ Names job 1 := by
    unfold Names
    decide +kernel
  have reached : Reachable smallConf (fun _ label => label.NoRestart) s :=
    steps_of_execute (fun label member _ _ => plain label member) executed
  have exact_ := always smallConf s (by decide) reached
  obtain ⟨j, holder, at', running, _, names⟩ := (exact_.used "h1" _ marked).mp rfl
  have member : j ∈ s.mbd.run := ((reached.legibly fun _ _ may => may).sound.wf.listed .run j).mpr ⟨holder, at', running⟩
  rw [run] at member
  obtain rfl := List.mem_singleton.mp member
  exact assigned holder at' names

/-! ### Token pools -/

open List

def heldTokens (m : MbdState) (p : PoolName) : Int :=
  tally (fun job => tokensOf p job.res.tokens) (m.run.filterMap m.jobs)

/-- What a pool has free and what is taken from it make up its total. -/
structure PoolConserved (conf : Conf) (m : MbdState) (p : PoolName) : Prop where
  covered : 0 ≤ m.pools p
  bounded : m.pools p ≤ conf.poolTotal p
  conserved : m.pools p + heldTokens m p = conf.poolTotal p

/-- No restart, and no submission that names a pool twice. -/
def poolsNamedOnce (_ : System) (label : Label) : Prop :=
  label.NoRestart ∧ label.Asks fun ws => (poolNames ws.tokenpool).Nodup

theorem openTally_heldTokens {m : MbdState} (listed : Listed m) (p : PoolName) :
    openTally m (tokenShare p) = heldTokens m p :=
  openTally_eq_tally_run listed fun _ => rfl

theorem initial_tokensBalanced (conf : Conf) : TokensBalanced conf (initial conf).mbd := by
  intro p known
  have empty : openTally (initial conf).mbd (tokenShare p) = 0 := rfl
  rw [empty, Int.add_zero]
  rfl

theorem initial_tokensCovered (conf : Conf) : TokensCovered conf (initial conf).mbd := by
  intro p known
  have start : (initial conf).mbd.pools p = conf.poolTotal p := rfl
  rw [start, Conf.poolTotal]
  obtain ⟨pc, found⟩ := Option.isSome_iff_exists.mp known
  rw [found]
  exact Int.le_of_lt pc.positive

theorem Reachable.tokensPositive (noRestart : ∀ {s label}, guard s label → label.NoRestart)
    (reached : Reachable conf (Legibly guard) s) : EveryJob TokensPositive s.mbd :=
  Sound.mbd_invariant (EveryJob TokensPositive) (fun _ => allows_anyReport _ _)
    (initial_everyJob conf TokensPositive) (fun _ each effect => effect.everyJob each)
    (fun _ _ each registers => registers.everyJob (fun commit => commit.prepared.tokensPositive) each)
    (fun may => absurd (noRestart may) id) (fun each => each) (sound_initial conf) reached

theorem Reachable.tokensBalanced (reached : Reachable conf (Legibly guard) s) :
    TokensBalanced conf s.mbd :=
  Sound.mbd_invariant (TokensBalanced conf) (fun _ => allows_anyReport _ _)
    (initial_tokensBalanced conf) (fun wf balanced effect => effect.tokensBalanced wf balanced)
    (fun _ wf balanced registers => registers.tokensBalanced wf balanced)
    (fun _ sound _ => restart_tokensBalanced sound.wf sound.recoverable sound.saved)
    (fun balanced => balanced) (sound_initial conf) reached

theorem Reachable.tokensCovered (reached : Reachable conf (Legibly poolsNamedOnce) s) :
    TokensCovered conf s.mbd := by
  let covered (m : MbdState) : Prop :=
    EveryJob TokensPositive m ∧ EveryJob TokensDistinct m ∧ TokensCovered conf m
  suffices all : covered s.mbd from all.2.2
  refine Sound.mbd_invariant covered (fun _ => allows_anyReport _ _) ?start ?acted
    ?registered (fun may => absurd may.1 id) (fun held => held) (sound_initial conf) reached
  case start =>
    exact ⟨initial_everyJob conf _, initial_everyJob conf _, initial_tokensCovered conf⟩
  case acted =>
    intro m m' _ ⟨positive, distinct, free⟩ effect
    exact ⟨effect.everyJob positive, effect.everyJob distinct,
      effect.tokensCovered positive distinct free⟩
  case registered =>
    intro s env uid gid request m' may _ ⟨positive, distinct, free⟩ registers
    exact ⟨registers.everyJob (fun commit => commit.prepared.tokensPositive) positive,
      registers.everyJob (fun commit => commit.prepared.tokensDistinct may.2) distinct,
      registers.tokensCovered free⟩

/--
In a run without a restart whose submissions name each pool once at most, no pool
goes below zero and no token is lost or made.
-/
theorem pools_conserved (reached : Reachable conf poolsNamedOnce s) {p : PoolName}
    (known : (conf.findPool p).isSome = true) : PoolConserved conf s.mbd p := by
  have reached := reached.legibly fun _ _ may => may.1
  have listed := reached.sound.wf.toListed
  have balanced := reached.tokensBalanced
  exact
    { covered := reached.tokensCovered p known
      bounded := balanced.le_total listed (reached.tokensPositive And.left) known
      conserved := openTally_heldTokens listed p ▸ balanced p known }

/-- What `bsub --tokens lic=3` sends, and the same with the option given twice. -/
def tokenRequest : WireJobSubmit :=
  { plainRequest with memMb := 0, tokenpool := "lic=3" }

def twiceRequest : WireJobSubmit :=
  { plainRequest with memMb := 0, tokenpool := "lic=3,lic=3" }

theorem pools_conserved_once :
    Cmd.bsub [.tokens "lic=3"] "user" = .ok tokenRequest ∧
      ∃ s, Reachable smallConf poolsNamedOnce s ∧ s.mbd.pools "lic" = 1 ∧
        PoolConserved smallConf s.mbd "lic" := by
  obtain ⟨s, executed, one⟩ : ∃ s ∈ runOf smallConf (fun _ _ => true)
      (join "h1" 5 ++ [submitAt 1 tokenRequest, .timer 2 fun _ => true]),
        s.mbd.pools "lic" = 1 := by decide +kernel
  have once : (poolNames tokenRequest.tokenpool).Nodup := by decide +kernel
  have allowed : ∀ label ∈ join "h1" 5 ++ [submitAt 1 tokenRequest, .timer 2 fun _ => true],
      label.NoRestart ∧ label.Asks fun ws => (poolNames ws.tokenpool).Nodup := by
    simpa [join, submitAt, Label.Asks, Label.NoRestart] using once
  have reached : Reachable smallConf poolsNamedOnce s :=
    steps_of_execute (fun label member _ _ => allowed label member) executed
  exact ⟨by decide +kernel, s, reached, one, pools_conserved reached rfl⟩

theorem pools_not_conserved :
    Cmd.bsub [.tokens "lic=3", .tokens "lic=3"] "user" = .ok twiceRequest ∧
      (runOf smallConf (fun _ _ => true)
        (join "h1" 5 ++ [submitAt 1 twiceRequest, .timer 2 fun _ => true])).map
          (fun s => s.mbd.pools "lic") = some (-2) ∧
      ¬ ∀ (conf : Conf) (s : System), Reachable conf (fun _ label => label.NoRestart) s →
        ∀ p, (conf.findPool p).isSome = true → PoolConserved conf s.mbd p := by
  have allowed : ∀ label ∈ join "h1" 5 ++ [submitAt 1 twiceRequest, .timer 2 fun _ => true],
      label.NoRestart := by
    simp [join, submitAt, Label.NoRestart]
  refine ⟨by decide +kernel, by decide +kernel, fun always => ?_⟩
  obtain ⟨s, executed, below⟩ : ∃ s ∈ runOf smallConf (fun _ _ => true)
      (join "h1" 5 ++ [submitAt 1 twiceRequest, .timer 2 fun _ => true]),
        s.mbd.pools "lic" < 0 := by decide +kernel
  have reached : Reachable smallConf (fun _ label => label.NoRestart) s :=
    steps_of_execute (fun label member _ _ => allowed label member) executed
  exact absurd (always smallConf s reached "lic" rfl).covered (Int.not_le.mpr below)

/-! ### Token specifications -/

/--
A text that fits the wire field is read as the language of token specifications says
exactly when it is in the language, or one of its fields is turned down.
-/
theorem readAsSpecified_iff {conf : Conf} {text : String} (fits : text.toList.length < 256) :
    ReadAsSpecified conf text ↔ (∃ tokens, TokenSpec conf text.toList tokens) ∨
      ∃ field ∈ tokenFields text, RefusedField conf field := by
  constructor
  · intro specified
    by_contra neither
    obtain ⟨outside, fine⟩ := not_or.mp neither
    have passes : ∀ field ∈ tokenFields text, ¬RefusedField conf field :=
      fun field member refused => fine ⟨field, member, refused⟩
    obtain ⟨tokens, read⟩ := parseTokens_of_not_refused passes
    rw [← jobParseTokens_eq fits] at read
    exact outside ⟨tokens, (specified _ tokens).mp read⟩
  · intro either junk tokens
    refine ⟨fun read => ?_, fun spec => spec.parsed fits junk⟩
    rcases either with ⟨other, spec⟩ | ⟨field, member, refused⟩
    · have same := spec.parsed fits junk
      rw [read] at same
      cases same
      exact spec
    · obtain ⟨e, stops⟩ := parseTokens_refused junk member refused
      rw [jobParseTokens_eq fits, stops] at read
      cases read

theorem readAsSpecified_iff_lic : ReadAsSpecified smallConf "lic=2" := by
  have short : "lic=2".toList.length < 256 := by decide
  have digits : IsDigits ['2'] := ⟨cons_ne_nil _ _, forall_mem_singleton.mpr rfl⟩
  have item : IsItem smallConf (['l', 'i', 'c'] ++ '=' :: ['2']) ⟨"lic", 2⟩ :=
    .mk (by decide) (.plain digits) (by decide) (by decide) rfl
  refine (readAsSpecified_iff short).mpr (.inl ⟨[⟨"lic", 2⟩], .inr ⟨["lic=2".toList], ?_⟩⟩)
  exact ⟨cons_ne_nil _ _, by decide, rfl, .cons item .nil⟩

theorem looseSpecs_accepted :
    jobParseTokens smallConf (fun _ => 7) "lic=x" = .ok [⟨"lic", 7⟩] ∧
      (∀ tokens, ¬TokenSpec smallConf "lic=x".toList tokens) ∧
      jobParseTokens smallConf (fun _ => 0) ",lic=1" = .ok [⟨"lic", 1⟩] ∧
      ∀ tokens, ¬TokenSpec smallConf ",lic=1".toList tokens := by
  refine ⟨by decide +kernel, fun tokens spec => ?_, by decide +kernel, fun tokens spec => ?_⟩
  · have read := spec.parsed (by decide) fun _ => 0
    have refused : jobParseTokens smallConf (fun _ => 0) "lic=x" = .error .einval := by decide +kernel
    rw [refused] at read
    cases read
  · rcases spec with ⟨empty, _⟩ | ⟨fields, filled, plain, joined, items⟩
    · cases empty
    · cases fields with
      | nil => exact filled rfl
      | cons first rest =>
        have nonempty := items_ne_nil items first mem_cons_self
        obtain ⟨c, field, rfl⟩ := exists_cons_of_ne_nil nonempty
        have begins : ([','].intercalate ((c :: field) :: rest)).head? = some c := by
          cases rest with
          | nil =>
            rw [intercalate_singleton]
            rfl
          | cons next rest =>
            rw [intercalate_cons_cons]
            rfl
        have comma : some ',' = some c := (congrArg List.head? joined).trans begins
        apply plain _ mem_cons_self
        rw [Option.some.inj comma]
        exact mem_cons_self

end LavaLite.Cluster
