import LavaLite.Mbd.Dispatch
import LavaLite.Cluster.Handlers
import LavaLite.Cluster.Soundness
import LavaLite.Mbd.Order

/-
The scheduling cycles of a run: where they put the jobs, what they leave waiting, in which
order they take them, and the dispatches that fail.  No assumption is made on the run.
-/

namespace LavaLite.Cluster

open Base Batch Mbd Sbd Kernel List

variable {conf : Conf} {s s' : System} {label : Label}

variable {named : JobId → List String → Prop}

theorem step_naming (taken : step conf s label = some s') (naming : JobsNaming named s.mbd)
    (submits : ∀ {env uid gid request j}, label = .submit env uid gid request →
      s.mbd.jobIdSeq < j → named j (machinesHashPopulate conf request.machines))
    (restarts : ∀ {kept e j}, label = .mbdRestart kept →
      .jobNew e ∈ readManifest (manifestText s.mbd.manifest) → e.jobId = j →
        named j (machinesHashPopulate conf e.machines)) : JobsNaming named s'.mbd := by
  obtain ⟨m, handles, outbox, same⟩ := step_handles taken
  have after : JobsNaming named m := by
    cases handles with
    | submit done => exact jobRegister_naming naming (submits rfl) done
    | signal done => exact jobsSignal_naming naming done
    | move done => exact (jobMove_acts done).naming naming
    | priority done => exact (jobPriority_acts done).naming naming
    | timer done =>
      obtain ⟨m₁, scheduled, rebuilt⟩ := Option.bind_eq_some_iff.mp done
      exact maybeRebuildManifest_naming (schedule_naming naming scheduled) rebuilt
    | read head done => exact (mbdHandle_acts done).naming naming
    | restart done => exact replayRecords_naming naming.saved.1 (restarts rfl) done
    | other touches => exact (touches 0).naming naming
  rw [same]
  exact after.congr id rfl (Int.le_refl _)

theorem Reachable.namesOnce (reach : Reachable conf anyStep s) : NamesOnce s.mbd := by
  refine reach.invariant (fun s => NamesOnce s.mbd) ?_ fun once _ taken =>
    step_naming taken once (fun _ _ => nodup_machinesHashPopulate conf _)
      fun _ _ _ => nodup_machinesHashPopulate conf _
  have empty : ∀ {j job}, (initial conf).mbd.jobs j = some job → False := nofun
  exact ⟨⟨fun found => (empty found).elim, Int.le_refl 0, Int.le_refl 0⟩,
    fun found => (empty found).elim, fun found => (empty found).elim⟩

/--
The machine list of a job in a run: that of its submission, and from a restart on that of
the records the restart has read.
-/
inductive Lists (conf : Conf) (j : JobId) : System → String → Prop where
  | submitted {s s' : System} {env : SubmitEnv} {uid gid : Nat} {request : WireJobSubmit}
      (reach : Reachable conf anyStep s) (fresh : s.mbd.jobs j = none)
      (taken : step conf s (.submit env uid gid request) = some s')
      (created : (s'.mbd.jobs j).isSome = true) : Lists conf j s' request.machines
  | replayed {s s' : System} {kept : HostName → Nat} {text : String}
      (reach : Reachable conf anyStep s) (taken : step conf s (.mbdRestart kept) = some s')
      (told : ∀ e, .jobNew e ∈ readManifest (manifestText s.mbd.manifest) → e.jobId = j →
        e.machines = text) (restored : (s'.mbd.jobs j).isSome = true) : Lists conf j s' text
  | later {s s' : System} {label : Label} {text : String} (before : Lists conf j s text)
      (noRestart : label.NoRestart) (taken : step conf s label = some s')
      (stays : (s'.mbd.jobs j).isSome = true) : Lists conf j s' text

variable {j : JobId} {text : String}

theorem Lists.naming (lists : Lists conf j s text) : (s.mbd.jobs j).isSome = true ∧
    JobsNaming (fun i names => i = j → names = machinesHashPopulate conf text) s.mbd := by
  induction lists with
  | submitted reach fresh taken created =>
    have once := reach.namesOnce
    refine ⟨created, step_naming taken ⟨once.toIdsCounted, once.keyed, fun found same => ?_⟩
      (fun same _ _ => ?_) fun other => nomatch other⟩
    · rw [same, fresh] at found
      cases found
    · cases same
      rfl
  | replayed reach taken told restored =>
    obtain ⟨m, done, rfl⟩ := Option.map_eq_some_iff.mp taken
    refine ⟨restored, replayRecords_naming reach.namesOnce.saved.1 (fun member mine same => ?_) done⟩
    rw [told _ member (mine.trans same)]
  | later _ noRestart taken stays ih =>
    refine ⟨stays, step_naming taken ih.2 (fun _ new same => ?_) fun other => ?_⟩
    · obtain ⟨job, found⟩ := Option.isSome_iff_exists.mp ih.1
      exact absurd (same ▸ ih.2.ids found) (Int.not_le.mpr new)
    · rw [other] at noRestart
      exact noRestart.elim

theorem dispatches_head {m : MbdState} {now : Time} {sendOk : JobId → Bool} {j : JobId}
    {turn : Turn} (scans : Scans conf m) (head : (cycleOrder conf m).head? = some j)
    (done : scheduleJob conf now sendOk (cycleStart conf m).1 j (cycleStart conf m).2 = some turn)
    (joined : turn.state.run ≠ (cycleStart conf m).1.run) :
    Dispatches conf m now sendOk j (cycleStart conf m).1 turn.state := by
  obtain ⟨rest, order⟩ := head?_eq_some_iff.mp head
  refine ⟨_, turn, ⟨scans, ?_⟩, done, rfl, joined⟩
  rw [order]
  exact .here

/-- The small cluster with its first host as a group. -/
def groupedConf : Conf :=
  { smallConf with groups := [⟨"g1", ["h1"]⟩] }

def withMachines (machines : String) : WireJobSubmit :=
  { plainRequest with machines := machines }

/-- Both hosts are up and a job with a machine list has its turn: the hosts it gets. -/
structure PlacedOn (machines : String) (hosts : List HostName) (s : System) (m₁ m₂ : MbdState) :
    Prop where
  reach : Reachable groupedConf anyStep s
  lists : Lists groupedConf 1 s machines
  dispatches : Dispatches groupedConf s.mbd 2 (fun _ => true) 1 m₁ m₂
  placed : ∃ job ∈ m₂.jobs 1, job.hosts = hosts

theorem placedOn_of_run {machines : String} {hosts : List HostName}
    (found : ∃ before ∈ runOf groupedConf (fun _ _ => true) (join "h1" 5 ++ join "h2" 6),
      (before.mbd.jobs 1).isNone = true ∧
        ∃ s ∈ step groupedConf before (submitAt 1 (withMachines machines)),
          (s.mbd.jobs 1).isSome = true ∧ s.mbd.pend ≠ [] ∧ (markCandidates groupedConf s.mbd).2 ≠ 0 ∧
          s.mbd.pend.length ≤ schedSortBufMax ∧ (cycleOrder groupedConf s.mbd).head? = some 1 ∧
          ∃ turn ∈ scheduleJob groupedConf 2 (fun _ => true) (cycleStart groupedConf s.mbd).1 1
            (cycleStart groupedConf s.mbd).2, turn.state.run ≠ (cycleStart groupedConf s.mbd).1.run ∧
              ∃ job ∈ turn.state.jobs 1, job.hosts = hosts) :
    ∃ s m₁ m₂, PlacedOn machines hosts s m₁ m₂ := by
  obtain ⟨before, ran, fresh, s, taken, created, waiting, slots, fits, head, turn, done, joined,
    placed⟩ := found
  have reach := reachable_of_runOf ran
  exact ⟨s, _, _, .tail reach ⟨_, trivial, taken⟩,
    .submitted reach (Option.isNone_iff_eq_none.mp fresh) taken created,
    dispatches_head ⟨waiting, slots, fits⟩ head done joined, placed⟩

/--
After a cycle in which no dispatch failed and no plan was refused for its text, no job is
left waiting that could be dispatched, provided each waiting job needs a host at all.  To
stop when no slot is left comes to the same as to take every pending job.
-/
theorem cycle_conserves {conf : Conf} {s : System} (reach : Reachable conf anyStep s) {now : Time}
    {sendOk : JobId → Bool} {m' : MbdState} (positive : PendingAsk NonNegative s.mbd)
    (hosted : PendingAsk AsksHost s.mbd) (fine : NothingFails conf s.mbd now sendOk)
    (done : schedule conf s.mbd now sendOk = some m') :
    (∀ j ∈ m'.pend, ¬ Dispatchable conf now m' j) ∧
      (∀ m'', scheduleAll conf s.mbd now sendOk = some m'' → AlikeButReasons m' m'') ∧
      (Readable s.mbd.pend s.mbd → ∃ m'', scheduleAll conf s.mbd now sendOk = some m'') :=
  ⟨schedule_conserves reach.namesOnce positive hosted fine done,
    fun _ whole => schedule_alike reach.namesOnce positive hosted done whole,
    fun readable => scheduleAll_isSome reach.namesOnce positive hosted readable done⟩

instance decidableNonNegative (res : JobResources) : Decidable (NonNegative res) :=
  decidable_of_iff (0 ≤ res.numCpus ∧ ∀ t ∈ res.tokens, 0 ≤ t.count)
    ⟨fun ⟨cpus, tokens⟩ => ⟨cpus, tokens⟩, fun positive => ⟨positive.cpus, positive.tokens⟩⟩

instance decidableAsksHost (res : JobResources) : Decidable (AsksHost res) :=
  inferInstanceAs (Decidable (0 < settledHosts res.machines res.numHosts))

theorem pendingAsk_of_lists {asks : JobResources → Prop} [DecidablePred asks] (sound : Sound conf s)
    (each : (s.mbd.pend ++ s.mbd.run ++ s.mbd.finish).all (fun j =>
      (s.mbd.jobs j).all fun job => decide (asks job.res)) = true) : PendingAsk asks s.mbd := by
  intro j job found _
  have listed : j ∈ s.mbd.pend ++ s.mbd.run ++ s.mbd.finish := by
    have member := (sound.wf.listed job.listId j).mpr ⟨job, found, rfl⟩
    rw [mem_append, mem_append]
    generalize job.listId = id at member
    cases id with
    | pend => exact .inl (.inl member)
    | run => exact .inl (.inr member)
    | finish => exact .inr member
  have checked := List.all_eq_true.mp each j listed
  rw [found] at checked
  exact of_decide_eq_true checked

/-- One host is up and two jobs wait, each of which would take most of it. -/
def twoWait : List Label :=
  join "h1" 5 ++ [submitAt 1 { plainRequest with numCpus := 3 },
    submitAt 2 { plainRequest with numCpus := 3 }]

theorem cycle_conserves_twoWait : ∃ s m', Reachable smallConf anyStep s ∧
    schedule smallConf s.mbd 3 (fun _ => true) = some m' ∧ m'.pend = [2] ∧
    (∀ j ∈ m'.pend, ¬ Dispatchable smallConf 3 m' j) ∧
    ∃ m'', scheduleAll smallConf s.mbd 3 (fun _ => true) = some m'' ∧ AlikeButReasons m' m'' := by
  obtain ⟨s, executed, asked, ⟨m', done, left⟩, whole⟩ :
      ∃ s ∈ runOf smallConf (rereading fun _ _ => true) twoWait,
        (s.mbd.pend ++ s.mbd.run ++ s.mbd.finish).all (fun j => (s.mbd.jobs j).all fun job =>
          decide (NonNegative job.res ∧ AsksHost job.res)) = true ∧
        (∃ m' ∈ schedule smallConf s.mbd 3 fun _ => true, m'.pend = [2]) ∧
        (scheduleAll smallConf s.mbd 3 fun _ => true).isSome = true := by
    decide +kernel
  obtain ⟨m'', whole⟩ := Option.isSome_iff_exists.mp whole
  have legible := legibly_of_runOf executed
  have reach : Reachable smallConf anyStep s := legible.mono fun _ _ _ => trivial
  have asks : PendingAsk (fun res => NonNegative res ∧ AsksHost res) s.mbd :=
    pendingAsk_of_lists legible.sound asked
  have fine : NothingFails smallConf s.mbd 3 fun _ => true :=
    nothingFails_of_small reach.namesOnce (by decide) fun _ => rfl
  obtain ⟨none, alike, _⟩ := cycle_conserves reach
    (fun j job found waits => (asks j job found waits).1)
    (fun j job found waits => (asks j job found waits).2) fine done
  exact ⟨s, m', reach, done, left, none, m'', whole, alike m'' whole⟩

/-- A job is submitted that asks for no host, and mbd is started again. -/
def noHostAsked : List Label :=
  [submitAt 1 { plainRequest with numHosts := 0 }, .mbdRestart fun _ => 0]

theorem noHost_left_waiting : ∃ s m', Reachable smallConf anyStep s ∧
    PendingAsk NonNegative s.mbd ∧ NothingFails smallConf s.mbd 3 (fun _ => true) ∧
    schedule smallConf s.mbd 3 (fun _ => true) = some m' ∧
    ∃ j ∈ m'.pend, Dispatchable smallConf 3 m' j := by
  obtain ⟨s, executed, asked, m', done, waits, job, found, ready, ofQueue, opened, tokens,
      dependency, none, unnamed⟩ :
      ∃ s ∈ runOf smallConf (rereading fun _ _ => true) noHostAsked,
        (s.mbd.pend ++ s.mbd.run ++ s.mbd.finish).all (fun j => (s.mbd.jobs j).all fun job =>
          decide (NonNegative job.res)) = true ∧
        ∃ m' ∈ schedule smallConf s.mbd 3 fun _ => true, 1 ∈ m'.pend ∧ ∃ job ∈ m'.jobs 1,
          jobIsReady 3 job = true ∧ job.queue = some "normal" ∧
          (m'.queues "normal").closed = false ∧ tokensAvailable smallConf m' job = true ∧
          jobDepSatisfied m' job = some true ∧ hostsNeeded job = 0 ∧ job.res.machines = [] := by
    decide +kernel
  have legible := legibly_of_runOf executed
  have reach : Reachable smallConf anyStep s := legible.mono fun _ _ _ => trivial
  refine ⟨s, m', reach, pendingAsk_of_lists legible.sound asked,
    nothingFails_of_small reach.namesOnce (by decide) (fun _ => rfl), done, 1, waits, job,
    "normal", [], found, ⟨ready, ofQueue, opened, tokens, dependency⟩, ?_⟩
  exact ⟨none.symm, nodup_nil, fun _ member => absurd member not_mem_nil,
    fun named => absurd unnamed named⟩

/-! ### The order of the jobs -/

/--
A cycle takes the pending jobs by queue priority, job priority and id where no two
priorities are too far apart to be subtracted; it is a walk over them where the list fits
the buffer; and where nothing fails a job is not dispatched while one that needs the same
and comes before it is left waiting.  That every pending job is known holds in all runs
whose restarts can read their manifests.
-/
theorem cycle_order {conf : Conf} (sorts : Sorts conf.qsort) {s : System}
    (reach : Reachable conf anyStep s) {now : Time} {sendOk : JobId → Bool} :
    (cycleOrder conf s.mbd).Perm s.mbd.pend ∧
      (Reachable conf (Legibly anyStep) s → ∀ j ∈ s.mbd.pend, (s.mbd.jobs j).isSome = true) ∧
      ((∀ j ∈ s.mbd.pend, (s.mbd.jobs j).isSome = true) → PrioritiesFit conf s.mbd →
        (cycleOrder conf s.mbd).Pairwise (PrecedesIn conf s.mbd)) ∧
      (s.mbd.pend.length ≤ schedSortBufMax → s.mbd.pend ≠ [] → (markCandidates conf s.mbd).2 ≠ 0 →
        schedule conf s.mbd now sendOk = (walk (scheduleTurn conf now sendOk)
          (cycleOrder conf s.mbd) (cycleStart conf s.mbd)).map Prod.fst) ∧
      (PendingAsk NonNegative s.mbd → NothingFails conf s.mbd now sendOk →
        ∀ a b ja jb m₁ m₂ job, Dispatches conf s.mbd now sendOk b m₁ m₂ → Before conf s.mbd a b →
          s.mbd.jobs a = some ja → s.mbd.jobs b = some jb → SameNeeds ja jb →
          m₁.jobs a = some job → job.state ≠ .pending) := by
  refine ⟨conf.qsort_perm _ _, fun legible j member => ?_,
    fun known fits => cycleOrder_sorted sorts known fits,
    fun few waiting slots => schedule_eq_walk ⟨waiting, slots, few⟩,
    fun positive fine _ _ _ _ _ _ _ dispatches before first second same found =>
      dispatches.no_overtaking reach.namesOnce positive fine before first second same found⟩
  obtain ⟨job, found, _⟩ := (legible.sound.wf.listed .pend j).mp member
  rw [found]
  rfl

/-- One host is up and two jobs wait, with room for both. -/
def pairWaits : List Label :=
  join "h1" 5 ++ [submitAt 1 plainRequest, submitAt 2 plainRequest]

-- jobs that need the same are taken by their ids
example : (runOf smallConf (fun _ _ => true) pairWaits).bind (fun s =>
    (schedule smallConf s.mbd 3 fun _ => true).map fun m => m.run) = some [1, 2] := by
  decide +kernel

def pairReady (s : System) : Bool :=
  decide (s.mbd.pend = [1, 2] ∧ cycleOrder smallConf s.mbd = [1, 2] ∧
      (markCandidates smallConf s.mbd).2 ≠ 0 ∧ PrioritiesFit smallConf s.mbd) &&
    (s.mbd.pend ++ s.mbd.run ++ s.mbd.finish).all (fun j => (s.mbd.jobs j).all fun job =>
      decide (NonNegative job.res)) &&
    (s.mbd.jobs 1).any fun ja => (s.mbd.jobs 2).any fun jb =>
      decide (ja.state = jb.state ∧ ja.beginTime = jb.beginTime ∧ ja.queue = jb.queue ∧
        ja.deps = jb.deps ∧ ja.flags = jb.flags ∧ ja.res = jb.res)

theorem cycle_order_pair : ∃ s m₁ m₂ ja jb, Reachable smallConf anyStep s ∧
    Dispatches smallConf s.mbd 3 (fun _ => true) 2 m₁ m₂ ∧ Before smallConf s.mbd 1 2 ∧
    s.mbd.jobs 1 = some ja ∧ s.mbd.jobs 2 = some jb ∧ SameNeeds ja jb ∧
    (cycleOrder smallConf s.mbd).Perm s.mbd.pend ∧
    (cycleOrder smallConf s.mbd).Pairwise (PrecedesIn smallConf s.mbd) ∧
    schedule smallConf s.mbd 3 (fun _ => true) = (walk (scheduleTurn smallConf 3 fun _ => true)
      (cycleOrder smallConf s.mbd) (cycleStart smallConf s.mbd)).map Prod.fst ∧
    ∀ job, m₁.jobs 1 = some job → job.state ≠ .pending := by
  obtain ⟨s, executed, ready, ⟨⟨m₁, slots⟩, stop⟩, first, goes, turn, done, joined⟩ :
      ∃ s ∈ runOf smallConf (rereading fun _ _ => true) pairWaits, pairReady s = true ∧
        ∃ first ∈ scheduleTurn smallConf 3 (fun _ => true) (cycleStart smallConf s.mbd) 1,
          first.2 = false ∧ ∃ turn ∈ scheduleJob smallConf 3 (fun _ => true) first.1.1 2 first.1.2,
            turn.state.run ≠ first.1.1.run := by
    decide +kernel
  obtain ⟨facts, jobs⟩ := Bool.and_eq_true_iff.mp ready
  obtain ⟨lists, asked⟩ := Bool.and_eq_true_iff.mp facts
  obtain ⟨pend, order, some, fits⟩ := of_decide_eq_true lists
  obtain ⟨ja, isA, jobs⟩ := (Option.any_eq_true _ _).mp jobs
  obtain ⟨jb, isB, facts⟩ := (Option.any_eq_true _ _).mp jobs
  obtain ⟨state, beginTime, queue, deps, flags, res⟩ := of_decide_eq_true facts
  have legible := legibly_of_runOf executed
  have reach : Reachable smallConf anyStep s := legible.mono fun _ _ _ => trivial
  have scans : Scans smallConf s.mbd := ⟨by rw [pend]; decide, some, by rw [pend]; decide⟩
  have dispatches : Dispatches smallConf s.mbd 3 (fun _ => true) 2 m₁ turn.state := by
    refine ⟨slots, turn, ⟨scans, ?_⟩, done, rfl, joined⟩
    have goes : stop = false := goes
    rw [order]
    exact .later (goes ▸ first) .here
  have before : Before smallConf s.mbd 1 2 := by
    refine ⟨[1], ?_, mem_singleton_self 1, by decide⟩
    rw [order]
    exact prefix_refl _
  have same : SameNeeds ja jb :=
    { state := state, beginTime := beginTime, queue := queue, deps := deps
      exclusive := congrArg JobFlags.exclusive flags
      numCpus := congrArg JobResources.numCpus res
      numHosts := congrArg JobResources.numHosts res
      numGpus := congrArg JobResources.numGpus res
      gpuModel := congrArg JobResources.gpuModel res
      memMb := congrArg JobResources.memMb res
      storageMb := congrArg JobResources.storageMb res
      machines := congrArg JobResources.machines res
      tokens := congrArg JobResources.tokens res }
  obtain ⟨perm, known, sorted, walks, serves⟩ := cycle_order sorts_insertionSort reach
  have fine : NothingFails smallConf s.mbd 3 fun _ => true :=
    nothingFails_of_small reach.namesOnce (by decide) fun _ => rfl
  have asks := pendingAsk_of_lists legible.sound asked
  exact ⟨s, m₁, turn.state, ja, jb, reach, dispatches, before, isA, isB, same, perm,
    sorted (known legible) fits, walks scans.fits scans.waiting some,
    fun job => serves asks fine 1 2 ja jb m₁ turn.state job dispatches before isA isB same⟩

/-- Two queues whose priorities differ by more than a 32-bit integer can say. -/
def farApartConf : Conf :=
  { smallConf with
    queues :=
      [ { name := "normal", priority := 2147483647, hosts := ["h1", "h2"], users := [] },
        { name := "low", priority := -2, hosts := ["h1", "h2"], users := [] } ]
    queues_nodup := by decide
    queue_hosts := by decide
    queue_names_fit := by decide }

/-- A job of the low queue and one of the other wait for the whole of the same host. -/
def rivalsWait : List Label :=
  join "h1" 5 ++ [submitAt 1 { plainRequest with queue := "low", numCpus := 4 },
    submitAt 2 { plainRequest with numCpus := 4 }]

theorem lowQueue_first : ∃ s m', Reachable farApartConf anyStep s ∧ Sorts farApartConf.qsort ∧
    (∀ q ∈ farApartConf.queues, Fits32 q.priority) ∧
    schedule farApartConf s.mbd 3 (fun _ => true) = some m' ∧
    cycleOrder farApartConf s.mbd = [1, 2] ∧
    ¬ (cycleOrder farApartConf s.mbd).Pairwise (PrecedesIn farApartConf s.mbd) ∧
    m'.run = [1] ∧ m'.pend = [2] := by
  obtain ⟨s, executed, order, ⟨ja, isA, jb, isB, low, high⟩, m', done, running, waiting⟩ :
      ∃ s ∈ runOf farApartConf (fun _ _ => true) rivalsWait,
        cycleOrder farApartConf s.mbd = [1, 2] ∧
        (∃ ja ∈ s.mbd.jobs 1, ∃ jb ∈ s.mbd.jobs 2, queuePriority farApartConf ja = -2 ∧
          queuePriority farApartConf jb = 2147483647) ∧
        ∃ m' ∈ schedule farApartConf s.mbd 3 fun _ => true, m'.run = [1] ∧ m'.pend = [2] := by
    decide +kernel
  refine ⟨s, m', reachable_of_runOf executed, sorts_insertionSort, by decide, done, order, ?_,
    running, waiting⟩
  rw [order]
  intro sorted
  have precedes := (pairwise_cons.mp sorted).1 2 mem_cons_self ja jb isA isB
  unfold Precedes at precedes
  rw [low, high] at precedes
  omega

/-! ### Dispatches that fail -/

/--
A failed dispatch leaves no trace exactly when it had no device to mark and did not fail at
the last step of `enqueue_payload`; and cycles of failed dispatches take nothing from later
ones if no pending job asks for devices.
-/
theorem failed_dispatch_untraced_iff (conf : Conf) :
    (∀ {s s' : Sending} {now j job queue failure h}, job.runHosts.head? = some h →
      dispatchJob s now j job queue (some failure) = some (s', none) →
      (Untraced s s' ↔ failure ≠ .enqueuePayload .setWriteInterest ∧
        (0 < job.res.numGpus → ∀ g ∈ (s.mbd.hosts h).gpus, g.inUse = true))) ∧
    ∀ {m m' : MbdState}, FailedCycles conf m m' → NoDevices m m.pend → SameSupply m m' :=
  ⟨untraced_iff, FailedCycles.sameSupply⟩

def joinAndSubmit (request : WireJobSubmit) : List Label :=
  join "h1" 5 ++ [submitAt 1 request]

def plannedOnFirst (job : JobData) : JobData :=
  plannedJob job ["h1"]

theorem failed_dispatch_untraced_iff_plain : ∃ s s' job m', Reachable smallConf anyStep s ∧
    dispatchJob ⟨s.mbd, fun _ => []⟩ 2 1 (plannedOnFirst job) "normal" (some .signHeader) =
      some (s', none) ∧ Untraced ⟨s.mbd, fun _ => []⟩ s' ∧
    schedule smallConf s.mbd 2 (fun _ => false) = some m' ∧ SameSupply s.mbd m' := by
  obtain ⟨s, executed, job, found, noDevices, waits, ⟨⟨s', sent⟩, done, unsent⟩, m', cycled⟩ :
      ∃ s ∈ runOf smallConf (fun _ _ => true) (joinAndSubmit plainRequest), ∃ job ∈ s.mbd.jobs 1,
        job.res.numGpus = 0 ∧ s.mbd.pend = [1] ∧
        (∃ r ∈ dispatchJob ⟨s.mbd, fun _ => []⟩ 2 1 (plannedOnFirst job) "normal"
          (some .signHeader), r.2.isNone = true) ∧
        ∃ m' ∈ schedule smallConf s.mbd 2 (fun _ => false), m'.pend = [1] := by
    decide +kernel
  cases sent with
  | some job => cases unsent
  | none =>
    obtain ⟨untraced, supply⟩ := failed_dispatch_untraced_iff smallConf
    refine ⟨s, s', job, m', reachable_of_runOf executed, done, (untraced rfl done).mpr
      ⟨by decide, fun asks => ?_⟩, cycled.1, supply (.single ⟨2, cycled.1⟩) ?_⟩
    · have positive : 0 < job.res.numGpus := asks
      omega
    · intro j member job' known
      rw [waits, mem_singleton] at member
      subst member
      cases found.symm.trans known
      exact Int.le_of_eq noDevices

def deviceRequest : WireJobSubmit :=
  { plainRequest with numGpus := 1 }

/-- Two cycles that cannot send mark both devices of the host, and nothing runs. -/
theorem failed_cycles_exhaust : ∃ s m₁ m₂, Reachable smallConf anyStep s ∧
    schedule smallConf s.mbd 2 (fun _ => false) = some m₁ ∧
    schedule smallConf m₁ 3 (fun _ => false) = some m₂ ∧
    (s.mbd.hosts "h1").gpus.map GpuId.inUse = [false, false] ∧
    (m₁.hosts "h1").gpus.map GpuId.inUse = [true, false] ∧
    (m₂.hosts "h1").gpus.map GpuId.inUse = [true, true] ∧ m₂.pend = [1] ∧ m₂.run = [] := by
  obtain ⟨s, executed, m₁, first, m₂, second, facts⟩ :
      ∃ s ∈ runOf smallConf (fun _ _ => true) (joinAndSubmit deviceRequest),
        ∃ m₁ ∈ schedule smallConf s.mbd 2 (fun _ => false),
          ∃ m₂ ∈ schedule smallConf m₁ 3 (fun _ => false),
            (s.mbd.hosts "h1").gpus.map GpuId.inUse = [false, false] ∧
            (m₁.hosts "h1").gpus.map GpuId.inUse = [true, false] ∧
            (m₂.hosts "h1").gpus.map GpuId.inUse = [true, true] ∧ m₂.pend = [1] ∧ m₂.run = [] := by
    decide +kernel
  exact ⟨s, m₁, m₂, reachable_of_runOf executed, first, second, facts⟩

end LavaLite.Cluster
