import LavaLite.Mbd.Channels
import LavaLite.Cluster.Scheduling

/-
The hosts as registrations and administrators see them, over whole runs: two bits of
one state word, changed by the four kinds of steps of `presenceStep` only; and the
channels of mbd, with the hosts as the channel table shows them.
-/

namespace LavaLite.Cluster

open Base Batch Mbd Kernel Function Option

/-! ### What leaves the hosts as they are -/

variable {conf : Conf} {m m' m₁ : MbdState} {now : Time} {sendOk : JobId → Bool} {j : JobId}

theorem jobRegister_presence {env : SubmitEnv} {uid gid : Nat} {request : WireJobSubmit}
    {answer : Except Status JobId}
    (done : jobRegister conf env m uid gid request = some (m', answer)) :
    m'.presence = m.presence := by
  rcases jobRegister_inversion done with ⟨_, _, _, rfl, _⟩ |
    ⟨_, _, _, _, _, _, _, _, _, committed, rfl, _⟩
  · rfl
  · obtain ⟨_, _, hosts, marks, _⟩ := jobCommitPrepared_adds committed
    unfold MbdState.presence
    rw [hosts, marks]

theorem maybeRebuildManifest_presence (done : maybeRebuildManifest conf m = some m') :
    m'.presence = m.presence := by
  unfold maybeRebuildManifest at done
  split at done
  · cases done
    rfl
  · obtain ⟨pending, _, done⟩ := bind_eq_some_iff.mp done
    obtain ⟨running, _, done⟩ := bind_eq_some_iff.mp done
    obtain ⟨finished, _, done⟩ := bind_eq_some_iff.mp done
    cases done
    rfl

theorem jobsSignal_presence {uid : Nat} {jobId : JobId} {arrayIndex sig : Int} {status : Status}
    (done : jobsSignal conf m now uid jobId arrayIndex sig sendOk = some (m', status)) :
    m'.presence = m.presence := by
  apply jobsSignal_invariant _ _ _ done (Eq.refl m.presence)
  · exact fun _ found one before => (signalOneJob_acts found one).presence.trans before
  · exact fun one before => (signalScanPending_acts one).presence.trans before
  · exact fun one before => (signalScanRunning_acts one).presence.trans before

theorem schedule_presence (done : schedule conf m now sendOk = some m') :
    m'.presence = m.presence := by
  apply schedule_invariant _ _ done (Eq.refl m.presence)
  · exact fun _ same before => same.trans before
  · exact fun turn before => (scheduleJob_acts turn).presence.trans before

theorem TurnComes.presence {freeSlots : Int} (comes : TurnComes conf m now sendOk j m₁ freeSlots) :
    m₁.presence = m.presence := by
  refine comes.2.invariant (fun s => s.1.presence = m.presence)
    (fun {s i s' stop} (_ : True) turned before => ?_) (fun _ _ => trivial) rfl
  exact (scheduleJob_acts (scheduleTurn_eq_some turned)).presence.trans before

theorem replayRebuildCounters_presence (done : replayRebuildCounters conf m = some m') :
    m'.presence = m.presence := by
  obtain ⟨_, _, _, _, _, _, loops, rfl⟩ := replayRebuildCounters_spec done
  have charged := forEachJob_keeps (fun a b => b.presence = a.presence) (fun _ => rfl)
    (fun one two => two.trans one) (fun turned => ?_) loops.ran
  · exact charged
  · obtain ⟨job, _, _, hosts, _, _, _, charged, rfl⟩ := rebuildRunning_spec turned
    refine presence_of_updateEach (fun charge => ?_) charged rfl rfl
    obtain ⟨gpus, _, charge⟩ := bind_eq_some_iff.mp charge
    cases charge
    exact ⟨rfl, rfl⟩

theorem replayRecords_presence {marks : ClosedMarks} {records manifest : List Event}
    {seqFile : JobId} (done : replayRecords conf marks records manifest seqFile = some m) :
    m.presence = fun h => ⟨-1, ⟨readBack marks.hosts h, true⟩, marks.hosts h⟩ := by
  obtain ⟨r, events, rebuilt⟩ := bind_eq_some_iff.mp done
  obtain ⟨_, rest⟩ := replayEvents_spec events
  rw [replayRebuildCounters_presence rebuilt]
  funext h
  simp only [MbdState.presence, rest.hosts, rest.marks]
  rfl

/-! ### Steps and runs -/

variable {s s' : System} {label : Label} {h : HostName}

theorem step_presence (taken : step conf s label = some s') :
    s'.mbd.presence = presenceStep conf s.mbd.presence label := by
  obtain ⟨m, handles, outbox, same⟩ := step_handles taken
  have after : m.presence = presenceStep conf s.mbd.presence label := by
    cases handles with
    | submit done => exact jobRegister_presence done
    | signal done => exact jobsSignal_presence done
    | move done => exact (jobMove_acts done).presence
    | priority done => exact (jobPriority_acts done).presence
    | timer done =>
      obtain ⟨m₁, scheduled, rebuilt⟩ := bind_eq_some_iff.mp done
      exact (maybeRebuildManifest_presence rebuilt).trans (schedule_presence scheduled)
    | read head done => exact (mbdHandle_acts done).presence
    | restart done => exact replayRecords_presence done
    | other _ presence => exact presence
  rw [same]
  exact after

def inForce (conf : Conf) (h : HostName) (closed : Bool) : Label → Bool
  | .hostAdmin uid n close =>
    if n = h ∧ conf.isManager uid = true ∧ (conf.findHost n).isSome then close else closed
  | _ => closed

/-- Whether the last request of a manager for the host, if there was one, closed it. -/
def lastRequest (conf : Conf) (h : HostName) (labels : List Label) : Bool :=
  labels.foldl (inForce conf h) false

/-- A host in step with the requests and with its channel. -/
structure InStep (h : HostName) (closed : Bool) (p : Presence) : Prop where
  marked : p.marked = closed
  closed : h.toList.head? ≠ some '.' → p.status.closed = closed
  unavail : p.status.unavail = true ↔ p.chan = -1
  bound : p.chan ≠ 0

theorem InStep.step {closed : Bool} (inStep : InStep h closed (s.mbd.presence h))
    (taken : step conf s label = some s') :
    InStep h (inForce conf h closed label) (s'.mbd.presence h) := by
  rw [step_presence taken]
  generalize s.mbd.presence = p at inStep
  cases label with
  | hostAdmin uid n close =>
    simp only [presenceStep, inForce]
    by_cases same : n = h
    · subst same
      by_cases accepted : conf.isManager uid = true ∧ (conf.findHost n).isSome = true
      · rw [if_pos accepted, if_pos ⟨rfl, accepted⟩, update_self]
        exact ⟨rfl, fun _ => rfl, inStep.unavail, inStep.bound⟩
      · rw [if_neg accepted, if_neg fun both => accepted both.2]
        exact inStep
    · rw [if_neg fun both => same both.1]
      split
      · rw [update_of_ne (Ne.symm same)]
        exact inStep
      · exact inStep
  | register n chan =>
    have positive : 0 < chan := by
      simp only [Cluster.step] at taken
      split at taken
      next ready => exact ready.2
      · cases taken
    simp only [presenceStep, inForce]
    split
    · by_cases same : h = n
      · subst same
        rw [update_self]
        exact ⟨inStep.marked, inStep.closed,
          iff_of_false Bool.false_ne_true (show chan ≠ -1 by omega), Int.ne_of_gt positive⟩
      · rw [update_of_ne same]
        exact inStep
    · exact inStep
  | mbdDrop n kept =>
    simp only [presenceStep, inForce]
    by_cases same : h = n
    · subst same
      rw [update_self]
      exact ⟨inStep.marked, inStep.closed, by simp, by simp⟩
    · rw [update_of_ne same]
      exact inStep
  | mbdRestart kept =>
    refine ⟨inStep.marked, fun undotted => ?_, by simp [presenceStep], by simp [presenceStep]⟩
    have read : (h.toList.head? != some '.') = true := by simpa using undotted
    simp only [presenceStep, readBack, read, Bool.and_true]
    exact inStep.marked
  | _ => exact inStep

theorem inStep_initial (conf : Conf) (h : HostName) :
    InStep h false ((initial conf).mbd.presence h) :=
  ⟨rfl, fun _ => rfl, iff_of_true rfl rfl, show (-1 : Int) ≠ 0 by decide⟩

theorem Reachable.noneOnZero {guard : System → Label → Prop} (reached : Reachable conf guard s) :
    NoneOnZero s.mbd := by
  have inStep : ∀ h, ∃ closed, InStep h closed (s.mbd.presence h) :=
    reached.invariant (fun s => ∀ h, ∃ closed, InStep h closed (s.mbd.presence h))
      (fun h => ⟨false, inStep_initial conf h⟩) fun before _ taken h =>
        (before h).elim fun _ inStep => ⟨_, inStep.step taken⟩
  intro h
  obtain ⟨closed, inStep⟩ := inStep h
  exact inStep.bound

theorem inStep_of_runOf {labels : List Label} (ran : runOf conf (fun _ _ => true) labels = some s)
    (h : HostName) : InStep h (lastRequest conf h labels) (s.mbd.presence h) := by
  have whole : ∀ {labels : List Label} {s₀ : System} {closed : Bool},
      InStep h closed (s₀.mbd.presence h) →
      execute (step conf) (fun _ _ => true) s₀ labels = some s →
      InStep h (labels.foldl (inForce conf h) closed) (s.mbd.presence h) := by
    intro labels
    induction labels with
    | nil =>
      intro s₀ closed inStep ran
      cases ran
      exact inStep
    | cons label rest ih =>
      intro s₀ closed inStep ran
      simp only [execute, if_true] at ran
      split at ran
      · cases ran
      next taken => exact ih (inStep.step taken) ran
  exact whole (inStep_initial conf h) ran

/--
After any run: the closed bit of a host is what the last request of a manager asked for,
unless its name begins with a dot; its unavailable bit says whether it has a channel; and
no cycle puts a job on a host with either bit.
-/
theorem host_availability {conf : Conf} {labels : List Label} {s : System}
    (ran : runOf conf (fun _ _ => true) labels = some s) (h : HostName) :
    (h.toList.head? ≠ some '.' → (s.mbd.hosts h).status.closed = lastRequest conf h labels) ∧
    ((s.mbd.hosts h).status.unavail = true ↔ (s.mbd.hosts h).sbdChan = -1) ∧
    ∀ {now : Time} {sendOk : JobId → Bool} {j : JobId} {m₁ m₂ : MbdState} {job : JobData},
      Dispatches conf s.mbd now sendOk j m₁ m₂ → m₂.jobs j = some job → h ∈ job.hosts →
        (s.mbd.hosts h).status = ⟨false, false⟩ := by
  have inStep := inStep_of_runOf ran h
  refine ⟨inStep.closed, inStep.unavail, ?_⟩
  intro now sendOk j m₁ m₂ job dispatches found member
  obtain ⟨job', queue, plan, text, _, after, _, _, _, fits⟩ :=
    dispatches.planned (reachable_of_runOf ran).namesOnce
  obtain ⟨_, _, comes, _⟩ := dispatches
  cases after.symm.trans found
  have whole : (dispatchedJob job' plan text now).hosts = plan := List.take_length
  rw [whole] at member
  have kept := congrArg Presence.status (congrFun (TurnComes.presence comes) h)
  exact kept.symm.trans (fits.suitable h member).isOk

def closedAndRestarted (h : HostName) : List Label :=
  join h 5 ++ [.hostAdmin 0 h true, .mbdRestart fun _ => 0]

theorem host_availability_restarted :
    (∃ s, runOf smallConf (fun _ _ => true) (closedAndRestarted "h1") = some s ∧
      (s.mbd.hosts "h1").status.closed = true ∧ (s.mbd.hosts "h1").sbdChan = -1 ∧
      (s.mbd.hosts "h1").status.unavail = true) ∧
    ∃ s m₁ m₂ job, runOf smallConf (fun _ _ => true) (joinAndSubmit plainRequest) = some s ∧
      Dispatches smallConf s.mbd 2 (fun _ => true) 1 m₁ m₂ ∧ m₂.jobs 1 = some job ∧
      "h1" ∈ job.hosts ∧ (s.mbd.hosts "h1").status = ⟨false, false⟩ := by
  constructor
  · obtain ⟨s, ran, away⟩ : ∃ s ∈ runOf smallConf (fun _ _ => true) (closedAndRestarted "h1"),
        (s.mbd.hosts "h1").sbdChan = -1 := by
      decide +kernel
    obtain ⟨closed, unavail, _⟩ := host_availability ran "h1"
    exact ⟨s, ran, (closed (by decide)).trans (by decide +kernel), away, unavail.mpr away⟩
  · obtain ⟨s, ran, waiting, slots, fits, head, turn, done, joined, job, found, placed⟩ :
        ∃ s ∈ runOf smallConf (fun _ _ => true) (joinAndSubmit plainRequest), s.mbd.pend ≠ [] ∧
          (markCandidates smallConf s.mbd).2 ≠ 0 ∧ s.mbd.pend.length ≤ schedSortBufMax ∧
          (cycleOrder smallConf s.mbd).head? = some 1 ∧
          ∃ turn ∈ scheduleJob smallConf 2 (fun _ => true) (cycleStart smallConf s.mbd).1 1
            (cycleStart smallConf s.mbd).2, turn.state.run ≠ (cycleStart smallConf s.mbd).1.run ∧
              ∃ job ∈ turn.state.jobs 1, "h1" ∈ job.hosts := by
      decide +kernel
    have dispatches := dispatches_head ⟨waiting, slots, fits⟩ head done joined
    exact ⟨s, _, _, job, ran, dispatches, found, placed,
      (host_availability ran "h1").2.2 dispatches found placed⟩

def simConf : Conf :=
  { smallConf with
    hosts := [{ name := ".sim", totalCpu := 4, totalMemMb := 100, totalStorageMb := 100,
                gpuModel := "", gpuIds := [] }]
    queues := [{ name := "normal", priority := 1, hosts := [".sim"], users := [] }]
    hosts_nodup := by decide
    queues_nodup := by decide
    sizes_fit := by decide
    queue_hosts := by decide
    queue_names_fit := by decide }

theorem closed_host_reopened :
    ∃ s, runOf simConf (fun _ _ => true) (closedAndRestarted ".sim") = some s ∧
      (s.mbd.hosts ".sim").status.closed = false ∧
      lastRequest simConf ".sim" (closedAndRestarted ".sim") = true := by
  obtain ⟨s, ran, opened⟩ : ∃ s ∈ runOf simConf (fun _ _ => true) (closedAndRestarted ".sim"),
      (s.mbd.hosts ".sim").status.closed = false := by
    decide +kernel
  exact ⟨s, ran, opened, by decide +kernel⟩

/-! ### Channels -/

/--
In every run in which no message on a bound channel fails a check of its header,
the two tables agree, every bound channel is open and registered as its host, and
a host whose connections are closed can register again.
-/
theorem channels_bound {chanMax : Nat} {conf : Conf} {t : NetState}
    (run : Steps (netStep chanMax conf) (fun t label => label.Accepted t) networkInit t) :
    Bindings t ∧ ∀ h, (conf.findHost h).isSome = true → Disconnected t h →
      ∀ c, isClient t c = true → t.sbdChanHash c = none →
        ∃ t', netStep chanMax conf t (.message c (registration h)) = some t' ∧
          t'.sbdChanHash c = some h ∧ t'.sbdChan h = some c := by
  have tidy := tidy_of_run run
  exact ⟨tidy.toBindings, fun h known gone c client free => tidy.rejoins known gone client free⟩

def netRun (check : NetState → NetLabel → Bool) (labels : List NetLabel) : Option NetState :=
  execute (netStep 8 smallConf) check networkInit labels

/-- An sbd joins, its connection is lost, and another connection takes the slot. -/
def lostAndBack : List NetLabel :=
  [.accept true, .message 2 (registration "h1"), .message 2 .failed, .accept true]

theorem channels_bound_lostAndBack :
    ∃ t t', Steps (netStep 8 smallConf) (fun t label => label.Accepted t) networkInit t ∧
      Bindings t ∧ netStep 8 smallConf t (.message 2 (registration "h1")) = some t' ∧
      t'.sbdChanHash 2 = some "h1" ∧ t'.sbdChan "h1" = some 2 := by
  obtain ⟨t, executed, client, free, unbound⟩ :
      ∃ t ∈ netRun (fun t label => decide (label.Accepted t)) lostAndBack,
        isClient t 2 = true ∧ t.sbdChanHash 2 = none ∧ t.sbdChan "h1" = none := by
    decide
  have run : Steps (netStep 8 smallConf) (fun t label => label.Accepted t) networkInit t :=
    steps_of_execute (fun _ _ _ => of_decide_eq_true) executed
  obtain ⟨bindings, rejoins⟩ := channels_bound run
  obtain ⟨t', taken, named, bound⟩ := rejoins "h1" (by decide)
    ((tidy_of_run run).disconnected_iff.mpr unbound) 2 client free
  exact ⟨t, t', run, bindings, taken, named, bound⟩

def expired : Incoming :=
  .packet
    { decoded := true
      operation := some .jobFinish
      verified := false
      current := true
      hostname := none
      acked := false
      served := false }

/-- The channel of the first host is closed and its slot taken by the next connection. -/
def closedButBound : List NetLabel :=
  [.accept true, .message 2 (registration "h1"), .message 2 expired, .accept true]

theorem channels_not_bound :
    (netRun (fun _ _ => true) (closedButBound.take 3)).map
        (fun t => (t.sbdChanHash 2, t.sbdChan "h1", t.sock 2)) = some (some "h1", some 2, none) ∧
      (netRun (fun _ _ => true) (closedButBound ++ [.message 2 (registration "h1")])).map
        (fun t => (t.sbdChanHash 2, t.sock 2, t.registered 3)) = some (some "h1", some 3, none) ∧
      (netRun (fun _ _ => true)
          (closedButBound ++ [.accept true, .message 3 (registration "h1")])).map
        (fun t => (t.sbdChan "h1", t.sock 3)) = some (some 2, none) ∧
      ¬ ∀ (chanMax : Nat) (conf : Conf) (t : NetState),
        Steps (netStep chanMax conf) anyStep networkInit t →
          Bindings t ∧ ∀ h, (conf.findHost h).isSome = true → Disconnected t h →
            ∀ c, isClient t c = true → t.sbdChanHash c = none →
              ∃ t', netStep chanMax conf t (.message c (registration h)) = some t' ∧
                t'.sbdChanHash c = some h ∧ t'.sbdChan h = some c := by
  refine ⟨by decide, by decide, by decide, fun always => ?_⟩
  obtain ⟨t, executed, bound, closed⟩ : ∃ t ∈ netRun (fun _ _ => true) (closedButBound.take 3),
      t.sbdChanHash 2 = some "h1" ∧ t.sock 2 = none := by decide
  have reached : Steps (netStep 8 smallConf) anyStep networkInit t :=
    steps_of_execute (fun _ _ _ _ => trivial) executed
  obtain ⟨conn, open_, _⟩ := (always 8 smallConf t reached).1.registered 2 "h1" bound
  rw [closed] at open_
  cases open_

end LavaLite.Cluster
