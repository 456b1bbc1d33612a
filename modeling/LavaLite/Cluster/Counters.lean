import LavaLite.Cluster.Soundness
import LavaLite.Mbd.Cpus

/-
The counters of hosts and queues against the jobs, and exclusive jobs, along a run.  The answer
to a stop or a continue updates only the host that answered.
-/

namespace LavaLite.Cluster

open Base Batch Mbd Sbd Kernel

variable {conf : Conf} {guard : System → Label → Prop} {s : System}

theorem initial_hostBalanced (conf : Conf) (k : HostCounter) :
    HostBalanced conf k (initial conf).mbd := by
  intro h
  have empty : openTally (initial conf).mbd (hostShare h k) = 0 := rfl
  rw [empty, Int.add_zero]
  cases k <;> rfl

/--
Every counter of a host is balanced in every state reached, with no condition
on the reports for the counters that stops and continues do not touch.
-/
theorem Reachable.hostBalanced {k : HostCounter} (permits : Permit)
    (allowed : ∀ {s label}, guard s label → Allows permits s label)
    (local_ : k.steady = true ∨ ∀ m job report, permits m job report → localReports m job report)
    (reached : Reachable conf (Legibly guard) s)
    (compacts : ∀ m job, permits m job .compacted := by exact fun _ _ => trivial) :
    HostBalanced conf k s.mbd :=
  Sound.mbd_invariant (HostBalanced conf k) allowed (initial_hostBalanced conf k)
    (fun wf balanced effect => effect.hostBalanced wf balanced local_)
    (fun _ wf balanced registers => registers.hostBalanced wf balanced)
    (fun _ sound balanced replayed =>
      restart_hostBalanced sound.wf sound.recoverable sound.saved replayed balanced)
    (fun balanced => balanced)
    (sound_initial conf) reached compacts

theorem registers_cpusAsked {ws : WireJobSubmit} {m m' : MbdState}
    (registers : Registers conf (normalizeSubmit conf ws) m m') (asks : 0 ≤ ws.numCpus)
    (asked : EveryJob CpusAsked m) : EveryJob CpusAsked m' := by
  refine registers.everyJob (fun commit => ?_) asked
  unfold CpusAsked
  exact commit.prepared.numCpus ▸ asks

theorem Reachable.cpusAsked
    (asks : ∀ {s label}, guard s label → label.Asks fun ws => 0 ≤ ws.numCpus)
    (reached : Reachable conf (Legibly guard) s) : EveryJob CpusAsked s.mbd :=
  Sound.mbd_invariant (EveryJob CpusAsked) (fun _ => allows_anyReport _ _)
    (initial_everyJob conf CpusAsked) (fun _ asked effect => effect.everyJob asked)
    (fun may _ asked registers => registers_cpusAsked registers (asks may) asked)
    (fun _ sound asked replayed => (sound.restored replayed).cpusAsked asked)
    (fun asked => asked) (sound_initial conf) reached

theorem hostShare_nonneg {h : HostName} {k : HostCounter} {job : JobData}
    (recounted : k.recounted = true) (cpus : 0 ≤ job.res.numCpus) : 0 ≤ hostShare h k job := by
  unfold hostShare
  split
  · cases k with
    | freeCpu | freeMem | freeStorage => cases recounted
    | numJobs => exact Int.one_nonneg
    | numCpusUsed => exact cpus
    | numRun | numSusp =>
      simp only [hostCount]
      split <;> omega
  · exact Int.le_refl 0

/--
Reports that keep the counters of hosts: a stop is answered by the only host of
a running job, a continue by the only host of a suspended one, and no
submission asks for a negative number of CPUs.
-/
def localAnswers (s : System) (label : Label) : Prop :=
  Allows localReports s label ∧ label.Asks fun ws => 0 ≤ ws.numCpus

/-- Under these conditions the counters of every host are the recount, and not negative. -/
theorem hostCounters_eq_recount {conf : Conf} {s : System}
    (reached : Reachable conf (Legibly localAnswers) s) (h : HostName) (k : HostCounter)
    (recounted : k.recounted = true) :
    (s.mbd.hosts h).count k = (recountHost s.mbd h).count k ∧ 0 ≤ (s.mbd.hosts h).count k := by
  have listed := reached.sound.wf.toListed
  have balanced : HostBalanced conf k s.mbd :=
    reached.hostBalanced localReports And.left (.inr fun _ _ _ permitted => permitted)
  have base : conf.hostBase h k = 0 := by
    cases k with
    | freeCpu | freeMem | freeStorage => cases recounted
    | _ => rfl
  have counted : (s.mbd.hosts h).count k = openTally s.mbd (hostShare h k) := by
    rw [balanced h, base, Int.zero_add]
  have cpus := reached.cpusAsked And.right
  constructor
  · rw [counted, count_recountHost listed recounted]
  · rw [counted]
    exact openTally_nonneg listed fun found => hostShare_nonneg recounted (cpus _ _ found)

theorem hostCounters_eq_recount_oneStop :
    ∃ s, Reachable smallConf (Legibly localAnswers) s ∧ (s.mbd.hosts "h1").numSusp = 1 ∧
      (s.mbd.hosts "h1").count .numSusp = (recountHost s.mbd "h1").count .numSusp := by
  obtain ⟨s, executed, one⟩ : ∃ s ∈ runOf smallConf (rereading (mayRead localReports)) oneStop,
      (s.mbd.hosts "h1").numSusp = 1 := by decide +kernel
  have asked : ∀ label ∈ oneStop, label.Asks fun ws => 0 ≤ ws.numCpus := by
    simp [oneStop, join, start, exchange, submitAt, plainRequest, Label.Asks]
  have reached : Reachable smallConf (Legibly localAnswers) s :=
    steps_of_execute (fun label member _ => legibly_of_rereading fun checked =>
      ⟨allows_of_mayRead (.inr fun _ _ => trivial) checked, asked label member⟩) executed
  exact ⟨s, reached, one, (hostCounters_eq_recount reached "h1" .numSusp rfl).1⟩

def stoppedOnTwo : List Label :=
  join "h1" 5 ++ join "h2" 6 ++
    [submitAt 1 { plainRequest with numHosts := 2 }, .timer 2 fun _ => true] ++
    start "h1" 3 77 ++ [.signal 4 1 1 0 sigStop fun _ => true] ++ exchange "h1" 5

theorem hostCounters_ne_recount :
    (runOf smallConf (fun _ _ => true) stoppedOnTwo).map (fun s =>
        ((s.mbd.hosts "h2").numRun, (recountHost s.mbd "h2").numRun)) = some (1, 0) ∧
      ¬ ∀ (conf : Conf) (s : System), Reachable conf anyStep s → ∀ h k, k.recounted = true →
        (s.mbd.hosts h).count k = (recountHost s.mbd h).count k ∧
          0 ≤ (s.mbd.hosts h).count k := by
  refine ⟨by decide +kernel, fun equal => ?_⟩
  obtain ⟨s, executed, differ⟩ : ∃ s ∈ runOf smallConf (fun _ _ => true) stoppedOnTwo,
      (s.mbd.hosts "h2").numRun ≠ (recountHost s.mbd "h2").numRun := by
    decide +kernel
  exact differ (equal smallConf s (reachable_of_runOf executed) "h2" .numRun rfl).1

/-! ### Queues -/

theorem initial_queueBalanced (conf : Conf) (k : QueueCounter) :
    QueueBalanced k (initial conf).mbd := by
  intro q
  cases k <;> rfl

/--
When every answer to a stop finds its job running and every answer to a continue
finds it suspended, the counters of every queue are the recount.
-/
theorem queueCounters_eq_recount {conf : Conf} {s : System}
    (reached : Reachable conf (Legibly (Allows orderlyReports)) s) (q : QueueName) (k : QueueCounter) :
    (s.mbd.queues q).count k = (recountQueue s.mbd q).count k := by
  have balanced : QueueBalanced k s.mbd :=
    Sound.mbd_invariant (QueueBalanced k) id
      (initial_queueBalanced conf k)
      (fun wf balanced effect => effect.queueBalanced wf balanced (.inr fun _ _ _ orderly => orderly))
      (fun _ wf balanced registers => registers.queueBalanced wf balanced)
      (fun _ sound _ replayed =>
        restart_queueBalanced sound.wf sound.recoverable sound.saved replayed k)
      (fun balanced => balanced)
      (sound_initial conf) reached
  rw [count_recountQueue reached.sound.wf]
  exact balanced q

theorem queueCounters_eq_recount_oneStop :
    ∃ s, Reachable smallConf (Legibly (Allows orderlyReports)) s ∧ (s.mbd.queues "normal").numSusp = 1 ∧
      ∀ q k, (s.mbd.queues q).count k = (recountQueue s.mbd q).count k := by
  obtain ⟨s, executed, one⟩ : ∃ s ∈ runOf smallConf (rereading (mayRead orderlyReports)) oneStop,
      (s.mbd.queues "normal").numSusp = 1 := by decide +kernel
  have reached : Reachable smallConf (Legibly (Allows orderlyReports)) s :=
    steps_of_execute (fun _ _ _ => legibly_of_rereading
      (allows_of_mayRead (.inr fun _ _ => trivial))) executed
  exact ⟨s, reached, one, queueCounters_eq_recount reached⟩

def twoStops : List Label :=
  join "h1" 5 ++ [submitAt 1 plainRequest, .timer 2 fun _ => true] ++ start "h1" 3 77 ++
    [.signal 4 1 1 0 sigStop fun _ => true, .signal 4 1 1 0 sigStop fun _ => true] ++
    exchange "h1" 5 ++ exchange "h1" 6

theorem queueCounters_ne_recount :
    (runOf smallConf (fun _ _ => true) twoStops).map (fun s =>
        ((s.mbd.queues "normal").numRun, (recountQueue s.mbd "normal").numRun)) = some (-1, 0) ∧
      ¬ ∀ (conf : Conf) (s : System), Reachable conf anyStep s → ∀ q k,
        (s.mbd.queues q).count k = (recountQueue s.mbd q).count k := by
  refine ⟨by decide +kernel, fun equal => ?_⟩
  obtain ⟨s, executed, differ⟩ : ∃ s ∈ runOf smallConf (fun _ _ => true) twoStops,
      (s.mbd.queues "normal").numRun ≠ (recountQueue s.mbd "normal").numRun := by
    decide +kernel
  exact differ (equal smallConf s (reachable_of_runOf executed) "normal" .numRun)

/-! ### Exclusive jobs -/

structure RunsOn (m : MbdState) (h : HostName) (j : JobId) (job : JobData) : Prop where
  running : j ∈ m.run
  found : m.jobs j = some job
  uses : h ∈ job.hosts

theorem RunsOn.occupies {m : MbdState} {h : HostName} {j : JobId} {job : JobData}
    (listed : Listed m) (runs : RunsOn m h j job) : Occupies m h j job.flags.exclusive :=
  ⟨job, runs.found, (listed.mem_iff runs.found .run).mp runs.running, runs.uses, rfl⟩

theorem occupies_iff_runsOn {m : MbdState} {h : HostName} {j : JobId} {x : Bool}
    (listed : Listed m) : Occupies m h j x ↔ ∃ job, RunsOn m h j job ∧ job.flags.exclusive = x := by
  constructor
  · rintro ⟨job, found, on, uses, asked⟩
    exact ⟨job, ⟨(listed.mem_iff found .run).mpr on, found, uses⟩, asked⟩
  · rintro ⟨job, runs, rfl⟩
    exact runs.occupies listed

theorem initial_exclusivity (conf : Conf) : Exclusivity (initial conf).mbd where
  alone := fun ⟨job, found, _⟩ => absurd found (Option.some_ne_none job).symm
  marked := fun _ =>
    ⟨nofun, fun ⟨_, job, found, _⟩ => absurd found (Option.some_ne_none job).symm⟩

theorem Reachable.exclusivity (reached : Reachable conf (Legibly guard) s) : Exclusivity s.mbd := by
  let shared (m : MbdState) : Prop := HostBalanced conf .numJobs m ∧ Exclusivity m
  suffices both : shared s.mbd from both.2
  refine Sound.mbd_invariant shared (fun _ => allows_anyReport _ _)
    ⟨initial_hostBalanced conf .numJobs, initial_exclusivity conf⟩ ?acted ?registered ?restarted
    (fun held => ⟨held.1, held.2.congr (fun _ _ _ => Iff.rfl) fun _ => rfl⟩)
    (sound_initial conf) reached
  case acted =>
    intro m m' wf ⟨balanced, exclusive⟩ effect
    exact ⟨effect.hostBalanced wf balanced (.inl rfl), effect.exclusivity wf balanced exclusive⟩
  case registered =>
    intro s env uid gid request m' _ wf ⟨balanced, exclusive⟩ registers
    exact ⟨registers.hostBalanced wf balanced, registers.exclusivity exclusive⟩
  case restarted =>
    intro s kept m' _ sound ⟨balanced, exclusive⟩ replayed
    exact ⟨restart_hostBalanced sound.wf sound.recoverable sound.saved replayed balanced,
      restart_exclusivity sound.wf sound.recoverable sound.saved replayed exclusive⟩

/--
As long as every restart can read its whole manifest, an exclusive job on the
running list is alone on every host it uses, and a host is marked exactly when such
a job uses it.
-/
theorem hosts_exclusive (reached : Reachable conf (Legibly anyStep) s) (h : HostName) :
    (∀ j job, RunsOn s.mbd h j job → job.flags.exclusive = true →
      ∀ i other, RunsOn s.mbd h i other → i = j) ∧
    ((s.mbd.hosts h).exclusive = true ↔
      ∃ j job, RunsOn s.mbd h j job ∧ job.flags.exclusive = true) := by
  have listed := reached.sound.wf.toListed
  have exclusive := reached.exclusivity
  constructor
  · intro j job runs asked i other shares
    exact exclusive.alone (asked ▸ runs.occupies listed) (shares.occupies listed)
  · rw [exclusive.marked h]
    exact exists_congr fun j => occupies_iff_runsOn listed

theorem hosts_exclusive_alone :
    ∃ s, Reachable smallConf (Legibly anyStep) s ∧ (s.mbd.hosts "h1").exclusive = true ∧
      ∃ j job, RunsOn s.mbd "h1" j job ∧ job.flags.exclusive = true := by
  obtain ⟨s, executed, marked⟩ : ∃ s ∈ runOf smallConf (rereading fun _ _ => true)
      (join "h1" 5 ++
        [submitAt 1 { plainRequest with flags := { JobFlags.none with exclusive := true } },
          .timer 2 fun _ => true]), (s.mbd.hosts "h1").exclusive = true := by decide +kernel
  have reached := legibly_of_runOf executed
  exact ⟨s, reached, marked, (hosts_exclusive reached "h1").2.mp marked⟩

/-- The name of the third job starts the second one on the host of the first. -/
def forgedStart : List Label :=
  join "h1" 5 ++
    [submitAt 1 { plainRequest with flags := { JobFlags.none with exclusive := true } },
      .timer 2 fun _ => true,
      submitAt 3 plainRequest,
      submitAt 4 { plainRequest with
        name := forgedName "JOB_START 1 3 2 1 1 0 \"\" \"\" \"h1" },
      .mbdRestart fun _ => 0]

theorem hosts_not_exclusive :
    (runOf smallConf (fun _ _ => true) forgedStart).map
        (fun s => (s.mbd.run, (s.mbd.jobs 1).map JobData.hosts, (s.mbd.jobs 2).map JobData.hosts,
          (s.mbd.jobs 1).map fun job => job.flags.exclusive)) =
          some ([1, 2], some ["h1"], some ["h1"], some true) ∧
      ¬ ∀ (conf : Conf) (s : System), Reachable conf anyStep s → ∀ h j job,
        RunsOn s.mbd h j job → job.flags.exclusive = true →
          ∀ i other, RunsOn s.mbd h i other → i = j := by
  refine ⟨by decide +kernel, fun always => ?_⟩
  obtain ⟨s, executed, first, second, job, found, hosts, exclusive, other, known, shared⟩ :
      ∃ s ∈ runOf smallConf (fun _ _ => true) forgedStart, 1 ∈ s.mbd.run ∧ 2 ∈ s.mbd.run ∧
        ∃ job ∈ s.mbd.jobs 1, "h1" ∈ job.hosts ∧ job.flags.exclusive = true ∧
          ∃ other ∈ s.mbd.jobs 2, "h1" ∈ other.hosts := by
    decide +kernel
  exact absurd (always smallConf s (reachable_of_runOf executed) "h1" 1 job ⟨first, found, hosts⟩
    exclusive 2 other ⟨second, known, shared⟩) (by decide)

end LavaLite.Cluster
