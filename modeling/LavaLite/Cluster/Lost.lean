import LavaLite.Cluster.Soundness
import LavaLite.Cluster.Handlers
import LavaLite.Mbd.Lost

/-
Starting mbd on an old manifest with a new configuration, and the jobs that this start
could not rebuild in everything mbd does after it.
-/

namespace LavaLite.Cluster

open Base Batch Mbd Sbd Kernel

theorem narrated_of_reachable {conf : Conf} {s : System}
    (reached : Reachable conf (Legibly anyStep) s) : Narrated s.mbd := by
  refine Sound.mbd_invariant Narrated (fun _ => allows_anyReport _ _) ?start ?acted ?registered
    ?restarted ?cleared (sound_initial conf) reached
  case start =>
    constructor
    intro j
    exact ⟨none, rfl, (fun _ isStory => by cases isStory), fun _ isJob => by cases isJob⟩
  case acted => exact fun wf narrated effect => effect.narrated narrated wf
  case registered => exact fun _ wf narrated registers => registers.narrated wf narrated
  case restarted =>
    exact fun _ sound narrated replayed => (sound.restored replayed).narrated sound.saved narrated
  case cleared => exact fun narrated => narrated.congr rfl rfl (Int.le_refl _)

/--
A manifest of a run under one configuration is replayed under another without a failed
assertion, and every job of it comes back or is marked, exactly when it withstands it.
-/
theorem startsOver_iff_withstands {written read : Conf} {s : System}
    (reached : Reachable written (Legibly anyStep) s) (legible : Legible s.mbd)
    (marks : ClosedMarks) :
    StartsOver read marks s.mbd.manifest s.mbd.seqFile ↔ Withstands read s.mbd.manifest := by
  have narrated := narrated_of_reachable reached
  choose stories told settled _ using narrated.told
  have ends : ∀ j s, stories j = some s → s.Settled := fun j s isStory => (settled j s isStory).1
  constructor
  · exact fun starts => starts.withstands legible told ends
  · exact fun withstands => withstands.startsOver legible told ends

def fewerHostsConf : Conf :=
  { smallConf with
    queues := [{ name := "normal", priority := 1, hosts := ["h2"], users := [] }]
    queues_nodup := by decide
    queue_hosts := by decide
    queue_names_fit := by decide }

/-- The first of two jobs runs on the host that will leave the queue. -/
def oneOfTwoRuns : List Label :=
  join "h1" 5 ++ [submitAt 1 plainRequest, .timer 2 fun _ => true] ++ start "h1" 3 77 ++
    [submitAt 4 plainRequest]

instance decidableWithstands (conf : Conf) (manifest : List Event) :
    Decidable (Withstands conf manifest) :=
  decidable_of_iff
    ((∀ j ∈ manifest.map recordJob, ∃ fated ∈ fate conf manifest j,
      fated.1.listId = .finish ∨ fated.2.queue ≠ none) ∧
    (∀ j ∈ manifest.map recordJob, ∀ fated ∈ fate conf manifest j, Charges fated →
      ∀ h ∈ fated.1.hosts, fated.1.numGpus.toNat ≤ (conf.hostConf h).gpuIds.length) ∧
    ∀ i ∈ manifest.map recordJob, ∀ j ∈ manifest.map recordJob,
      ∀ fated ∈ fate conf manifest i, ∀ other ∈ fate conf manifest j, Charges fated →
        Charges other → ∀ h ∈ fated.1.hosts, h ∈ other.1.hosts → i = j)
    ⟨fun ⟨followed, enough, alone⟩ => ⟨⟨enough, alone⟩, followed⟩,
      fun withstands => ⟨withstands.followed, withstands.enough, withstands.alone⟩⟩

-- the configuration under which a manifest was written reads it
example : (runOf smallConf (fun _ _ => true) oneOfTwoRuns).any (fun s =>
    decide (Withstands smallConf s.mbd.manifest)) = true := by
  decide +kernel

def marksFirst (conf : Conf) (m : MbdState) : Bool :=
  (recover conf m).any fun m' =>
    (m'.jobs 1).any (fun job => job.state = .broken) &&
      (m'.jobs 2).any (fun job => job.state = .pending)

theorem startsOver_iff_withstands_fewerHosts :
    ∃ s, Reachable smallConf (Legibly anyStep) s ∧ marksFirst fewerHostsConf s.mbd = true ∧
      StartsOver fewerHostsConf s.mbd.marks s.mbd.manifest s.mbd.seqFile := by
  obtain ⟨s, ran, legible, marks, withstands⟩ :
      ∃ s ∈ runOf smallConf (rereading fun _ _ => true) oneOfTwoRuns, Legible s.mbd ∧
        marksFirst fewerHostsConf s.mbd = true ∧ Withstands fewerHostsConf s.mbd.manifest := by
    decide +kernel
  have reached := legibly_of_runOf ran
  exact ⟨s, reached, marks, (startsOver_iff_withstands reached legible s.mbd.marks).mpr withstands⟩

def otherQueueConf : Conf :=
  { smallConf with
    queues := [{ name := "other", priority := 1, hosts := ["h1", "h2"], users := [] }]
    defaultQueue := "other"
    queues_nodup := by decide
    queue_hosts := by decide
    queue_names_fit := by decide }

def noGpusConf : Conf :=
  { smallConf with
    hosts :=
      [ { name := "h1", totalCpu := 4, totalMemMb := 100, totalStorageMb := 100,
          gpuModel := "", gpuIds := [] },
        { name := "h2", totalCpu := 4, totalMemMb := 100, totalStorageMb := 100,
          gpuModel := "", gpuIds := [] } ]
    hosts_nodup := by decide
    sizes_fit := by decide
    queue_hosts := by decide }

/-- A manifest of a run under the first configuration at which a start under the other fails. -/
def FailsUnder (written read : Conf) : Prop :=
  ∃ s, Reachable written (Legibly anyStep) s ∧ Legible s.mbd ∧
    jobsReplay read s.mbd.marks s.mbd.manifest s.mbd.seqFile = none ∧
      ¬ StartsOver read s.mbd.marks s.mbd.manifest s.mbd.seqFile

theorem failsUnder_of_any {written read : Conf} (labels : List Label)
    (evaluated : (runOf written (rereading fun _ _ => true) labels).any (fun s =>
      decide (Legible s.mbd) && (recover read s.mbd).isNone) = true) : FailsUnder written read := by
  obtain ⟨s, ran, evaluated⟩ := (Option.any_eq_true _ _).mp evaluated
  simp only [Bool.and_eq_true, decide_eq_true_eq, Option.isNone_iff_eq_none] at evaluated
  obtain ⟨legible, stops⟩ := evaluated
  have fails := (legible.jobsReplay read).trans stops
  refine ⟨s, legibly_of_runOf ran, legible, fails, ?_⟩
  rintro ⟨m', starts, _⟩
  rw [fails] at starts
  cases starts

def dispatched (request : WireJobSubmit) : List Label :=
  join "h1" 5 ++ [submitAt 1 request, .timer 2 fun _ => true]

/-- A waiting job without its queue, a job that came back from a lost host, a job with devices. -/
theorem start_fails_reconfigured :
    FailsUnder smallConf otherQueueConf ∧ FailsUnder smallConf fewerHostsConf ∧
      FailsUnder smallConf noGpusConf := by
  refine ⟨failsUnder_of_any [submitAt 1 plainRequest] ?_,
    failsUnder_of_any (dispatched plainRequest ++ exchange "h1" 3) ?_,
    failsUnder_of_any (dispatched { plainRequest with numGpus := 1 }) ?_⟩
  · decide +kernel
  · decide +kernel
  · decide +kernel

/-! ### Lost jobs -/

/--
The steps after the start: no sbd reports on the job, and nobody who may signal the job
stops it while it is lost.
-/
def Undisturbed (conf : Conf) (j : JobId) (s : System) : Label → Prop
  | .signal _ uid jobId arrayIndex sig _ =>
    isStopSignal sig → j ∈ namedJobs s.mbd jobId arrayIndex →
      ∀ job, s.mbd.jobs j = some job → Lost job → job.uid ≠ uid ∧ conf.isManager uid = false
  | .mbdRead h _ _ => ∀ msg rest, (s.links h).fromSbd = msg :: rest → reportJob msg ≠ j
  | _ => True

variable {conf : Conf} {s s' : System} {label : Label} {m m' : MbdState} {j : JobId} {owner : Nat}
  {phase : Phase} {fits : Option JobData → Prop}

/-- What a step makes of a job in its phase: a lost one is not freed by a single step. -/
def Advances (conf : Conf) (j : JobId) (owner : Nat) (phase : Phase) (m : MbdState) : Prop :=
  ∃ next, (phase = .lost → next ≠ .gone) ∧ Pinned conf j (Fate owner next) m

theorem advances_of_pinned (pinned : Pinned conf j (Fate owner phase) m) :
    Advances conf j owner phase m :=
  ⟨phase, fun lost => by subst lost; nofun, pinned⟩

theorem Handles.advances (handles : Handles conf s label m)
    (allowed : Legibly (Undisturbed conf j) s label)
    (pinned : Pinned conf j (Fate owner phase) s.mbd) : Advances conf j owner phase m := by
  cases handles with
  | submit done => exact advances_of_pinned ((jobRegister_spec pinned.toIdsCounted done).pinned pinned)
  | signal done =>
    obtain ⟨next, ends, after⟩ := jobsSignal_lasts pinned (fun stop named lost => by
      subst lost
      obtain ⟨job, found, isLost, owns, _⟩ := pinned.entry.exists_doomed nofun
      obtain ⟨other, notManager⟩ := allowed.1 stop named job found isLost
      exact ⟨owns ▸ other, notManager⟩) done
    refine ⟨next, fun lost => ?_, after⟩
    rcases ends with rfl | ⟨_, rfl⟩
    · subst lost
      nofun
    · nofun
  | @move _ _ i _ _ _ done =>
    by_cases other : i = j
    · subst other
      rw [jobMove_doomed pinned done]
      exact advances_of_pinned pinned
    · exact advances_of_pinned (pinned.acts (jobMove_acts done) other)
  | @priority _ _ i _ _ _ done =>
    by_cases other : i = j
    · subst other
      exact advances_of_pinned (jobPriority_doomed pinned done)
    · exact advances_of_pinned (pinned.acts (jobPriority_acts done) other)
  | timer done =>
    obtain ⟨m₁, scheduled, rebuilt⟩ := Option.bind_eq_some_iff.mp done
    have between := schedule_doomed pinned scheduled
    unfold maybeRebuildManifest at rebuilt
    split at rebuilt
    · cases rebuilt
      exact advances_of_pinned between
    · obtain ⟨next, stays, after⟩ := between.compacted rebuilt
      exact ⟨next, fun lost => by rw [stays lost]; nofun, after⟩
  | read head done =>
    exact advances_of_pinned (pinned.acts (mbdHandle_acts done) (allowed.1 _ _ head))
  | restart done =>
    rw [Legible.jobsReplay allowed.2] at done
    exact advances_of_pinned (pinned.restarted done)
  | other touches =>
    by_cases same : (0 : JobId) = j
    · exact advances_of_pinned (pinned.touches (touches 1) (same ▸ by decide))
    · exact advances_of_pinned (pinned.touches (touches 0) same)

theorem step_advances (taken : step conf s label = some s')
    (allowed : Legibly (Undisturbed conf j) s label)
    (pinned : Pinned conf j (Fate owner phase) s.mbd) : Advances conf j owner phase s'.mbd := by
  obtain ⟨m, handles, outbox, same⟩ := step_handles taken
  obtain ⟨next, stays, after⟩ := handles.advances allowed pinned
  refine ⟨next, stays, same ▸ after.congr rfl (fun id => ?_) rfl (Int.le_refl _) after.saved.2
    (Int.le_refl _)⟩
  cases id <;> rfl

theorem Leads.doomed {t : System} (run : Leads conf (Legibly (Undisturbed conf j)) s t)
    (pinned : Pinned conf j (Fate owner phase) s.mbd) :
    ∃ phase, Pinned conf j (Fate owner phase) t.mbd := by
  refine Steps.invariant (fun t => ∃ phase, Pinned conf j (Fate owner phase) t.mbd) ⟨_, pinned⟩ ?_ run
  rintro t label t' ⟨phase, before⟩ allowed taken
  obtain ⟨next, _, after⟩ := step_advances taken allowed before
  exact ⟨next, after⟩

theorem pinned_of_marked {written read : Conf} {marks : ClosedMarks} {job : JobData}
    (reached : Reachable written (Legibly anyStep) s) (legible : Legible s.mbd)
    (started : jobsReplay read marks s.mbd.manifest s.mbd.seqFile = some m)
    (found : m.jobs j = some job) (marked : job.state = .orphan ∨ job.state = .broken) :
    Pinned read j (Fate job.uid .lost) m := by
  obtain ⟨current, told, settled, _⟩ := (narrated_of_reachable reached).told j
  have sound := reached.sound
  have again : recover read { s.mbd with marks := marks } = some m :=
    (Legible.jobsReplay (m := { s.mbd with marks := marks }) legible read).symm.trans started
  have here : history read s.mbd.manifest j = some (some job) :=
    ((started_of_replay again).told j).trans (congrArg some found)
  have replayed := Follows.absent.replayJobs read told
  rw [← standingOf, ← history, here] at replayed
  generalize standing : standingOf read s.mbd.manifest j = left at replayed
  cases replayed with
  | goes follows =>
    obtain ⟨story, st, rfl, rfl, stands⟩ := follows.of_job
    have lost := stands.lost marked
    obtain ⟨numHosts, room⟩ := stands.room
    refine pinned_of_recover (m := { s.mbd with marks := marks }) (fun entry told => ?_) ?_ ?_
      sound.wf.saved.1 again
    · cases here.symm.trans told
      exact Doomed.fate ⟨lost, rfl, numHosts ▸ room⟩
    · exact Follows.absent.proper told standing
    · rcases (settled story rfl).2 with saved | known
      · exact saved
      · obtain ⟨job', known⟩ := Option.ne_none_iff_exists'.mp known
        exact sound.saved known

/-- Neither started nor about to be, or terminated. -/
def Condemned (entry : Option JobData) : Prop :=
  ∃ job, entry = some job ∧ (Lost job ∨ Killed job)

def startedOver (s : System) (m : MbdState) : System :=
  { s with
    mbd := m
    links := fun h => (s.links h).mbdGone 0 }

/--
A job that a start under a new configuration has marked is not dispatched in anything that
follows, if it is not stopped: it is lost, or it was terminated and may have been freed.
From the lost state every step leads to the lost state or to the end.
-/
theorem lost_until_killed {written read : Conf} {s t : System} {marks : ClosedMarks} {m : MbdState}
    {j : JobId} {job : JobData} (reached : Reachable written (Legibly anyStep) s)
    (legible : Legible s.mbd)
    (started : jobsReplay read marks s.mbd.manifest s.mbd.seqFile = some m)
    (found : m.jobs j = some job) (marked : job.state = .orphan ∨ job.state = .broken)
    (run : Leads read (Legibly (Undisturbed read j)) (startedOver s m) t) :
    j ∉ t.mbd.run ∧ (t.mbd.jobs j = none ∨ Condemned (t.mbd.jobs j)) ∧
      ((∃ job, t.mbd.jobs j = some job ∧ Lost job) → ∀ label t',
        Legibly (Undisturbed read j) t label → step read t label = some t' →
          Condemned (t'.mbd.jobs j)) := by
  have pinned : Pinned read j (Fate job.uid .lost) (startedOver s m).mbd :=
    pinned_of_marked reached legible started found marked
  have condemned : ∀ {phase : Phase} {job' : JobData}, Doomed job.uid phase job' →
      Lost job' ∨ Killed job' := by
    intro phase job' doomed
    have fits := doomed.fits
    cases phase with
    | lost => exact .inl fits
    | killed => exact .inr fits
    | gone => cases fits
  obtain ⟨phase, last⟩ := Leads.doomed run pinned
  refine ⟨?_, ?_, ?_⟩
  · apply List.count_eq_zero.mp
    refine (last.listed .run).trans ?_
    cases found : t.mbd.jobs j with
    | none => rfl
    | some job' =>
      rcases condemned (last.doomed found) with isLost | isKilled
      · exact if_neg (by rw [isLost.1]; decide)
      · exact if_neg (by rw [isKilled.1]; decide)
  · cases found : t.mbd.jobs j with
    | none => exact .inl rfl
    | some job' => exact .inr ⟨job', rfl, condemned (last.doomed found)⟩
  · rintro ⟨job', found, isLost⟩ label t' allowed taken
    have fits := (last.doomed found).fits
    obtain ⟨next, stays, after⟩ := step_advances taken allowed last
    cases phase with
    | lost =>
      obtain ⟨job'', found, doomed⟩ := after.entry.exists_doomed (stays rfl)
      exact ⟨job'', found, condemned doomed⟩
    | killed => exact absurd (isLost.1.symm.trans fits.1) (by decide)
    | gone => cases fits

def unstopped (_ : System) : Label → Bool
  | .signal _ _ _ _ sig _ => !isStopSignal sig
  | .mbdRead _ _ _ => false
  | _ => true

theorem undisturbed_of_unstopped (fine : unstopped s label = true) :
    Undisturbed conf j s label := by
  cases label with
  | signal now uid jobId arrayIndex sig sendOk =>
    intro stop
    rw [unstopped, stop] at fine
    cases fine
  | mbdRead => cases fine
  | _ => trivial

def marksAndRuns (labels : List Label) (check : System → Label → Bool) (ends : JobState) : Bool :=
  (runOf smallConf (rereading fun _ _ => true) oneOfTwoRuns).any fun s =>
    decide (Legible s.mbd) &&
      (recover fewerHostsConf s.mbd).any fun m =>
        (m.jobs 1).any (fun job => job.state = .broken) &&
          (execute (step fewerHostsConf) (rereading check) (startedOver s m) labels).any fun t =>
            (t.mbd.jobs 1).any fun job => job.state = ends

theorem run_of_marksAndRuns {labels : List Label} {check : System → Label → Bool} {ends : JobState}
    {guard : System → Label → Prop} (implies : ∀ {s label}, check s label = true → guard s label)
    (evaluated : marksAndRuns labels check ends = true) :
    ∃ s m t job, Reachable smallConf (Legibly anyStep) s ∧ Legible s.mbd ∧
      jobsReplay fewerHostsConf s.mbd.marks s.mbd.manifest s.mbd.seqFile = some m ∧
      m.jobs 1 = some job ∧ job.state = .broken ∧
      Leads fewerHostsConf (Legibly guard) (startedOver s m) t ∧
      (t.mbd.jobs 1).any (fun job => job.state = ends) = true := by
  obtain ⟨s, ran, evaluated⟩ := (Option.any_eq_true _ _).mp evaluated
  obtain ⟨legible, evaluated⟩ := Bool.and_eq_true_iff.mp evaluated
  obtain ⟨m, recovered, evaluated⟩ := (Option.any_eq_true _ _).mp evaluated
  obtain ⟨marked, evaluated⟩ := Bool.and_eq_true_iff.mp evaluated
  obtain ⟨job, found, broken⟩ := (Option.any_eq_true _ _).mp marked
  obtain ⟨t, executed, last⟩ := (Option.any_eq_true _ _).mp evaluated
  have legible := of_decide_eq_true legible
  refine ⟨s, m, t, job, legibly_of_runOf ran, legible, ?_, found, of_decide_eq_true broken, ?_, last⟩
  · exact (legible.jobsReplay fewerHostsConf).trans recovered
  · exact steps_of_execute (fun _ _ _ => legibly_of_rereading implies) executed

/-- A cycle, another start and a kill. -/
theorem lost_until_killed_byOwner :
    ∃ s m t, Leads fewerHostsConf (Legibly (Undisturbed fewerHostsConf 1)) (startedOver s m) t ∧
      (t.mbd.jobs 1).any (fun job => job.state = .exited) = true ∧ 1 ∉ t.mbd.run ∧
        (t.mbd.jobs 1 = none ∨ Condemned (t.mbd.jobs 1)) := by
  have evaluated : marksAndRuns (join "h2" 6 ++ [.timer 5 fun _ => true, .mbdRestart fun _ => 0,
      .signal 6 1 1 0 sigKill fun _ => true]) unstopped .exited = true := by
    decide +kernel
  obtain ⟨s, m, t, job, reached, legible, started, found, broken, run, last⟩ :=
    run_of_marksAndRuns undisturbed_of_unstopped evaluated
  obtain ⟨away, isOver, _⟩ := lost_until_killed reached legible started found (.inr broken) run
  exact ⟨s, m, t, run, last, away, isOver⟩

def unreported (_ : System) : Label → Bool
  | .mbdRead _ _ _ => false
  | _ => true

/-- The owner stops and continues the broken job, and the next cycle starts it. -/
theorem lost_dispatched_again :
    ∃ s m t job, Reachable smallConf (Legibly anyStep) s ∧ Legible s.mbd ∧
      jobsReplay fewerHostsConf s.mbd.marks s.mbd.manifest s.mbd.seqFile = some m ∧
      m.jobs 1 = some job ∧ job.state = .broken ∧
      Leads fewerHostsConf (Legibly fun s label => unreported s label = true) (startedOver s m) t ∧
      (t.mbd.jobs 1).any (fun job => job.state = .running) = true := by
  have evaluated : marksAndRuns (join "h2" 6 ++ [.signal 5 1 1 0 sigStop fun _ => true,
      .signal 6 1 1 0 sigCont fun _ => true, .timer 7 fun _ => true]) unreported .running = true := by
    decide +kernel
  exact run_of_marksAndRuns id evaluated

end LavaLite.Cluster
