import LavaLite.Cluster.Recovery
import LavaLite.Cluster.Presence
import LavaLite.Mbd.Sidecar

/-
The system with the files of its jobs.  A submission writes them, a restart leaves them, and a
scheduling cycle reads those of the jobs it dispatches; what every client asked for is kept on
the side.
-/

namespace LavaLite.Cluster

open Base Batch Mbd Kernel Option

structure Ask where
  request : WireJobSubmit
  files : SubmitFiles

/-- The system, the files, and the request each id was last given out for. -/
structure FiledSystem where
  system : System
  disk : Disk
  asked : JobId → Option Ask

def Label.fileless : Label → Bool
  | .submit _ _ _ _ | .timer _ _ => false
  | _ => true

/-- What can happen next, with the files of a submission and the answers of the disk. -/
inductive FiledLabel where
  | submit (env : SubmitEnv) (io : JobId → JobIo) (uid gid : Nat) (request : WireJobSubmit)
      (files : SubmitFiles)
  | timer (now : Time) (sendOk : JobId → Bool) (stale : Int)
  | other (label : Label) (fileless : label.fileless = true)

def FiledLabel.plain (conf : Conf) (dir : List Char) : FiledLabel → Label
  | .submit env io uid gid request files =>
    .submit (filedEnv dir io uid gid (normalizeSubmit conf request) files env) uid gid request
  | .timer now sendOk _ => .timer now sendOk
  | .other label _ => label

def filedStep (conf : Conf) (dir : List Char) (s : FiledSystem) : FiledLabel → Option FiledSystem
  | .submit env io uid gid request files =>
    if 0 < env.now then
      (jobRegisterFiles conf dir env io s.system.mbd uid gid request files s.disk).map
        fun ((m, _), disk) =>
          { system := afterMbd s.system m
            disk := disk
            asked := fun j =>
              if (m.jobs j).isSome ∧ (s.system.mbd.jobs j).isNone then some ⟨request, files⟩
              else s.asked j }
    else none
  | .timer now sendOk stale =>
    if 0 < now then
      ((scheduleFiles conf dir s.disk stale s.system.mbd now sendOk).bind
        (maybeRebuildManifest conf)).map fun m => { s with system := afterMbd s.system m }
    else none
  | .other label _ => (step conf s.system label).map fun t => { s with system := t }

def filedInitial (conf : Conf) : FiledSystem :=
  { system := initial conf
    disk := fun _ => none
    asked := fun _ => none }

def FiledReachable (conf : Conf) (dir : List Char) (guard : FiledSystem → FiledLabel → Prop) :
    FiledSystem → Prop :=
  Steps (filedStep conf dir) guard (filedInitial conf)

def rereadsAll (conf : Conf) (dir : List Char) (s : FiledSystem) (label : FiledLabel) : Prop :=
  (label.plain conf dir).Rereads s.system

/-- The request has a script, and a host count that is read back from its record. -/
def FiledLabel.Sensible (conf : Conf) : FiledLabel → Prop
  | .submit _ _ _ _ request files => files.script ≠ [] ∧ HostsRecorded conf request
  | _ => True

/-- The same, and every submission is of a script and asks for a host. -/
def sensibly (conf : Conf) (dir : List Char) (s : FiledSystem) (label : FiledLabel) : Prop :=
  label.Sensible conf ∧ rereadsAll conf dir s label

variable {conf : Conf} {dir : List Char} {s s' : FiledSystem} {label : FiledLabel}
  {guard : FiledSystem → FiledLabel → Prop}

theorem filedStep_plain (taken : filedStep conf dir s label = some s') :
    step conf s.system (label.plain conf dir) = some s'.system := by
  cases label with
  | submit env io uid gid request files =>
    obtain ⟨clock, taken⟩ := ite_none_right_eq_some.mp taken
    obtain ⟨⟨⟨m, answer⟩, disk⟩, done, rfl⟩ := map_eq_some_iff.mp taken
    obtain ⟨_, registered, same⟩ := map_eq_some_iff.mp done
    cases same
    have started : 0 < (filedEnv dir io uid gid (normalizeSubmit conf request) files env).now :=
      clock
    rw [FiledLabel.plain, step, if_pos started, registered]
    rfl
  | timer now sendOk stale =>
    obtain ⟨clock, taken⟩ := ite_none_right_eq_some.mp taken
    obtain ⟨m, done, rfl⟩ := map_eq_some_iff.mp taken
    obtain ⟨m₁, scheduled, rebuilt⟩ := bind_eq_some_iff.mp done
    rw [FiledLabel.plain, step, if_pos clock, mbdTimer, schedule_of_files scheduled]
    exact congrArg (Option.map (afterMbd s.system)) rebuilt
  | other label fileless =>
    obtain ⟨t, moved, rfl⟩ := map_eq_some_iff.mp taken
    exact moved

theorem FiledReachable.plain {plainly : System → Label → Prop}
    (implies : ∀ {s label}, guard s label → plainly s.system (label.plain conf dir))
    (reached : FiledReachable conf dir guard s) : Reachable conf plainly s.system := by
  induction reached with
  | refl => exact .refl
  | tail _ last ih =>
    obtain ⟨label, may, taken⟩ := last
    exact ih.tail ⟨label.plain conf dir, implies may, filedStep_plain taken⟩

theorem FiledReachable.legibly (reached : FiledReachable conf dir (rereadsAll conf dir) s) :
    Reachable conf (Legibly anyStep) s.system :=
  reached.plain fun rereads => ⟨trivial, rereads⟩

theorem FiledReachable.recorded (reached : FiledReachable conf dir (sensibly conf dir) s) :
    Reachable conf (Legibly (hostsRecorded conf)) s.system := by
  refine reached.plain fun {s label} may => ⟨?_, may.2⟩
  cases label with
  | submit env io uid gid request files => exact may.1.2
  | timer now sendOk stale => trivial
  | other label fileless =>
    cases label with
    | submit => cases fileless
    | _ => trivial

/-! ### The files of the known jobs -/

theorem step_known {t t' : System} {plain : Label} {j : JobId} (sound : Sound conf t)
    (rereads : plain.Rereads t) (taken : step conf t plain = some t')
    (silent : ∀ env uid gid request, plain ≠ .submit env uid gid request)
    (known : (t'.mbd.jobs j).isSome = true) : (t.mbd.jobs j).isSome = true := by
  cases mbdMoves_of_step sound (allows_anyReport _ _) (fun _ _ => trivial) rereads taken with
  | acts effects result =>
    rw [result] at known
    refine effects.keeps (fun m => (m.jobs j).isSome = true → (t.mbd.jobs j).isSome = true)
      (fun {m m'} before effect later => ?_) (fun known => known) known
    obtain ⟨job, found⟩ := isSome_iff_exists.mp later
    obtain ⟨old, was, _⟩ := effect.known.2 j job found
    exact before (isSome_iff_exists.mpr ⟨old, was⟩)
  | registers => exact absurd rfl (silent _ _ _ _)
  | restarts replayed =>
    obtain ⟨job, found⟩ := isSome_iff_exists.mp known
    obtain ⟨live, was, _⟩ := (sound.restored replayed).mirror found
    exact isSome_iff_exists.mpr ⟨live, was⟩

/-- Every known job has its request on the side and its files on the disk. -/
def FilesKept (conf : Conf) (dir : List Char) (s : FiledSystem) : Prop :=
  ∀ j, (s.system.mbd.jobs j).isSome = true → ∃ ask, s.asked j = some ask ∧
      FilesSaved dir s.disk j (normalizeSubmit conf ask.request) ask.files

theorem FilesKept.step (kept : FilesKept conf dir s) (sound : Sound conf s.system)
    (rereads : rereadsAll conf dir s label) (taken : filedStep conf dir s label = some s') :
    FilesKept conf dir s' := by
  intro j known
  have moved := filedStep_plain taken
  cases label with
  | submit env io uid gid request files =>
    obtain ⟨_, taken⟩ := ite_none_right_eq_some.mp taken
    obtain ⟨⟨⟨m, answer⟩, disk⟩, done, rfl⟩ := map_eq_some_iff.mp taken
    obtain ⟨untouched, saved⟩ := jobRegisterFiles_spec done
    by_cases before : (s.system.mbd.jobs j).isSome = true
    · obtain ⟨ask, asked, was⟩ := kept j before
      obtain ⟨job, found⟩ := isSome_iff_exists.mp before
      have low := sound.wf.idsCounted.ids found
      refine ⟨ask, ?_, was.congr fun file p isPath => untouched low isPath⟩
      have old : ¬ ((m.jobs j).isSome = true ∧ (s.system.mbd.jobs j).isNone = true) := by
        rw [found]
        exact fun new => absurd new.2 Bool.false_ne_true
      exact (if_neg old).trans asked
    · have new : (m.jobs j).isSome = true ∧ (s.system.mbd.jobs j).isNone = true :=
        ⟨known, by simpa using before⟩
      exact ⟨⟨request, files⟩, if_pos new, (saved known).resolve_left before⟩
  | timer now sendOk stale =>
    obtain ⟨_, taken⟩ := ite_none_right_eq_some.mp taken
    obtain ⟨m, done, rfl⟩ := map_eq_some_iff.mp taken
    exact kept j (step_known sound rereads moved (fun _ _ _ _ => nofun) known)
  | other plain fileless =>
    obtain ⟨t, done, rfl⟩ := map_eq_some_iff.mp taken
    refine kept j (step_known sound rereads moved ?_ known)
    rintro env uid gid request rfl
    cases fileless

theorem FiledReachable.filesKept (reached : FiledReachable conf dir (rereadsAll conf dir) s) :
    FilesKept conf dir s :=
  Steps.invariant_over (fun s => Sound conf s.system) (FilesKept conf dir)
    (fun run => (FiledReachable.legibly run).sound) (fun _ known => by cases known)
    (fun sound kept rereads taken => kept.step sound rereads taken) reached

theorem FiledReachable.scripts (reached : FiledReachable conf dir (sensibly conf dir) s) :
    ∀ j ask, s.asked j = some ask → ask.files.script ≠ [] := by
  refine reached.invariant (fun s => ∀ j ask, s.asked j = some ask → ask.files.script ≠ [])
    (fun _ _ absent => by cases absent) fun {s s' label} before may taken j ask asked => ?_
  cases label with
  | submit env io uid gid request files =>
    obtain ⟨_, taken⟩ := ite_none_right_eq_some.mp taken
    obtain ⟨⟨⟨m, answer⟩, disk⟩, done, rfl⟩ := map_eq_some_iff.mp taken
    dsimp only at asked
    split at asked
    · cases asked
      exact may.1.1
    · exact before j ask asked
  | timer now sendOk stale =>
    obtain ⟨_, taken⟩ := ite_none_right_eq_some.mp taken
    obtain ⟨m, done, rfl⟩ := map_eq_some_iff.mp taken
    exact before j ask asked
  | other plain fileless =>
    obtain ⟨t, done, rfl⟩ := map_eq_some_iff.mp taken
    exact before j ask asked

/-! ### The hosts of the known jobs -/

theorem Reachable.hosted {t : System} (reached : Reachable conf (Legibly (hostsRecorded conf)) t) :
    EveryJob (fun request => 0 < request.res.numHosts) t.mbd := by
  refine Steps.invariant_over
    (fun t => Sound conf t ∧ Remembered conf (SameRoom conf) t.mbd)
    (fun t => EveryJob (fun request => 0 < request.res.numHosts) t.mbd)
    (fun run => ⟨Reachable.sound run, Reachable.sameRoom run⟩) (initial_everyJob conf _)
    (fun {t t' label} base each may taken => ?_) reached
  obtain ⟨sound, remembered⟩ := base
  cases mbdMoves_of_step sound (allows_anyReport _ _) (fun _ _ => trivial) may.2 taken with
  | acts effects result =>
    rw [result]
    have after := effects.keeps (EveryJob _) Effect.everyJob each
    exact after
  | registers done result =>
    rw [result]
    refine done.everyJob (fun {_ _ _ job} commit => ?_) each
    change 0 < job.res.numHosts
    rw [commit.prepared.numHosts]
    exact reservedHosts_pos _
  | restarts replayed =>
    have restored := sound.restored replayed
    intro j job found
    obtain ⟨live, was, _⟩ := restored.mirror found
    obtain ⟨told, history, alike⟩ := remembered.known was
    rw [restored.told j, found] at history
    cases history
    have same : job.res.numHosts = live.res.numHosts := alike.1
    change 0 < job.res.numHosts
    rw [same]
    exact each j live was

/--
Whenever the turn of a job with a plan comes, the sidecar the job was submitted with is read;
mbd gets through the turn exactly when the script is not empty and the job asks for a host,
which is so in every run whose submissions are sensible.
-/
theorem dispatch_survives_iff {conf : Conf} {dir : List Char} {s : FiledSystem}
    (reached : FiledReachable conf dir (rereadsAll conf dir) s) {now : Time}
    {sendOk : JobId → Bool} {j : JobId} {m₁ : MbdState} {freeSlots : Int} {plan : List HostName}
    (comes : TurnComes conf s.system.mbd now sendOk j m₁ freeSlots)
    (planned : plannedHosts conf now m₁ j = some plan) (stale : Int) :
    ∃ ask job, s.asked j = some ask ∧ s.system.mbd.jobs j = some job ∧
      (readSidecar dir s.disk stale j).isSome = true ∧
      readScript dir s.disk j = (if ask.files.script.isEmpty then none else some ask.files.script) ∧
      ((scheduleJobFiles conf dir s.disk stale now sendOk m₁ j freeSlots).isSome = true ↔
        ask.files.script ≠ [] ∧ AsksHost job.res) ∧
      (FiledReachable conf dir (sensibly conf dir) s →
        (scheduleJobFiles conf dir s.disk stale now sendOk m₁ j freeSlots).isSome = true) := by
  obtain ⟨job', queue, found, runnable, built⟩ := plannedHosts_eq_some planned
  obtain ⟨job, known, sameRes⟩ := comes.known found
  obtain ⟨ask, asked, saved⟩ := reached.filesKept j (isSome_iff_exists.mpr ⟨job, known⟩)
  have legibly := reached.legibly
  have anyway : Reachable conf anyStep s.system := legibly.mono fun _ _ _ => trivial
  obtain ⟨once, marked⟩ := comes.marked anyway.namesOnce
  have starts : (scheduleJob conf now sendOk m₁ j freeSlots).isSome = true ↔ AsksHost job'.res :=
    scheduleJob_isSome_iff once marked (legibly.noneOnZero.congr (TurnComes.presence comes)) found runnable built
  have survives : (scheduleJobFiles conf dir s.disk stale now sendOk m₁ j freeSlots).isSome = true ↔
      ask.files.script ≠ [] ∧ AsksHost job.res := by
    have sidecar := saved.readSidecar stale
    rw [← sameRes, ← starts, scheduleJobFiles, planned, opensFiles, sidecar, saved.readScript]
    cases ask.files.script with
    | nil | cons c script => simp
  refine ⟨ask, job, asked, known, saved.readSidecar stale, saved.readScript, survives, ?_⟩
  intro sensible
  refine survives.mpr ⟨sensible.scripts j ask asked, ?_⟩
  have hosts : 0 < job.res.numHosts := sensible.recorded.hosted j job known
  unfold AsksHost settledHosts
  split
  · omega
  · exact hosts

def jobsDir : List Char :=
  "/var/lavalite/jobs".toList

def submitFiles (now : Time) (request : WireJobSubmit) (umask : Nat) (script : String) :
    FiledLabel :=
  .submit { now := now, filesOk := fun _ => true, replyOk := true, junk := fun _ => 0 }
    (fun _ =>
      { mkdir := true
        script := ⟨true, 4096, true, true⟩
        sidecar := ⟨true, 4096, true, true⟩
        chmod := true })
    1 1 request
    { comment := "", inFile := "", outFile := "", errFile := "", cwd := "/home/user",
      command := "true", submitHost := "h1", homeDir := "/home/user", umask := umask, flagBits := 0,
      script := script.toList }

def joinFiled : List FiledLabel :=
  [.other (.connect "h1") rfl, .other (.register "h1" 5) rfl, .other (.sbdRead "h1" .failed true) rfl]

def restartFiled : FiledLabel :=
  .other (.mbdRestart fun _ => 0) rfl

def filedRun (labels : List FiledLabel) : Option FiledSystem :=
  execute (filedStep smallConf jobsDir)
    (fun s label => decide ((label.plain smallConf jobsDir).Rereads s.system))
    (filedInitial smallConf) labels

theorem reachable_of_filedRun {labels : List FiledLabel} (executed : filedRun labels = some s) :
    FiledReachable smallConf jobsDir (rereadsAll smallConf jobsDir) s :=
  steps_of_execute (fun label _ s checked =>
    (of_decide_eq_true checked : (label.plain smallConf jobsDir).Rereads s.system)) executed

theorem dispatch_survives_iff_restarted : ∃ s m₁ freeSlots,
    FiledReachable smallConf jobsDir (rereadsAll smallConf jobsDir) s ∧
    TurnComes smallConf s.system.mbd 3 (fun _ => true) 1 m₁ freeSlots ∧
    (scheduleJobFiles smallConf jobsDir s.disk 0 3 (fun _ => true) m₁ 1 freeSlots).isSome = true := by
  obtain ⟨s, executed, waiting, slots, fits, order, some, script, hosts⟩ :
      ∃ s ∈ filedRun ([submitFiles 1 plainRequest 18 "#!/bin/sh\n", restartFiled] ++ joinFiled),
        s.system.mbd.pend ≠ [] ∧ (markCandidates smallConf s.system.mbd).2 ≠ 0 ∧
        s.system.mbd.pend.length ≤ schedSortBufMax ∧ cycleOrder smallConf s.system.mbd = [1] ∧
        (plannedHosts smallConf 3 (cycleStart smallConf s.system.mbd).1 1).isSome = true ∧
        (∀ ask ∈ s.asked 1, ask.files.script ≠ []) ∧
        ∀ job ∈ s.system.mbd.jobs 1, 0 < settledHosts job.res.machines job.res.numHosts := by
    decide +kernel
  obtain ⟨plan, planned⟩ := isSome_iff_exists.mp some
  have reached := reachable_of_filedRun executed
  have comes : TurnComes smallConf s.system.mbd 3 (fun _ => true) 1
      (cycleStart smallConf s.system.mbd).1 (cycleStart smallConf s.system.mbd).2 := by
    refine ⟨⟨waiting, slots, fits⟩, ?_⟩
    rw [order]
    exact .here
  obtain ⟨ask, job, asked, known, _, _, survives, _⟩ := dispatch_survives_iff reached comes planned 0
  exact ⟨s, _, _, reached, comes, survives.mpr ⟨script ask asked, hosts job known⟩⟩

theorem emptyScript_aborts :
    (∃ s ask m', FiledReachable smallConf jobsDir (rereadsAll smallConf jobsDir) s ∧
      s.asked 1 = some ask ∧ ask.files.script = [] ∧
      schedule smallConf s.system.mbd 3 (fun _ => true) = some m' ∧ m'.run = [1] ∧
      scheduleFiles smallConf jobsDir s.disk 0 s.system.mbd 3 (fun _ => true) = none) ∧
    ∃ s ask, FiledReachable smallConf jobsDir (rereadsAll smallConf jobsDir) s ∧
      s.asked 1 = some ask ∧ ask.files.script ≠ [] ∧ ask.request.numHosts = 0 ∧
      s.system.mbd.pend = [1] ∧ schedule smallConf s.system.mbd 3 (fun _ => true) = none := by
  constructor
  · obtain ⟨s, executed, ask, isAsk, script, m', done, runs, aborts⟩ :
        ∃ s ∈ filedRun (joinFiled ++ [submitFiles 1 plainRequest 18 ""]), ∃ ask ∈ s.asked 1,
          ask.files.script = [] ∧ ∃ m' ∈ schedule smallConf s.system.mbd 3 (fun _ => true),
            m'.run = [1] ∧ (scheduleFiles smallConf jobsDir s.disk 0 s.system.mbd 3
              fun _ => true).isNone = true := by
      decide +kernel
    exact ⟨s, ask, m', reachable_of_filedRun executed, isAsk, script, done, runs,
      isNone_iff_eq_none.mp aborts⟩
  · obtain ⟨s, executed, ask, isAsk, script, none, waits, aborts⟩ :
        ∃ s ∈ filedRun ([submitFiles 1 { plainRequest with numHosts := 0 } 18 "#!/bin/sh\n",
            restartFiled] ++ joinFiled), ∃ ask ∈ s.asked 1, ask.files.script ≠ [] ∧
          ask.request.numHosts = 0 ∧ s.system.mbd.pend = [1] ∧
            (schedule smallConf s.system.mbd 3 fun _ => true).isNone = true := by
      decide +kernel
    exact ⟨s, ask, reachable_of_filedRun executed, isAsk, script, none, waits,
      isNone_iff_eq_none.mp aborts⟩

end LavaLite.Cluster
