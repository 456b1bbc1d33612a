import LavaLite.Mbd.Acting
import LavaLite.Mbd.Reconfigured

/-
One job that a replay has marked as broken or orphaned, from then on.  Nothing is assumed of
the other jobs: what is followed is the entry of the one job, its place on the lists and what
the manifest says of it.
-/

namespace LavaLite.Mbd

open Base Batch Kernel List Option
open Function (update update_of_ne update_self)

/-! ### One job, in memory and on disk -/

/--
The entry of the job fits, and the entry a replay would make of it does too.  Its id is
in the sequence file, so no submission takes it again.
-/
structure Pinned (conf : Conf) (j : JobId) (fits : Option JobData → Prop) (m : MbdState) : Prop
    extends IdsCounted m where
  keyed : ∀ {i job}, m.jobs i = some job → job.jobId = i
  entry : fits (m.jobs j)
  listed : ListedAt j m
  told : ∀ entry, history conf m.manifest j = some entry → fits entry
  proper : Proper conf none (m.manifest.filter (recordJob · = j))
  old : j ≤ m.seqFile

variable {conf : Conf} {m m' : MbdState} {i j : JobId} {records : List Event} {job : JobData}
  {ws : WireJobSubmit}

section Pinned

variable {fits fits' : Option JobData → Prop}

theorem Touches.idsCounted (touches : Touches i m m') (counted : IdsCounted m) : IdsCounted m' where
  ids := by
    intro k job' found
    obtain ⟨_, was, _⟩ := touches.known found
    rw [touches.jobIdSeq]
    exact counted.ids was
  saved := by
    rw [touches.seqFile, touches.jobIdSeq]
    exact counted.saved

theorem Pinned.beside (pinned : Pinned conf j fits m) (counted : IdsCounted m')
    (keyed : ∀ {i job}, m'.jobs i = some job → job.jobId = i) (kept : m'.jobs j = m.jobs j)
    (lists : ∀ id, (m'.list id).count j = (m.list id).count j)
    (manifest : m'.manifest = m.manifest ++ records) (elsewhere : ∀ e ∈ records, recordJob e ≠ j)
    (seqFile : m.seqFile ≤ m'.seqFile) : Pinned conf j fits m' where
  toIdsCounted := counted
  keyed := keyed
  entry := by
    rw [kept]
    exact pinned.entry
  listed := fun id => by
    rw [lists, kept]
    exact pinned.listed id
  told := by
    intro entry told
    rw [manifest, history_append] at told
    obtain ⟨before, told, rest⟩ := bind_eq_some_iff.mp told
    rw [replayJobs_of_ne conf j records before elsewhere] at rest
    exact Option.some.inj rest ▸ pinned.told before told
  proper := by
    have nothing : records.filter (recordJob · = j) = [] :=
      filter_eq_nil_iff.mpr fun e member isJob => elsewhere e member (of_decide_eq_true isJob)
    rw [manifest, filter_append, nothing, append_nil]
    exact pinned.proper
  old := Int.le_trans pinned.old seqFile

theorem Pinned.congr (pinned : Pinned conf j fits m) (jobs : m'.jobs = m.jobs)
    (lists : ∀ id, (m'.list id).count j = (m.list id).count j) (manifest : m'.manifest = m.manifest)
    (seqFile : m.seqFile ≤ m'.seqFile) (saved : m'.seqFile ≤ m'.jobIdSeq)
    (jobIdSeq : m.jobIdSeq ≤ m'.jobIdSeq) : Pinned conf j fits m' := by
  apply pinned.beside _ (fun found => pinned.keyed (jobs ▸ found)) (congrFun jobs j) lists
    (manifest.trans (append_nil _).symm) (forall_mem_nil _) seqFile
  exact ⟨fun found => Int.le_trans (pinned.ids (jobs ▸ found)) jobIdSeq,
    Int.le_trans pinned.saved.1 seqFile, saved⟩

theorem Pinned.touches (pinned : Pinned conf j fits m) (touches : Touches i m m') (other : i ≠ j) :
    Pinned conf j fits m' := by
  obtain ⟨records, manifest, about⟩ := touches.manifest
  apply pinned.beside (touches.idsCounted pinned.toIdsCounted) _ (touches.jobs j (Ne.symm other))
    (fun id => touches.lists id j (Ne.symm other)) manifest _ (Int.le_of_eq touches.seqFile.symm)
  · intro k job' found
    obtain ⟨_, was, same⟩ := touches.known found
    exact (congrArg Prod.fst same).trans (pinned.keyed was)
  · intro e member same
    exact other ((about (fun _ found => pinned.keyed found) e member).symm.trans same)

theorem Pinned.acts (pinned : Pinned conf j fits m) (acts : Acts i m m') (other : i ≠ j) :
    Pinned conf j fits m' :=
  pinned.touches acts.toTouches other

theorem Pinned.own (pinned : Pinned conf j fits m) (acts : Acts j m m')
    (found : m'.jobs j = some job) (listed : ListedAt j m')
    (manifest : m'.manifest = m.manifest ++ records) (about : ∀ e ∈ records, recordJob e = j)
    (becomes : fits' (some job))
    (tells : ∀ entry, fits entry → ∀ next, replayJobs conf j records entry = some next → fits' next)
    (proper : ∀ entry, fits entry → Proper conf entry records) : Pinned conf j fits' m' := by
  constructor
  · exact acts.idsCounted pinned.toIdsCounted
  · intro k job' found'
    obtain ⟨_, was, same⟩ := acts.known found'
    exact (congrArg Prod.fst same).trans (pinned.keyed was)
  · rw [found]
    exact becomes
  · exact listed
  · intro entry told
    rw [manifest, history_append] at told
    obtain ⟨between, told, rest⟩ := bind_eq_some_iff.mp told
    exact tells between (pinned.told between told) entry rest
  · have whole : records.filter (recordJob · = j) = records :=
      filter_eq_self.mpr fun e member => decide_eq_true (about e member)
    rw [manifest, filter_append, whole]
    refine Proper.append (j := j) (fun e member => ?_) pinned.proper fun next told => ?_
    · exact of_decide_eq_true (mem_filter.mp member).2
    · rw [replayJobs_filter] at told
      exact proper next (pinned.told next told)
  · rw [acts.seqFile]
    exact pinned.old

theorem Pinned.set {job' : JobData} (pinned : Pinned conf j fits m) (found : m.jobs j = some job)
    (same : (job'.jobId, job'.res) = (job.jobId, job.res)) (listId : job'.listId = job.listId)
    (becomes : fits (some job')) : Pinned conf j fits (m.setJob j job') := by
  have here : (m.setJob j job').jobs j = some job' := by
    change update m.jobs j (some job') j = some job'
    rw [update_self]
  apply pinned.own (Acts.set (.refl j m) found same) here
  · intro id
    have before := pinned.listed id
    rw [found] at before
    rw [here]
    simp only [presence, listId] at before ⊢
    exact before
  · exact (append_nil _).symm
  · exact forall_mem_nil _
  · exact becomes
  · intro entry fine next told
    cases told
    exact fine
  · exact fun _ _ => trivial

theorem Frame.pinned (framed : Frame m m') (pinned : Pinned conf j fits m) : Pinned conf j fits m' := by
  refine pinned.congr framed.jobs (fun id => ?_) framed.manifest (Int.le_of_eq framed.seqFile.symm)
    (framed.seqFile ▸ Int.le_trans pinned.saved.2 framed.jobIdSeq) framed.jobIdSeq
  cases id with
  | pend => exact framed.pend.count_eq j
  | run => exact congrArg (List.count j) framed.run
  | finish => exact congrArg (List.count j) framed.finish

theorem Commit.pinned {q : QueueName} (commit : Commit conf ws m m' q job)
    (pinned : Pinned conf j fits m) : Pinned conf j fits m' := by
  have other : j ≠ job.jobId := by
    rintro rfl
    exact absurd commit.unsaved (Int.not_lt.mpr pinned.old)
  have kept : m'.jobs j = m.jobs j := by
    rw [commit.jobs, update_of_ne other]
  apply pinned.beside ⟨_, _⟩ _ kept _ commit.manifest _ (Int.le_of_eq commit.seqFile.symm)
  · intro k found known
    rw [commit.jobIdSeq]
    rcases commit.jobs_cases known with ⟨rfl, _⟩ | was
    · exact commit.counted
    · exact pinned.ids was
  · rw [commit.seqFile, commit.jobIdSeq]
    exact pinned.saved
  · intro k found known
    rcases commit.jobs_cases known with ⟨rfl, rfl⟩ | was
    · rfl
    · exact pinned.keyed was
  · intro id
    cases id with
    | pend =>
      change m'.pend.count j = m.pend.count j
      rw [commit.pend, count_concat_of_ne other]
    | run => exact congrArg (List.count j) commit.run
    | finish => exact congrArg (List.count j) commit.finish
  · intro e member about
    rw [mem_singleton.mp member] at about
    exact other about.symm

theorem Registers.pinned (registers : Registers conf ws m m') (pinned : Pinned conf j fits m) :
    Pinned conf j fits m' := by
  apply registers.keeps (Pinned conf j fits) _ _ _ pinned
  · exact fun before framed => framed.pinned before
  · exact fun before commit => commit.pinned before
  · intro m before
    refine before.congr rfl (fun id => ?_) rfl before.saved.2 (Int.le_refl _) (Int.le_refl _)
    cases id <;> rfl

theorem pinned_of_recover (told : ∀ entry, history conf m.manifest j = some entry → fits entry)
    (proper : Proper conf none (m.manifest.filter (recordJob · = j))) (old : j ≤ m.seqFile)
    (nonneg : 0 ≤ m.seqFile) (done : recover conf m = some m') : Pinned conf j fits m' := by
  have started := started_of_replay done
  constructor
  · exact started.idsCounted nonneg
  · exact started.jobId
  · exact told _ (started.told j)
  · obtain ⟨r, events, rebuilt⟩ := bind_eq_some_iff.mp done
    obtain ⟨_, _, _, _, _, _, _, rfl⟩ := replayRebuildCounters_spec rebuilt
    have blank := initialState_blank conf m.marks m.manifest m.seqFile
    have listed : ListedAt j r := by
      apply replayEvents_listedAt _ (blank.listed.listedAt j) events
      rw [congrFun blank.jobs j]
      exact proper
    intro id
    rw [← listed id]
    cases id <;> rfl
  · rw [started.manifest]
    exact told
  · rw [started.manifest]
    exact proper
  · rw [started.seqFile]
    exact old

theorem Pinned.restarted (pinned : Pinned conf j fits m) (done : recover conf m = some m') :
    Pinned conf j fits m' :=
  pinned_of_recover pinned.told pinned.proper pinned.old pinned.saved.1 done

end Pinned

/-! ### What can happen to a lost job -/

def Killed (job : JobData) : Prop :=
  job.listId = .finish ∧ job.state = .exited

inductive Phase where
  | lost
  | killed
  | gone

def Phase.fits : Phase → ListId → JobState → Prop
  | .lost, list, state => list = .pend ∧ (state = .orphan ∨ state = .broken)
  | .killed, list, state => list = .finish ∧ state = .exited
  | .gone, _, _ => False

structure Doomed (owner : Nat) (phase : Phase) (job : JobData) : Prop where
  fits : phase.fits job.listId job.state
  owns : job.uid = owner
  room : 0 ≤ job.res.numHosts

structure Fate (owner : Nat) (phase : Phase) (entry : Option JobData) : Prop where
  isNone : entry = none ↔ phase = .gone
  doomed : ∀ job, entry = some job → Doomed owner phase job

theorem replayJobs_own {e : Event} {rest : List Event} {current : Option JobData}
    (about : recordJob e = j) :
    replayJobs conf j (e :: rest) current =
      (replayJob conf current e).bind (replayJobs conf j rest) := by
  rw [replayJobs, if_pos about]
  rfl

variable {owner uid : Nat} {phase : Phase} {entry : Option JobData} {now : Time} {sig : Int}
  {status : Status}

theorem Doomed.fate (doomed : Doomed owner phase job) : Fate owner phase (some job) where
  isNone := ⟨nofun, fun gone => by subst gone; exact absurd doomed.fits id⟩
  doomed := by
    intro job' same
    cases same
    exact doomed

theorem Fate.exists_doomed (fate : Fate owner phase entry) (known : phase ≠ .gone) :
    ∃ job, entry = some job ∧ Doomed owner phase job := by
  obtain ⟨job, found⟩ := ne_none_iff_exists'.mp (mt fate.isNone.mp known)
  exact ⟨job, found, fate.doomed job found⟩

theorem Doomed.states (doomed : Doomed owner phase job) :
    (job.state = .orphan ∨ job.state = .broken) ∨ job.state = .exited := by
  have fits := doomed.fits
  cases phase with
  | lost => exact .inl fits.2
  | killed => exact .inr fits.2
  | gone => cases fits

theorem Doomed.not_waiting (doomed : Doomed owner phase job) : job.state.isWaiting = false := by
  rcases doomed.states with (state | state) | state <;> rw [state] <;> rfl

theorem Pinned.doomed (pinned : Pinned conf j (Fate owner phase) m) (found : m.jobs j = some job) :
    Doomed owner phase job :=
  pinned.entry.doomed job found

theorem finishPendingJob_lost (pinned : Pinned conf j (Fate owner .lost) m) (found : m.jobs j = some job)
    (done : finishPendingJob m now j job sig uid = some (m', status)) :
    Pinned conf j (Fate owner .killed) m' := by
  have acts := finishPendingJob_acts found done
  have keyed : job.jobId = j := pinned.keyed found
  obtain ⟨lost, owns, room⟩ := pinned.doomed found
  obtain ⟨q, _, done⟩ := bind_eq_some_iff.mp done
  cases done
  have here : update m.jobs j (some { killedJob job now with listId := .finish }) j =
      some { killedJob job now with listId := .finish } := update_self ..
  have manifest : m.manifest ++ [eventJobSignal (killedJob job now) sig uid] ++
      [eventJobFinish (killedJob job now)] = m.manifest ++
        [eventJobSignal (killedJob job now) sig uid, eventJobFinish (killedJob job now)] :=
    append_assoc ..
  refine pinned.own acts here ?_ manifest ?_ (Doomed.fate ⟨⟨rfl, rfl⟩, owns, room⟩) ?_ ?_
  · intro id
    have moved := pinned.listed.movedList found .finish id
    rw [lost.1, movedList, if_neg (by decide)] at moved
    change _ = presence (update m.jobs j _ j) id
    rw [here]
    refine Eq.trans ?_ moved
    cases id <;> rfl
  · intro e member
    rcases mem_pair.mp member with rfl | rfl <;> exact keyed
  · intro entry fate next told
    obtain ⟨was, rfl, doomed⟩ := fate.exists_doomed fun same => Phase.noConfusion same
    rw [replayJobs_own (show recordJob (eventJobSignal (killedJob job now) sig uid) = j from keyed)]
      at told
    obtain ⟨_, signalled, told⟩ := bind_eq_some_iff.mp told
    cases signalled
    rw [replayJobs_own (show recordJob (eventJobFinish (killedJob job now)) = j from keyed)] at told
    cases told
    exact Doomed.fate ⟨⟨rfl, rfl⟩, owns, doomed.room⟩
  · intro entry fate
    obtain ⟨was, rfl, doomed⟩ := fate.exists_doomed fun same => Phase.noConfusion same
    refine ⟨fun _ _ => trivial, fun next signalled => ?_⟩
    cases signalled
    refine ⟨fun _ same isOver => ?_, fun _ _ => trivial⟩
    cases same
    exact absurd (doomed.fits.1.symm.trans isOver) (by decide)

/-- The job is in its phase, or a signal has just terminated it. -/
def Lasts (conf : Conf) (j : JobId) (owner : Nat) (phase : Phase) (m : MbdState) : Prop :=
  ∃ next, (next = phase ∨ phase = .lost ∧ next = .killed) ∧ Pinned conf j (Fate owner next) m

variable {sendOk : JobId → Bool}

theorem Pinned.lasts (pinned : Pinned conf j (Fate owner phase) m) : Lasts conf j owner phase m :=
  ⟨phase, .inl rfl, pinned⟩

theorem signalOneJob_lasts {sendOk : Bool} (pinned : Pinned conf j (Fate owner phase) m)
    (found : m.jobs j = some job)
    (spared : isStopSignal sig → phase = .lost → owner ≠ uid ∧ conf.isManager uid = false)
    (done : signalOneJob conf m now uid j job sig sendOk = some (m', status)) :
    Lasts conf j owner phase m' := by
  obtain ⟨fits, owns, _⟩ := pinned.doomed found
  unfold signalOneJob at done
  split at done
  · cases done
    exact pinned.lasts
  next permitted =>
    cases phase with
    | gone => cases fits
    | killed =>
      rw [fits.2] at done
      cases done
      exact pinned.lasts
    | lost =>
      have unfinished : job.state.isFinished = false := by
        rcases fits.2 with state | state <;> rw [state] <;> rfl
      rw [unfinished, if_neg Bool.false_ne_true] at done
      split at done
      · cases done
        exact pinned.lasts
      · split at done
        · cases done
          exact pinned.lasts
        · rw [if_pos fits.2] at done
          unfold signalPendingJob at done
          split at done
          · exact ⟨.killed, .inr ⟨rfl, rfl⟩, finishPendingJob_lost pinned found done⟩
          · split at done
            next stop =>
              obtain ⟨other, notManager⟩ := spared stop rfl
              refine absurd ⟨?_, ?_⟩ permitted
              · rw [owns]
                exact other
              · rw [notManager]
                rfl
            next =>
              have notHeld : job.state ≠ .held := by
                rcases fits.2 with state | state <;> rw [state] <;> decide
              split at done
              · rw [resumePendingJob, if_pos notHeld] at done
                cases done
                exact pinned.lasts
              · cases done
                exact pinned.lasts

theorem signalScanRunning_doomed (found : m.jobs j = some job) (doomed : Doomed owner phase job)
    (done : signalScanRunning conf now uid sig sendOk m j = some m') : m' = m := by
  unfold signalScanRunning at done
  obtain ⟨job', found', done⟩ := bind_eq_some_iff.mp done
  cases found.symm.trans found'
  obtain ⟨h, _, done⟩ := bind_eq_some_iff.mp done
  split at done
  · cases done
    rfl
  next marked =>
    rw [doomed.states.resolve_left marked] at done
    split at done
    · cases done
      rfl
    · cases done

theorem jobsSignal_lasts {jobId : JobId} {arrayIndex : Int}
    (pinned : Pinned conf j (Fate owner phase) m)
    (spared : isStopSignal sig → j ∈ namedJobs m jobId arrayIndex → phase = .lost →
      owner ≠ uid ∧ conf.isManager uid = false)
    (done : jobsSignal conf m now uid jobId arrayIndex sig sendOk = some (m', status)) :
    Lasts conf j owner phase m' := by
  apply jobsSignal_invariant _ _ _ done pinned.lasts
  · rintro i job m₁ m₂ ok status named found signalled ⟨next, still, held⟩
    by_cases other : i = j
    · subst other
      rcases still with rfl | ⟨rfl, rfl⟩
      · exact signalOneJob_lasts held found (fun stop => spared stop named) signalled
      · obtain ⟨after, rfl | ⟨isLost, _⟩, held⟩ := signalOneJob_lasts held found nofun signalled
        · exact ⟨.killed, .inr ⟨rfl, rfl⟩, held⟩
        · cases isLost
    · exact ⟨next, still, held.acts (signalOneJob_acts found signalled) other⟩
  · rintro i m₁ m₂ signalled ⟨next, still, held⟩
    by_cases other : i = j
    · subst other
      obtain ⟨job, found, signalled⟩ := bind_eq_some_iff.mp signalled
      rw [(held.doomed found).not_waiting] at signalled
      cases signalled
    · exact ⟨next, still, held.acts (signalScanPending_acts signalled) other⟩
  · rintro i m₁ m₂ signalled ⟨next, still, held⟩
    by_cases other : i = j
    · subst other
      obtain ⟨job, found, _⟩ := bind_eq_some_iff.mp signalled
      rw [signalScanRunning_doomed found (held.doomed found) signalled]
      exact ⟨next, still, held⟩
    · exact ⟨next, still, held.acts (signalScanRunning_acts signalled) other⟩

theorem scheduleJob_unready {free : Int} {turn : Turn} (found : m.jobs j = some job)
    (unready : job.state ≠ .pending) (done : scheduleJob conf now sendOk m j free = some turn) :
    turn.state = notePending m j job .jobNotReady := by
  have idle : jobIsReady now job = false := by
    rw [jobIsReady, decide_eq_false unready, Bool.false_and]
  unfold scheduleJob at done
  obtain ⟨job', found', done⟩ := bind_eq_some_iff.mp done
  cases found.symm.trans found'
  rw [idle] at done
  cases done
  rfl

theorem schedule_doomed (pinned : Pinned conf j (Fate owner phase) m)
    (done : schedule conf m now sendOk = some m') : Pinned conf j (Fate owner phase) m' := by
  apply schedule_invariant _ _ done pinned
  · intro m hosts pend perm _ pinned
    refine pinned.congr rfl (fun id => ?_) rfl (Int.le_refl _) pinned.saved.2 (Int.le_refl _)
    cases id with
    | pend => exact perm.count_eq j
    | run | finish => rfl
  · intro i m free turn taken pinned
    by_cases other : i = j
    · subst other
      obtain ⟨job, found, _⟩ := bind_eq_some_iff.mp taken
      have doomed := pinned.doomed found
      have ready : job.state ≠ .pending := by
        rcases doomed.states with (state | state) | state <;> rw [state] <;> decide
      rw [scheduleJob_unready found ready taken]
      exact pinned.set found rfl rfl (Doomed.fate { doomed with })
    · exact pinned.acts (scheduleJob_acts taken) other

theorem jobMove_doomed {toQueue : QueueName} (pinned : Pinned conf j (Fate owner phase) m)
    (done : jobMove conf m now uid j toQueue = some (m', status)) : m' = m := by
  unfold jobMove at done
  split at done
  · cases done
    rfl
  next job found =>
    rw [(pinned.doomed found).not_waiting] at done
    cases done
    rfl

theorem jobPriority_doomed {value : Int} (pinned : Pinned conf j (Fate owner phase) m)
    (done : jobPriority conf m now uid j value = some (m', status)) :
    Pinned conf j (Fate owner phase) m' := by
  have acts := jobPriority_acts done
  rcases jobPriority_cases done with rfl | ⟨job, found, _, _, rfl⟩
  · exact pinned
  · have keyed : job.jobId = j := pinned.keyed found
    have doomed := pinned.doomed found
    have here : update m.jobs j (some { job with priority := value }) j =
        some { job with priority := value } := update_self ..
    have about : recordJob (eventJobPriority { job with priority := value } now job.priority) = j :=
      keyed
    refine pinned.own acts here ?_ rfl ?_ (Doomed.fate { doomed with }) ?_ ?_
    · intro id
      change (m.list id).count j = presence (update m.jobs j _ j) id
      rw [here, pinned.listed id, found]
      rfl
    · intro e member
      rw [mem_singleton.mp member]
      exact about
    · intro entry fate next told
      rw [replayJobs_own about] at told
      cases entry with
      | none =>
        cases told
        exact fate
      | some was =>
        cases told
        have before := fate.doomed was rfl
        exact Doomed.fate { before with }
    · exact fun _ _ => ⟨fun _ _ => trivial, fun _ _ => trivial⟩

/-! ### Compactions of such jobs -/

theorem compactStarted_cases {started : List Event} (written : compactStarted job = some started) :
    started = [] ∨ (∃ e, started = [.jobStart e]) ∨
      ∃ e, started = [.jobStart e, eventJobFork job] := by
  unfold compactStarted at written
  split at written
  · obtain ⟨start, begun, written⟩ := bind_eq_some_iff.mp written
    cases written
    unfold compactWriteJobStart at begun
    split at begun
    · cases begun
      split
      · exact .inr (.inr ⟨_, rfl⟩)
      · exact .inr (.inl ⟨_, rfl⟩)
    · cases begun
  · cases written
    exact .inl rfl

theorem proper_finished {started : List Event} {fresh : JobData} {state : JobState}
    {exitStatus : Int} {endTime : Time} (written : compactStarted job = some started)
    (pending : fresh.listId = .pend) :
    Proper conf (some fresh) (started ++ [.jobFinish j uid state exitStatus endTime]) := by
  have last : ∀ {job' : JobData}, job'.listId ≠ .finish →
      Proper conf (some job') [.jobFinish j uid state exitStatus endTime] := by
    intro job' unfinished
    refine ⟨fun _ same => ?_, fun _ _ => trivial⟩
    cases same
    exact unfinished
  have begins : ∀ {e : LogJobStart} {next : Option JobData},
      replayJob conf (some fresh) (.jobStart e) = some next →
        ∃ job', next = some job' ∧ job'.listId ≠ .finish := by
    intro e next begun
    rw [replayJob_some fun _ => Event.noConfusion] at begun
    obtain ⟨job', starts, rfl⟩ := map_eq_some_iff.mp begun
    refine ⟨job', rfl, ?_⟩
    rcases startJob_cases starts with rfl | ⟨_, _, rfl⟩ | ⟨_, _, rfl⟩
    · exact pending.trans_ne (by decide)
    · exact pending.trans_ne (by decide)
    · exact ListId.noConfusion
  have orderly : ∀ (e : LogJobStart) (job' : JobData), some fresh = some job' →
      Orderly job' (.jobStart e) := by
    intro e job' same
    cases same
    exact pending
  rcases compactStarted_cases written with rfl | ⟨e, rfl⟩ | ⟨e, rfl⟩
  · apply last
    rw [pending]
    exact ListId.noConfusion
  · refine ⟨orderly e, fun next begun => ?_⟩
    obtain ⟨job', rfl, unfinished⟩ := begins begun
    exact last unfinished
  · refine ⟨orderly e, fun next begun => ⟨fun _ _ => trivial, fun after forked => ?_⟩⟩
    obtain ⟨job', rfl, unfinished⟩ := begins begun
    cases forked
    exact last unfinished

theorem compactWriteJobNew_eq (job : JobData) (queue : QueueName) :
    ∃ e, compactWriteJobNew job queue = .jobNew e ∧ e.state = job.state ∧ e.uid = job.uid :=
  ⟨_, rfl, rfl, rfl⟩

theorem replayAlloc_room (conf : Conf) {e : LogJobNew} {queue : QueueName}
    (written : compactWriteJobNew job queue = .jobNew e) (room : 0 ≤ job.res.numHosts) :
    ∃ fresh, replayAlloc conf e = some fresh ∧ 0 ≤ fresh.res.numHosts := by
  have detail : newDetail conf e = _ := newDetail_compact written
  have enough : 0 ≤ (newDetail conf e).res.numHosts := by
    rw [detail]
    simp only [rewritten, settledHosts]
    split
    · exact Int.natCast_nonneg _
    · exact room
  obtain ⟨fresh, alloc⟩ := replayAlloc_isSome enough
  rw [← replayAlloc_detail alloc] at enough
  exact ⟨fresh, alloc, enough⟩

theorem compactOn_fate {block : List Event} (doomed : Doomed owner phase job) (keyed : job.jobId = j)
    (written : compactOn job.listId job = some block) :
    (∀ entry, replayJobs conf j block none = some entry → Fate owner phase entry) ∧
      Proper conf none block := by
  obtain ⟨fits, owns, room⟩ := doomed
  -- the first record is replayed to a pending job of the same owner
  have first : ∀ queue, ∃ e fresh, compactWriteJobNew job queue = .jobNew e ∧ e.state = job.state ∧
      (∀ rest, replayJobs conf j (.jobNew e :: rest) none = replayJobs conf j rest (some fresh)) ∧
      replayJob conf none (.jobNew e) = some (some fresh) ∧ Made conf e fresh ∧ fresh.uid = owner ∧
      0 ≤ fresh.res.numHosts := by
    intro queue
    obtain ⟨e, new, state, uid⟩ := compactWriteJobNew_eq job queue
    obtain ⟨fresh, alloc, room⟩ := replayAlloc_room conf new room
    have made := replayAlloc_made alloc
    have replayed : replayJob conf none (.jobNew e) = some (some fresh) := congrArg some alloc
    refine ⟨e, fresh, new, state, fun rest => ?_, replayed, made, ?_, room⟩
    · rw [replayJobs_own (show recordJob (.jobNew e) = j from new ▸ keyed), replayed]
      rfl
    · rw [made.uid, uid]
      exact owns
  cases phase with
  | gone => cases fits
  | lost =>
    rw [fits.1] at written
    obtain ⟨queue, _, written⟩ := bind_eq_some_iff.mp written
    cases written
    obtain ⟨e, fresh, new, state, replayed, _, made, owns, room⟩ := first queue
    rw [new]
    refine ⟨fun entry told => ?_, fun _ same => (by cases same), fun _ _ => trivial⟩
    rw [replayed] at told
    cases told
    refine Doomed.fate ⟨⟨made.listId, ?_⟩, owns, room⟩
    rw [made.state]
    split
    · rw [state]
      exact fits.2
    · exact .inl rfl
  | killed =>
    rw [fits.1] at written
    obtain ⟨queue, _, written⟩ := bind_eq_some_iff.mp written
    obtain ⟨started, begun, written⟩ := bind_eq_some_iff.mp written
    cases written
    obtain ⟨e, fresh, new, _, replayed, result, made, _, room⟩ := first queue
    rw [new]
    refine ⟨fun entry told => ?_, fun _ same => (by cases same), fun next told => ?_⟩
    · rw [replayed, replayJobs_append] at told
      obtain ⟨before, begins, told⟩ := bind_eq_some_iff.mp told
      obtain ⟨job', rfl, _⟩ := replayJobs_request begins
      have still : job'.res.numHosts = fresh.res.numHosts :=
        congrArg (fun d : Detail => d.res.numHosts) (replayJobs_detail begins)
      rw [replayJobs_own (show recordJob (eventJobFinish job) = j from keyed)] at told
      cases told
      exact Doomed.fate ⟨⟨rfl, fits.2⟩, owns, still ▸ room⟩
    · cases result.symm.trans told
      exact proper_finished begun made.listId

theorem Pinned.compacted (pinned : Pinned conf j (Fate owner phase) m)
    (done : manifestRebuild m = some m') :
    ∃ next, (phase = .lost → next = .lost) ∧ Pinned conf j (Fate owner next) m' := by
  have was : ∀ {i job}, m'.jobs i = some job → m.jobs i = some job := fun found =>
    (compact_jobs done found).1
  have same := manifestRebuild_count done
  have keyed : ∀ {i job}, m'.jobs i = some job → job.jobId = i := fun found => pinned.keyed (was found)
  have counted : IdsCounted m' := by
    refine ⟨fun found => ?_, ?_⟩
    · rw [same.2]
      exact pinned.ids (was found)
    · rw [same.1, same.2]
      exact pinned.saved
  have told : ∀ {entry}, history conf m'.manifest j = some entry →
      replayJobs conf j (m'.manifest.filter (recordJob · = j)) none = some entry := fun told =>
    (replayJobs_filter ..).trans told
  have listed : ListedAt j m' := by
    obtain ⟨_, _, rfl⟩ := manifestRebuild_spec done
    exact pinned.listed.keeping filter_sublist
  have old : j ≤ m'.seqFile := same.1 ▸ pinned.old
  cases manifestRebuild_compacts pinned.keyed pinned.listed done with
  | freed gone silent isOver =>
    have nothing : Fate owner .gone none :=
      ⟨⟨fun _ => rfl, fun _ => rfl⟩, fun _ same => by cases same⟩
    refine ⟨.gone, fun isLost => ?_, counted, keyed, ?_, listed, fun entry tells => ?_, ?_, old⟩
    · subst isLost
      obtain ⟨job, found, doomed⟩ := pinned.entry.exists_doomed nofun
      exact absurd (doomed.fits.1.symm.trans (isOver job found)) (by decide)
    · rw [gone]
      exact nothing
    · have silence := told tells
      rw [silent] at silence
      cases silence
      exact nothing
    · rw [silent]
      trivial
  | kept found still written own =>
    obtain ⟨replays, proper⟩ := compactOn_fate (pinned.doomed found) (pinned.keyed found) written
    refine ⟨phase, id, counted, keyed, ?_, listed, fun entry tells => ?_, ?_, old⟩
    · rw [still]
      exact (pinned.doomed found).fate
    · exact replays entry (own ▸ told tells)
    · rw [own]
      exact proper

end LavaLite.Mbd
