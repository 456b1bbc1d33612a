import LavaLite.Cluster.Soundness
import LavaLite.Mbd.Arrays

/-
The states of the jobs along a run: the answer to a stop can overwrite a final state.
Compaction relies on `dep_refcnt` and `array_element_cnt`; nothing takes the holds of a job
again after a dispatch, and a replayed finish counts an element down before the recount.
-/

namespace LavaLite.Cluster

open Base Batch Mbd Sbd Kernel

section

structure ListsAgree (m : MbdState) : Prop where
  once : ∀ id, (m.list id).Nodup
  named : ∀ j job, m.jobs j = some job → ∀ id, j ∈ m.list id ↔ job.listId = id
  running : ∀ j ∈ m.run, ∃ job, m.jobs j = some job ∧
    (job.state = .running ∨ job.state = .suspended)
  finished : ∀ j ∈ m.finish, ∃ job, m.jobs j = some job ∧ (job.state = .done ∨ job.state = .exited)

theorem listsAgree_of_wf {conf : Conf} {m : MbdState} (wf : Wf conf m) (final : Final m) :
    ListsAgree m where
  once := wf.distinct
  named j job found id := wf.mem_iff found id
  running := by
    intro j member
    obtain ⟨job, found, on⟩ := (wf.listed .run j).mp member
    have dispatched := ((wf.job found).running on).state
    exact ⟨job, found, by simpa [JobState.isDispatched] using dispatched⟩
  finished := by
    intro j member
    obtain ⟨job, found, on⟩ := (wf.listed .finish j).mp member
    have ended := final j job found on
    exact ⟨job, found, by simpa [JobState.isFinished] using ended⟩

theorem listId_of_isFinished {conf : Conf} {j : JobId} {job : JobData} (wf : JobWf conf j job)
    (finished : job.state.isFinished = true) : job.listId = .finish := by
  cases on : job.listId with
  | pend =>
    have waiting := (wf.waiting on).state
    cases state : job.state <;>
      simp [state, JobState.isFinished, JobState.isWaiting] at finished waiting
  | run =>
    have dispatched := (wf.running on).state
    cases state : job.state <;>
      simp [state, JobState.isFinished, JobState.isDispatched] at finished dispatched
  | finish => rfl

variable {conf : Conf} {s t : System}

theorem Reachable.final (reached : Reachable conf (Legibly (Allows openReports)) s) : Final s.mbd :=
  Sound.mbd_invariant Final id (fun _ job found => absurd found (Option.some_ne_none job).symm)
    (fun _ final effect => effect.final final)
    (fun _ _ final registers => registers.final final)
    (fun _ sound final replayed => (sound.restored replayed).final final)
    (fun final => final) (sound_initial conf) reached

theorem Sound.ended {j : JobId} {x : JobState} (sound : Sound conf s) (ended : Ended j x s.mbd)
    (finished : x.isFinished = true) (later : Leads conf (Legibly (Allows openReports)) s t) :
    Ended j x t.mbd :=
  Sound.mbd_invariant (Ended j x) id ended (fun _ ended effect => effect.ended ended)
    (fun _ wf ended registers => registers.ended wf ended)
    (fun _ sound ended replayed => (sound.restored replayed).ended finished ended)
    (fun ended => ⟨ended.used, ended.same⟩) sound later

/--
When the answer to a stop or a continue never finds its job finished, the lists
agree with the states in every state reached, and a job that is done or has
exited keeps its state in every later state.
-/
theorem finished_is_final (reached : Reachable conf (Legibly (Allows openReports)) s) :
    ListsAgree s.mbd ∧ ∀ j job, s.mbd.jobs j = some job → job.state.isFinished = true →
        ∀ t, Leads conf (Legibly (Allows openReports)) s t →
          ∀ job', t.mbd.jobs j = some job' → job'.state = job.state := by
  have sound := reached.sound
  refine ⟨listsAgree_of_wf sound.wf reached.final, fun j job found finished t later job' at' => ?_⟩
  have ended : Ended j job.state s.mbd := by
    refine ⟨sound.saved found, fun other same => ?_⟩
    obtain rfl : job = other := Option.some.inj (found.symm.trans same)
    exact ⟨listId_of_isFinished (sound.wf.job found) finished, rfl⟩
  exact ((sound.ended ended finished later).same job' at').2

def oneFinish : List Label :=
  join "h1" 5 ++ [submitAt 1 plainRequest, .timer 2 fun _ => true] ++ start "h1" 3 77 ++
    [.jobExit "h1" 1 0, .reportFinish "h1" 1, .mbdRead "h1" 4 true]

theorem finished_is_final_oneFinish :
    ∃ s job, Reachable smallConf (Legibly (Allows openReports)) s ∧ s.mbd.jobs 1 = some job ∧
      job.state = .done ∧ ListsAgree s.mbd ∧
      ∀ t, Leads smallConf (Legibly (Allows openReports)) s t →
        ∀ job', t.mbd.jobs 1 = some job' → job'.state = .done := by
  obtain ⟨s, executed, job, found, state⟩ :
      ∃ s ∈ runOf smallConf (rereading (mayRead openReports)) oneFinish, ∃ job ∈ s.mbd.jobs 1,
        job.state = .done := by
    decide +kernel
  have reached : Reachable smallConf (Legibly (Allows openReports)) s :=
    steps_of_execute (fun _ _ _ => legibly_of_rereading
      (allows_of_mayRead (.inr fun _ _ => trivial))) executed
  obtain ⟨agree, final⟩ := finished_is_final reached
  refine ⟨s, job, reached, found, state, agree, fun t later job' at' => ?_⟩
  rw [final 1 job found (by rw [state]; rfl) t later job' at', state]

/-- The sbd reports the end of a job and then answers a stop sent to it before. -/
def stopBehindFinish : List Label :=
  join "h1" 5 ++ [submitAt 1 plainRequest, .timer 2 fun _ => true] ++ start "h1" 3 77 ++
    [.signal 4 1 1 0 sigStop fun _ => true, .jobExit "h1" 1 0, .reportFinish "h1" 1,
      .sbdRead "h1" .failed true, .mbdRead "h1" 5 true]

theorem finished_is_not_final :
    (runOf smallConf (fun _ _ => true) stopBehindFinish).map
        (fun s => ((s.mbd.jobs 1).map JobData.state, s.mbd.finish)) = some (some .done, [1]) ∧
      (runOf smallConf (fun _ _ => true) (stopBehindFinish ++ [.mbdRead "h1" 6 true])).map
        (fun s => ((s.mbd.jobs 1).map JobData.state, s.mbd.finish)) = some (some .suspended, [1]) ∧
      ¬ ∀ (conf : Conf) (s : System), Reachable conf anyStep s → ListsAgree s.mbd ∧
        ∀ j job, s.mbd.jobs j = some job → job.state.isFinished = true →
          ∀ t, Leads conf anyStep s t →
            ∀ job', t.mbd.jobs j = some job' → job'.state = job.state := by
  refine ⟨by decide +kernel, by decide +kernel, fun always => ?_⟩
  obtain ⟨s, executed, finish, suspended⟩ :
      ∃ s ∈ runOf smallConf (fun _ _ => true) (stopBehindFinish ++ [.mbdRead "h1" 6 true]),
        1 ∈ s.mbd.finish ∧ ∀ job ∈ s.mbd.jobs 1, job.state = .suspended := by
    decide +kernel
  have agree := (always smallConf s (reachable_of_runOf executed)).1
  obtain ⟨job, found, ended⟩ := agree.finished 1 finish
  rw [suspended job found] at ended
  rcases ended with done | exited
  · cases done
  · cases exited

end

/-! ### Holds -/

variable {conf : Conf} {s : System}

theorem Reachable.holdsBalanced (reached : Reachable conf (Legibly (Allows keepsHolds)) s) :
    HoldsBalanced s.mbd := by
  have both : EveryJob NamesEarlier s.mbd ∧ HoldsBalanced s.mbd := by
    refine Sound.mbd_invariant (fun m => EveryJob NamesEarlier m ∧ HoldsBalanced m) id ?start
      ?acted ?registered ?restarted (fun both => both) (sound_initial conf) reached
    case start => exact ⟨initial_everyJob conf NamesEarlier, fun _ known => by cases known⟩
    case acted =>
      intro m m' wf both effect
      exact ⟨effect.everyJob both.1, effect.holdsBalanced wf both.2⟩
    case registered =>
      intro s env uid gid request m' _ wf both registers
      exact ⟨registers.everyJob Commit.namesEarlier both.1, registers.holdsBalanced wf both.1 both.2⟩
    case restarted =>
      intro s kept m' _ sound both replayed
      exact ⟨(sound.restored replayed).namesEarlier both.1, restart_holdsBalanced replayed⟩
  exact both.2

/--
When no job that names others comes back to the pending list, the count of every
job is the number of atoms of pending jobs that name it, and a compaction leaves
every job that such an atom names.
-/
theorem depRefcnt_eq_awaiting (reached : Reachable conf (Legibly (Allows keepsHolds)) s) :
    (∀ k, (s.mbd.jobs k).isSome → s.mbd.depRefcnt k = awaiting s.mbd k) ∧
      ∀ m', manifestRebuild s.mbd = some m' → ∀ i ∈ s.mbd.pend, ∀ job, s.mbd.jobs i = some job →
        ∀ d ∈ job.deps, d.isCondition = true → m'.jobs d.jobId = s.mbd.jobs d.jobId := by
  have wf := reached.sound.wf
  have balanced := reached.holdsBalanced
  refine ⟨balanced, fun m' compacted i pending job found d member condition => ?_⟩
  apply balanced.compact wf.toListed compacted found _ member condition
  exact (wf.mem_iff found .pend).mp pending

def afterFirst : WireJobSubmit :=
  { plainRequest with dependCond := "done(1)", dependCond_fits := by decide }

theorem depRefcnt_eq_awaiting_afterFirst :
    ∃ s m', Reachable smallConf (Legibly (Allows keepsHolds)) s ∧ s.mbd.depRefcnt 1 = 1 ∧
      manifestRebuild s.mbd = some m' ∧ (m'.jobs 1).isSome = true := by
  obtain ⟨s, executed, known, one, compacts, i, pending, job, found, d, member, condition, names⟩ :
      ∃ s ∈ runOf smallConf (rereading (mayRead keepsHolds)) (oneFinish ++ [submitAt 5 afterFirst]),
        (s.mbd.jobs 1).isSome = true ∧ awaiting s.mbd 1 = 1 ∧
        (manifestRebuild s.mbd).isSome = true ∧ ∃ i ∈ s.mbd.pend, ∃ job ∈ s.mbd.jobs i,
          ∃ d ∈ job.deps, d.isCondition = true ∧ d.jobId = 1 := by
    decide +kernel
  have reached : Reachable smallConf (Legibly (Allows keepsHolds)) s :=
    steps_of_execute (fun _ _ _ => legibly_of_rereading
      (allows_of_mayRead (.inr fun _ _ => trivial))) executed
  obtain ⟨m', compacted⟩ := Option.isSome_iff_exists.mp compacts
  obtain ⟨counted, kept⟩ := depRefcnt_eq_awaiting reached
  refine ⟨s, m', reached, (counted 1 known).trans one, compacted, ?_⟩
  rw [← names, kept m' compacted i pending job found d member condition, names]
  exact known

/-- The job that waited for the first one is dispatched and its host refuses it. -/
def refusedAfterFirst : List Label :=
  oneFinish ++ [.sbdRead "h1" .failed true, submitAt 5 afterFirst, .timer 6 fun _ => true] ++
    exchange "h1" 7

theorem depRefcnt_ne_awaiting :
    (runOf smallConf (fun _ _ => true) refusedAfterFirst).map (fun s =>
        (s.mbd.pend, s.mbd.depRefcnt 1, awaiting s.mbd 1,
          (manifestRebuild s.mbd).map fun m => (m.jobs 1).isSome)) = some ([2], 0, 1, some false) ∧
      ¬ ∀ (conf : Conf) (s : System), Reachable conf anyStep s →
        (∀ k, (s.mbd.jobs k).isSome → s.mbd.depRefcnt k = awaiting s.mbd k) ∧
          ∀ m', manifestRebuild s.mbd = some m' → ∀ i ∈ s.mbd.pend, ∀ job,
            s.mbd.jobs i = some job → ∀ d ∈ job.deps, d.isCondition = true →
              m'.jobs d.jobId = s.mbd.jobs d.jobId := by
  refine ⟨by decide +kernel, fun equal => ?_⟩
  obtain ⟨s, executed, known, zero, one⟩ :
      ∃ s ∈ runOf smallConf (fun _ _ => true) refusedAfterFirst, (s.mbd.jobs 1).isSome = true ∧
        s.mbd.depRefcnt 1 = 0 ∧ awaiting s.mbd 1 = 1 := by
    decide +kernel
  have same := (equal smallConf s (reachable_of_runOf executed)).1 1 known
  omega

/-- A restart meets no finish of an element of an array whose head it reads too. -/
def recountsElements (s : System) : Label → Prop
  | .mbdRestart _ => FinishesApart s.mbd
  | _ => True

theorem Reachable.elementsBalanced (reached : Reachable conf (Legibly recountsElements) s) :
    ElementsBalanced s.mbd := by
  have both : EveryJob JoinsEarlier s.mbd ∧ ElementsBalanced s.mbd := by
    refine Sound.mbd_invariant (fun m => EveryJob JoinsEarlier m ∧ ElementsBalanced m)
      (fun _ => allows_anyReport _ _) ?start ?acted ?registered ?restarted (fun both => both)
      (sound_initial conf) reached
    case start => exact ⟨initial_everyJob conf JoinsEarlier, fun _ _ found => by cases found⟩
    case acted =>
      intro m m' wf both effect
      exact ⟨effect.everyJob both.1, effect.elementsBalanced wf both.2⟩
    case registered =>
      intro s env uid gid request m' _ wf both registers
      exact ⟨registers.everyJob Commit.joinsEarlier both.1, registers.elementsBalanced wf both.1 both.2⟩
    case restarted =>
      intro s kept m' apart sound both replayed
      exact ⟨(sound.restored replayed).joinsEarlier both.1,
        restart_elementsBalanced sound.wf sound.recoverable sound.saved apart replayed⟩
  exact both.2

/--
When no restart reads the finish of an element of an array whose head is known,
the count of every head is the number of elements of its array on the pending and
running lists, and a compaction leaves the head while there is one.
-/
theorem arrayElementCnt_eq_unfinished (reached : Reachable conf (Legibly recountsElements) s) :
    (∀ k head, s.mbd.jobs k = some head → head.arrayId = k →
        s.mbd.arrayElementCnt k = unfinished s.mbd k) ∧
      ∀ m', manifestRebuild s.mbd = some m' → ∀ k head, s.mbd.jobs k = some head →
        head.arrayId = k → ∀ i ∈ s.mbd.pend ++ s.mbd.run, ∀ job, s.mbd.jobs i = some job →
          job.arrayId = k → m'.jobs k = some head := by
  have wf := reached.sound.wf
  have balanced := reached.elementsBalanced
  refine ⟨balanced, fun m' compacted k head found isHead i member job there element => ?_⟩
  apply balanced.compact wf compacted found isHead there element
  rcases List.mem_append.mp member with pending | running
  · exact ((wf.mem_iff there .pend).mp pending).trans_ne (by decide)
  · exact ((wf.mem_iff there .run).mp running).trans_ne (by decide)

def pairRequest : WireJobSubmit :=
  { plainRequest with
    flags := { JobFlags.none with array := true }
    arrayStart := 1
    arrayEnd := 2
    arrayStride := 1 }

def pairRuns : List Label :=
  join "h1" 5 ++ [submitAt 1 pairRequest, .timer 2 fun _ => true,
    .sbdRead "h1" (.started 77) true, .sbdRead "h1" (.started 78) true,
    .mbdRead "h1" 3 true, .mbdRead "h1" 3 true, .sbdRead "h1" .failed true,
    .sbdRead "h1" .failed true]

def mayRecount (s : System) : Label → Bool
  | .mbdRestart _ => decide (FinishesApart s.mbd)
  | _ => true

theorem recountsElements_of_mayRecount {label : Label} (checked : mayRecount s label = true) :
    recountsElements s label := by
  cases label with
  | mbdRestart => exact (of_decide_eq_true checked : FinishesApart s.mbd)
  | _ => trivial

theorem arrayElementCnt_eq_unfinished_pair :
    ∃ s, Reachable smallConf (Legibly recountsElements) s ∧ unfinished s.mbd 1 = 2 ∧
      s.mbd.arrayElementCnt 1 = 2 := by
  obtain ⟨s, executed, two, head, found, isHead⟩ :
      ∃ s ∈ runOf smallConf (rereading mayRecount) (pairRuns ++ [.mbdRestart fun _ => 0]),
        unfinished s.mbd 1 = 2 ∧ ∃ head ∈ s.mbd.jobs 1, head.arrayId = 1 := by
    decide +kernel
  have reached : Reachable smallConf (Legibly recountsElements) s :=
    steps_of_execute (fun _ _ _ => legibly_of_rereading recountsElements_of_mayRecount) executed
  exact ⟨s, reached, two, ((arrayElementCnt_eq_unfinished reached).1 1 head found isHead).trans two⟩

/-- The head of the array ends before mbd is started again. -/
def headEnds : List Label :=
  pairRuns ++ [.jobExit "h1" 1 0, .reportFinish "h1" 1, .mbdRead "h1" 4 true,
    .mbdRestart fun _ => 0]

theorem arrayElementCnt_ne_unfinished :
    (runOf smallConf (fun _ _ => true) headEnds).map (fun s =>
        (s.mbd.arrayElementCnt 1, unfinished s.mbd 1,
          (manifestRebuild s.mbd).map fun m => (m.jobs 1).isSome)) = some (0, 1, some false) ∧
      ¬ ∀ (conf : Conf) (s : System), Reachable conf anyStep s →
        (∀ k head, s.mbd.jobs k = some head → head.arrayId = k →
            s.mbd.arrayElementCnt k = unfinished s.mbd k) ∧
          ∀ m', manifestRebuild s.mbd = some m' → ∀ k head, s.mbd.jobs k = some head →
            head.arrayId = k → ∀ i ∈ s.mbd.pend ++ s.mbd.run, ∀ job, s.mbd.jobs i = some job →
              job.arrayId = k → m'.jobs k = some head := by
  refine ⟨by decide +kernel, fun equal => ?_⟩
  obtain ⟨s, executed, zero, one, head, found, isHead⟩ :
      ∃ s ∈ runOf smallConf (fun _ _ => true) headEnds, s.mbd.arrayElementCnt 1 = 0 ∧
        unfinished s.mbd 1 = 1 ∧ ∃ head ∈ s.mbd.jobs 1, head.arrayId = 1 := by
    decide +kernel
  have same := (equal smallConf s (reachable_of_runOf executed)).1 1 head found isHead
  omega

end LavaLite.Cluster
