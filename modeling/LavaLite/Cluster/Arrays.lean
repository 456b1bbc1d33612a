import LavaLite.Cluster.Holds
import LavaLite.Cluster.Journal

/-
Conditions on whole arrays along a run.  `dep_array_check` looks at the elements still in the
table, not at all that were submitted, so a run is taken together with all jobs mbd has known
and how they ended.
-/

namespace LavaLite.Cluster

open Base Batch Mbd Sbd Kernel Option

def endOf (m : MbdState) (j : JobId) : Option JobState :=
  (m.jobs j).bind fun job => if job.listId = .finish then some job.state else none

/--
The system, every job mbd has known, as it was in the last state that had it, and
the state in which each of them ended.
-/
structure Recalled where
  system : System
  seen : JobId → Option JobData
  ended : JobId → Option JobState

def recalledStep (conf : Conf) (r : Recalled) (label : Label) : Option Recalled :=
  (step conf r.system label).map fun s' =>
    { system := s'
      seen := fun j => (s'.mbd.jobs j).or (r.seen j)
      ended := fun j => (r.ended j).or (endOf s'.mbd j) }

def recalledInitial (conf : Conf) : Recalled :=
  { system := initial conf
    seen := fun _ => none
    ended := fun _ => none }

def RecalledRun (conf : Conf) (guard : System → Label → Prop) : Recalled → Prop :=
  Steps (recalledStep conf) (fun r label => guard r.system label) (recalledInitial conf)

/-- A compaction frees an element of an array only together with the head. -/
def CompactsWhole (conf : Conf) (s : System) : Label → Prop
  | .timer now sendOk => ∀ m ∈ schedule conf s.mbd now sendOk,
      conf.finishThreshold ≤ (m.finish.length : Int) → KeepsElements m
  | _ => True

/-- What a run has to keep to for the conditions on its arrays to be right. -/
structure WholeArrays (conf : Conf) (s : System) (label : Label) : Prop where
  holds : Allows keepsHolds s label
  reports : Allows openReports s label
  recorded : hostsRecorded conf s label
  compacts : CompactsWhole conf s label

variable {conf : Conf} {guard : System → Label → Prop} {r r' : Recalled} {s s' : System}
  {label : Label}

theorem recalledStep_spec (taken : recalledStep conf r label = some r') :
    step conf r.system label = some r'.system ∧
      (∀ j, r'.seen j = (r'.system.mbd.jobs j).or (r.seen j)) ∧
      ∀ j, r'.ended j = (r.ended j).or (endOf r'.system.mbd j) := by
  obtain ⟨s', moved, result⟩ := map_eq_some_iff.mp taken
  cases result
  exact ⟨moved, fun _ => rfl, fun _ => rfl⟩

theorem RecalledRun.reachable (run : RecalledRun conf guard r) : Reachable conf guard r.system := by
  induction run with
  | refl => exact .refl
  | tail _ last ih =>
    obtain ⟨label, may, taken⟩ := last
    exact ih.tail ⟨label, may, (recalledStep_spec taken).1⟩

theorem Sound.continues (sound : Sound conf s) (legible : label.Rereads s) (final : Final s.mbd)
    (reports : Allows openReports s label) (taken : Cluster.step conf s label = some s') :
    Continues s.mbd s'.mbd := by
  cases mbdMoves_of_step sound reports (fun _ _ => trivial) legible taken with
  | @acts _ m₁ effects result =>
    have continues : Continues s.mbd m₁ :=
      effects.keeps (Continues s.mbd) (fun earlier effect => earlier.effect effect) (.refl _)
    rw [result]
    exact ⟨continues.saved, continues.ends⟩
  | @registers _ _ _ _ m₁ submitted result =>
    have continues : Continues s.mbd m₁ := submitted.continues sound.wf
    rw [result]
    exact ⟨continues.saved, continues.ends⟩
  | restarts replayed => exact (sound.restored replayed).continues final

theorem Sound.keepsElements (sound : Sound conf s) (legible : label.Rereads s)
    (remembered : Remembered conf (SameRoom conf) s.mbd) (whole : CompactsWhole conf s label)
    (taken : Cluster.step conf s label = some s') {j : JobId} {job : JobData}
    (found : s.mbd.jobs j = some job) (element : job.arrayId ≠ 0)
    (stays : (s'.mbd.jobs job.arrayId).isSome = true) : (s'.mbd.jobs j).isSome = true := by
  have known : (s.mbd.jobs j).isSome = true := isSome_iff_exists.mpr ⟨job, found⟩
  cases sound.moves legible taken with
  | acts _ _ effects _ _ => exact ((Effects.sameJobs sound.wf effects).2.1 j).trans known
  | @compacts m m' scheduled effects compacted _ _ =>
    obtain ⟨now, sendOk, rfl, scheduled, many⟩ := scheduled
    obtain ⟨_, domain, requests⟩ := Effects.sameJobs sound.wf effects
    obtain ⟨later, there⟩ := isSome_iff_exists.mp ((domain j).trans known)
    obtain ⟨before, was, same⟩ := requests j later there
    rw [found] at was
    cases was
    have array : later.arrayId = job.arrayId := congrArg Request.arrayId same
    have keeps : KeepsElements m := whole m scheduled many
    have wf := effects.keeps (Wf conf) Effect.wf sound.wf
    rw [← array] at element stays
    have kept : m'.jobs j = some later :=
      keeps.compact wf.toListed compacted there element stays
    exact isSome_iff_exists.mpr ⟨later, kept⟩
  | registers submitted _ _ => exact submitted.keepsKnown known
  | restarts _ restored =>
    obtain ⟨replayed, found', _⟩ := remembered.restored restored found
    exact isSome_iff_exists.mpr ⟨replayed, found'⟩
  | settles jobs _ _ _ _ _ => exact jobs ▸ known

/--
Every element ever seen of an array whose head is known is in the table, as it was
last seen, and the ends of the jobs in the table are those that were recorded.
-/
structure Retains (r : Recalled) : Prop where
  now : ∀ {j job}, r.system.mbd.jobs j = some job → r.seen j = some job
  used : ∀ {j job}, r.seen j = some job → job.arrayId ≤ r.system.mbd.seqFile
  kept : ∀ {j job}, r.seen j = some job → job.arrayId ≠ 0 →
    (r.system.mbd.jobs job.arrayId).isSome = true → r.system.mbd.jobs j = some job
  past : ∀ {j x}, r.ended j = some x → j ≤ r.system.mbd.seqFile
  ends : ∀ {j job}, r.system.mbd.jobs j = some job →
    r.ended j = if job.listId = .finish then some job.state else none

theorem Reachable.joinsEarlier (reached : Reachable conf (Legibly guard) s) :
    EveryJob JoinsEarlier s.mbd :=
  Sound.mbd_invariant (EveryJob JoinsEarlier) (fun _ => allows_anyReport _ _)
    (initial_everyJob conf JoinsEarlier) (fun _ earlier effect => effect.everyJob earlier)
    (fun _ _ earlier registers => registers.everyJob Commit.joinsEarlier earlier)
    (fun _ sound earlier replayed => (sound.restored replayed).joinsEarlier earlier)
    (fun earlier => earlier) (sound_initial conf) reached

theorem seen_cases {j : JobId} {job : JobData}
    (seen : r'.seen j = (r'.system.mbd.jobs j).or (r.seen j)) (at' : r'.seen j = some job) :
    r'.system.mbd.jobs j = some job ∨ (r'.system.mbd.jobs j = none ∧ r.seen j = some job) := by
  rw [seen] at at'
  cases known : r'.system.mbd.jobs j with
  | none =>
    rw [known, none_or] at at'
    exact Or.inr ⟨rfl, at'⟩
  | some found =>
    rw [known, some_or] at at'
    exact Or.inl at'

theorem Reachable.allRemembered (reached : Reachable conf (Legibly (WholeArrays conf)) s) :
    Remembered conf (SameRoom conf) s.mbd := by
  apply Reachable.sameRoom
  exact Steps.mono (fun s label may => ⟨may.1.recorded, may.2⟩) reached

theorem Retains.ends_step (retains : Retains r) (continues : Continues r.system.mbd r'.system.mbd)
    (ended : ∀ j, r'.ended j = (r.ended j).or (endOf r'.system.mbd j)) {j : JobId}
    {job' : JobData} (found : r'.system.mbd.jobs j = some job') :
    r'.ended j = if job'.listId = .finish then some job'.state else none := by
  have now : endOf r'.system.mbd j = if job'.listId = .finish then some job'.state else none := by
    rw [endOf, found, bind_some]
  rw [ended, now]
  rcases continues.ends found with ⟨job, before, final⟩ | new
  · rw [retains.ends before]
    by_cases was : job.listId = .finish
    · obtain ⟨list, state⟩ := final was
      rw [if_pos was, if_pos list, state, some_or]
    · rw [if_neg was, none_or]
  · have fresh : r.ended j = none := by
      cases past : r.ended j with
      | none => rfl
      | some x => exact absurd (retains.past past) (Int.not_le.mpr new)
    rw [fresh, none_or]

theorem RecalledRun.retains (run : RecalledRun conf (Legibly (WholeArrays conf)) r) :
    Retains r := by
  refine Steps.invariant_over (RecalledRun conf (Legibly (WholeArrays conf))) Retains id
    ⟨nofun, nofun, nofun, nofun, nofun⟩ ?_ run
  intro r r' label before retains may taken
  obtain ⟨moved, seen, ended⟩ := recalledStep_spec taken
  have sound := before.reachable.sound
  have after : Reachable conf (Legibly (WholeArrays conf)) r'.system :=
    before.reachable.tail ⟨label, may, moved⟩
  have final : Final r.system.mbd := by
    apply Reachable.final
    exact Steps.mono (fun s label may => ⟨may.1.reports, may.2⟩) before.reachable
  have continues := sound.continues may.2 final may.1.reports moved
  constructor
  · intro j job found
    rw [seen, found, some_or]
  · intro j job at'
    rcases seen_cases (seen j) at' with found | ⟨_, earlier⟩
    · have id : job.jobId = j := (after.sound.wf.job found).id
      have joins : job.arrayId ≤ job.jobId := after.joinsEarlier j job found
      exact Int.le_trans (id ▸ joins) (after.sound.saved found)
    · exact Int.le_trans (retains.used earlier) continues.saved
  · intro j job at' element stays
    rcases seen_cases (seen j) at' with found | ⟨lost, earlier⟩
    · exact found
    · -- the head is not new, so the element was in the table, and it is not lost alone
      have head : (r.system.mbd.jobs job.arrayId).isSome = true := by
        obtain ⟨first, found⟩ := isSome_iff_exists.mp stays
        rcases continues.ends found with ⟨known, there, _⟩ | new
        · exact isSome_iff_exists.mpr ⟨known, there⟩
        · exact absurd (retains.used earlier) (Int.not_le.mpr new)
      have still := sound.keepsElements may.2 before.reachable.allRemembered may.1.compacts moved
        (retains.kept earlier element head) element stays
      rw [lost] at still
      cases still
  · intro j x at'
    rw [ended] at at'
    cases past : r.ended j with
    | some y => exact Int.le_trans (retains.past past) continues.saved
    | none =>
      rw [past, none_or] at at'
      obtain ⟨job, found, _⟩ := bind_eq_some_iff.mp at'
      exact after.sound.saved found
  · exact fun found => retains.ends_step continues ended found

theorem Reachable.targetsKnown (reached : Reachable conf (Legibly (WholeArrays conf)) s) :
    TargetsKnown s.mbd := by
  have held : ∀ {t}, Reachable conf (Legibly (WholeArrays conf)) t →
      Reachable conf (Legibly (Allows keepsHolds)) t :=
    Steps.mono fun s label may => ⟨may.1.holds, may.2⟩
  refine Steps.invariant_over (Reachable conf (Legibly (WholeArrays conf)))
    (fun s => TargetsKnown s.mbd) id
    (fun _ job found => absurd found (some_ne_none job).symm) ?_ reached
  intro s s' label reached known may taken
  have sound := reached.sound
  have balanced := (held reached).holdsBalanced
  cases mbdMoves_of_step sound may.1.holds (fun _ _ => trivial) may.2 taken with
  | @acts _ m₁ effects result =>
    have both : HoldsBalanced m₁ ∧ TargetsKnown m₁ :=
      effects.keeps_of_wf (fun m => HoldsBalanced m ∧ TargetsKnown m)
        (fun wf both effect => ⟨effect.holdsBalanced wf both.1,
          effect.targetsKnown wf both.1 both.2⟩) sound.wf ⟨balanced, known⟩
    rw [result]
    exact both.2
  | @registers _ _ _ _ m₁ submitted result =>
    have later : TargetsKnown m₁ := submitted.targetsKnown known
    rw [result]
    exact later
  | restarts replayed =>
    apply (sound.restored replayed).targetsKnown _ known
    intro j there
    obtain ⟨job, found⟩ := isSome_iff_exists.mp there
    obtain ⟨replayed', found', _⟩ :=
      reached.allRemembered.restored (sound.restored replayed) found
    exact isSome_iff_exists.mpr ⟨replayed', found'⟩

def EveryElement (r : Recalled) (k : JobId) (ends : JobState → Prop) : Prop :=
  ∀ j job, r.seen j = some job → job.arrayId = k → ∃ x, r.ended j = some x ∧ ends x

theorem Retains.check {type : DepType} {ends : JobState → Prop} {k : JobId} {head : JobData}
    (retains : Retains r) (wf : Wf conf r.system.mbd) (known : r.system.mbd.jobs k = some head)
    (isHead : head.arrayId = k)
    (asks : ∀ job : JobData, depJobCheck job type = true ↔ ends job.state) :
    depCallEval r.system.mbd type k = true ↔ EveryElement r k ends := by
  have positive : k ≠ 0 := Int.ne_of_gt (wf.ids known).1
  rw [depCallEval_head wf known isHead, depArrayCheck_iff wf.toListed]
  constructor
  · intro each j job seen element
    have there := retains.kept seen (element ▸ positive) (by rw [element, known]; rfl)
    obtain ⟨ended, passes⟩ := each j job there element
    refine ⟨job.state, ?_, (asks job).mp passes⟩
    rw [retains.ends there, if_pos ended]
  · intro each j job there element
    obtain ⟨x, recorded, suits⟩ := each j job (retains.now there) element
    rw [retains.ends there] at recorded
    split at recorded
    next ended =>
      cases recorded
      exact ⟨ended, (asks job).mpr suits⟩
    next => cases recorded

/--
In a run whose steps meet the conditions, what a pending job waits for on the first
job of an array is decided by every element that was ever submitted.
-/
theorem array_conditions (run : RecalledRun conf (Legibly (WholeArrays conf)) r) {i : JobId}
    {job head : JobData} {d : JobDep} (pending : i ∈ r.system.mbd.pend)
    (found : r.system.mbd.jobs i = some job) (member : d ∈ job.deps)
    (condition : d.isCondition = true) (first : r.seen d.jobId = some head)
    (isHead : head.arrayId = d.jobId) :
    (depCallEval r.system.mbd .done d.jobId = true ↔ EveryElement r d.jobId (· = .done)) ∧
      (depCallEval r.system.mbd .exit d.jobId = true ↔ EveryElement r d.jobId (· = .exited)) ∧
      (depCallEval r.system.mbd .ended d.jobId = true ↔
        EveryElement r d.jobId fun x => x = .done ∨ x = .exited) := by
  have retains := run.retains
  have wf := run.reachable.sound.wf
  have known : r.system.mbd.jobs d.jobId = some head := by
    have there := run.reachable.targetsKnown i job found ((wf.mem_iff found .pend).mp pending) d
      member condition
    obtain ⟨other, at'⟩ := isSome_iff_exists.mp there
    rw [at', ← first, retains.now at']
  refine ⟨retains.check wf known isHead ?_, retains.check wf known isHead ?_,
    retains.check wf known isHead ?_⟩
  · exact fun _ => decide_eq_true_iff
  · exact fun _ => decide_eq_true_iff
  · intro job
    simp [depJobCheck, JobState.isFinished]

def recalledOf (conf : Conf) (check : System → Label → Bool) (labels : List Label) :
    Option Recalled :=
  execute (recalledStep conf) (fun r label => check r.system label) (recalledInitial conf) labels

def mayWait (conf : Conf) (s : System) (label : Label) : Bool :=
  mayRead keepsHolds s label && mayRead openReports s label &&
    match label with
    | .timer now sendOk => (schedule conf s.mbd now sendOk).all fun m =>
      decide (conf.finishThreshold ≤ (m.finish.length : Int) → KeepsElements m)
    | _ => true

theorem wholeArrays_of_mayWait (recorded : label.Asks (HostsRecorded conf))
    (checked : mayWait conf s label = true) : WholeArrays conf s label := by
  obtain ⟨reads, last⟩ := (Bool.and_eq_true _ _).mp checked
  obtain ⟨holds, reports⟩ := (Bool.and_eq_true _ _).mp reads
  refine ⟨allows_of_mayRead (.inr fun _ _ => trivial) holds,
    allows_of_mayRead (.inr fun _ _ => trivial) reports, recorded, ?_⟩
  cases label with
  | timer now sendOk =>
    intro m scheduled
    simp only [mem_def.mp scheduled, all_some] at last
    exact of_decide_eq_true last
  | _ => trivial

def bothEnd : List Label :=
  pairRuns ++ [submitAt 4 afterFirst, .jobExit "h1" 2 0, .reportFinish "h1" 2,
    .mbdRead "h1" 5 true, .jobExit "h1" 1 0, .reportFinish "h1" 1, .mbdRead "h1" 6 true]

/-- A pending job of the state waits for the first job, which is the head of an array. -/
def awaitsArray (r : Recalled) : Bool :=
  ((r.seen 1).any fun head => decide (head.arrayId = 1)) &&
    r.system.mbd.pend.any fun i => (r.system.mbd.jobs i).any fun job =>
      job.deps.any fun d => d.isCondition && decide (d.jobId = 1)

theorem awaitsArray_iff : awaitsArray r = true ↔
    (∃ head, r.seen 1 = some head ∧ head.arrayId = 1) ∧ ∃ i ∈ r.system.mbd.pend, ∃ job,
      r.system.mbd.jobs i = some job ∧ ∃ d ∈ job.deps, d.isCondition = true ∧ d.jobId = 1 := by
  simp only [awaitsArray, Bool.and_eq_true, Option.any_eq_true, List.any_eq_true, decide_eq_true_eq]

theorem array_conditions_bothEnd :
    ∃ r, RecalledRun smallConf (Legibly (WholeArrays smallConf)) r ∧
      depCallEval r.system.mbd .done 1 = true ∧ EveryElement r 1 (· = .done) := by
  obtain ⟨r, executed, waits, holds⟩ :
      ∃ r ∈ recalledOf smallConf (rereading (mayWait smallConf)) bothEnd,
        awaitsArray r = true ∧ depCallEval r.system.mbd .done 1 = true := by
    decide +kernel
  have plain : HostsRecorded smallConf pairRequest ∧ HostsRecorded smallConf afterFirst := by
    unfold HostsRecorded
    decide +kernel
  have asks : ∀ label ∈ bothEnd, label.Asks (HostsRecorded smallConf) := by
    simpa [bothEnd, pairRuns, join, submitAt, Label.Asks] using plain
  obtain ⟨⟨head, first, isHead⟩, i, pending, job, found, d, member, condition, names⟩ :=
    awaitsArray_iff.mp waits
  have run : RecalledRun smallConf (Legibly (WholeArrays smallConf)) r :=
    steps_of_execute (fun label member r => legibly_of_rereading
      (wholeArrays_of_mayWait (asks label member))) executed
  have exact' := (array_conditions run pending found member condition (names ▸ first)
    (names ▸ isHead)).1
  rw [names] at exact'
  exact ⟨r, run, holds, exact'.mp holds⟩

/-- One element fails and is compacted away before the other one ends well. -/
def failureFreed : List Label :=
  pairRuns ++ [submitAt 4 afterFirst, .jobExit "h1" 2 1, .reportFinish "h1" 2,
    .mbdRead "h1" 5 true, .timer 6 fun _ => true, .jobExit "h1" 1 0, .reportFinish "h1" 1,
    .mbdRead "h1" 7 true]

theorem array_conditions_fail :
    (recalledOf eagerConf (fun _ _ => true) failureFreed).map (fun r =>
        (r.ended 1, r.ended 2, r.system.mbd.pend, depCallEval r.system.mbd .done 1)) =
      some (some .done, some .exited, [3], true) ∧
      ¬ ∀ (conf : Conf) (r : Recalled), RecalledRun conf anyStep r → ∀ i ∈ r.system.mbd.pend,
        ∀ job, r.system.mbd.jobs i = some job → ∀ d ∈ job.deps, d.isCondition = true →
          ∀ head, r.seen d.jobId = some head → head.arrayId = d.jobId →
            (depCallEval r.system.mbd .done d.jobId = true ↔ EveryElement r d.jobId (· = .done)) ∧
            (depCallEval r.system.mbd .exit d.jobId = true ↔ EveryElement r d.jobId (· = .exited)) ∧
            (depCallEval r.system.mbd .ended d.jobId = true ↔
              EveryElement r d.jobId fun x => x = .done ∨ x = .exited) := by
  refine ⟨by decide +kernel, fun always => ?_⟩
  obtain ⟨r, executed, waits, holds, failed, other, seen, element⟩ :
      ∃ r ∈ recalledOf eagerConf (fun _ _ => true) failureFreed, awaitsArray r = true ∧
        depCallEval r.system.mbd .done 1 = true ∧ r.ended 2 = some .exited ∧
          ∃ job ∈ r.seen 2, job.arrayId = 1 := by
    decide +kernel
  obtain ⟨⟨head, first, isHead⟩, i, pending, job, found, d, member, condition, names⟩ :=
    awaitsArray_iff.mp waits
  have run : RecalledRun eagerConf anyStep r := steps_of_execute (fun _ _ _ _ => trivial) executed
  have exact' := (always eagerConf r run i pending job found d member condition head
    (names ▸ first) (names ▸ isHead)).1
  rw [names] at exact'
  obtain ⟨x, ended, done⟩ := exact'.mp holds 2 other seen element
  rw [failed] at ended
  cases ended
  cases done

end LavaLite.Cluster
