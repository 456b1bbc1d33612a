import LavaLite.Mbd.Journal

/-
The two counters that keep a finished job in memory: `dep_refcnt` counts the atoms of pending
jobs that name it, `array_element_cnt` the elements of its array that have not finished.
-/

namespace LavaLite.Mbd

open Base Batch Kernel List Option

def awaiting (m : MbdState) (k : JobId) : Int :=
  listTally m (fun job => (namings job k : Int)) .pend

def elementShare (k : JobId) (job : JobData) : Int :=
  if job.arrayId = k ∧ job.listId ≠ .finish then 1 else 0

def unfinished (m : MbdState) (k : JobId) : Int :=
  openTally m (elementShare k)

/-- The count of every job is the number of atoms that wait for it. -/
def HoldsBalanced (m : MbdState) : Prop :=
  ∀ k, (m.jobs k).isSome → m.depRefcnt k = awaiting m k

/-- The count of every array head is the number of its elements that have not finished. -/
def ElementsBalanced (m : MbdState) : Prop :=
  ∀ k head, m.jobs k = some head → head.arrayId = k → m.arrayElementCnt k = unfinished m k

def keepsHolds : Permit
  | _, job, .released => ∀ d ∈ job.deps, d.isCondition = false
  | _, _, _ => True

instance decidableKeepsHolds (m : MbdState) (job : JobData) :
    ∀ report, Decidable (keepsHolds m job report)
  | .released => inferInstanceAs (Decidable (∀ d ∈ job.deps, d.isCondition = false))
  | .forked | .stopped _ | .continued _ | .finished | .unsent | .compacted | .moved _ | .ranked _ =>
    isTrue trivial

/-- An expression names only jobs that were there before its own. -/
def NamesEarlier (request : Request) : Prop :=
  Resolved (fun d => decide (d < request.jobId)) request.deps

variable {job job' : JobData} {k : JobId}

theorem namings_eq_zero (none : ∀ d ∈ job.deps, d.isCondition = true → d.jobId ≠ k) :
    namings job k = 0 := by
  apply countP_eq_zero.mpr
  intro d member named
  obtain ⟨condition, id⟩ := (Bool.and_eq_true _ _).mp named
  exact none d member condition (of_decide_eq_true id)

theorem elementShare_open (k : JobId) : OpenWeight (elementShare k) := by
  intro job ended
  simp [elementShare, ended]

/-! ### Effects -/

variable {conf : Conf} {permits : Permit} {m m' : MbdState} {j i : JobId}
  {onHost : HostChange} {onQueue : QueueChange} {pools : PoolName → Int} {records : List Event}
  {sent : Outbox}

theorem Change.holdsBalanced (change : Change m m' j job job' onHost onQueue pools records sent)
    (wf : Listed m) (balanced : HoldsBalanced m)
    (returns : job.listId ≠ .pend → job'.listId = .pend → ∀ d ∈ job.deps, d.isCondition = false) :
    HoldsBalanced m' := by
  intro k known
  rw [change.isSome_jobs] at known
  have sum := change.tally wf (fun job => (namings job k : Int)) .pend
  have deps : job'.deps = job.deps := congrArg Request.deps change.request
  have same : namings job' k = namings job k := by rw [namings, namings, deps]
  rw [change.holds, balanced k known, awaiting, awaiting, sum, releasedHolds, onList, onList, same]
  by_cases was : job.listId = .pend
  · by_cases is : job'.listId = .pend
    · simp [was, is]
    · simp [was, is, known]
  · by_cases is : job'.listId = .pend
    · have none : namings job k = 0 := by
        apply namings_eq_zero
        intro d member condition
        rw [returns was is d member] at condition
        cases condition
      simp [was, is, none]
    · simp [was, is]

theorem Change.elementsBalanced
    (change : Change m m' j job job' onHost onQueue pools records sent) (wf : Wf conf m)
    (balanced : ElementsBalanced m) (final : job.listId = .finish → job'.listId = .finish) :
    ElementsBalanced m' := by
  intro k head found isHead
  have array : job'.arrayId = job.arrayId := congrArg Request.arrayId change.request
  obtain ⟨before, was, sameArray⟩ : ∃ before, m.jobs k = some before ∧ before.arrayId = k := by
    rcases change.jobs_cases found with ⟨rfl, rfl⟩ | ⟨_, before⟩
    · exact ⟨job, change.found, array ▸ isHead⟩
    · exact ⟨head, before, isHead⟩
  have positive := (wf.ids was).1
  have sum := change.openTally wf.toListed (elementShare_open k)
  have known : (m.jobs k).isSome = true := by
    rw [was]
    rfl
  rw [change.elements, balanced k before was sameArray, unfinished, unfinished, sum,
    finishedElements, elementShare, elementShare, array]
  by_cases element : job.arrayId = k
  · have nonzero : job.arrayId ≠ 0 := by
      rw [element]
      exact Int.ne_of_gt positive
    by_cases ended : job.listId = .finish
    · simp [ended, final ended]
    · by_cases ends : job'.listId = .finish
      · simp [element, ended, ends, known, element ▸ nonzero]
      · simp [element, ended, ends]
  · simp [element]

structure SameTable (m m' : MbdState) : Prop where
  jobs : m'.jobs = m.jobs
  lists : ∀ id, (m'.list id).Perm (m.list id)
  holds : m'.depRefcnt = m.depRefcnt
  elements : m'.arrayElementCnt = m.arrayElementCnt

theorem Frame.sameTable (framed : Frame m m') : SameTable m m' where
  jobs := framed.jobs
  lists := fun id => by
    cases id with
    | pend => exact framed.pend
    | run => exact List.Perm.of_eq framed.run
    | finish => exact List.Perm.of_eq framed.finish
  holds := framed.holds
  elements := framed.elements

theorem SameTable.send (n : HostName) (msg : MbdMsg) : SameTable m (m.send n msg) where
  jobs := rfl
  lists := fun id => by cases id <;> exact List.Perm.refl _
  holds := rfl
  elements := rfl

theorem SameTable.holdsBalanced (same : SameTable m m') (balanced : HoldsBalanced m) :
    HoldsBalanced m' := by
  intro k known
  rw [same.jobs] at known
  rw [same.holds, awaiting, listTally_of_eq same.jobs (same.lists .pend)]
  exact balanced k known

theorem SameTable.elementsBalanced (same : SameTable m m') (balanced : ElementsBalanced m) :
    ElementsBalanced m' := by
  intro k head found isHead
  rw [same.jobs] at found
  rw [same.elements, unfinished, openTally, listTally_of_eq same.jobs (same.lists .pend),
    listTally_of_eq same.jobs (same.lists .run)]
  exact balanced k head found isHead

/--
What an effect does to the lists: nothing, a move of one job that does not take it
off the finished list, or a compaction.
-/
inductive Relists (permits : Permit) (m m' : MbdState) : Prop where
  | none (same : SameTable m m')
  | one {j : JobId} {job job' : JobData} {onHost : HostChange} {onQueue : QueueChange}
      {pools : PoolName → Int} {records : List Event} {sent : Outbox}
      (change : Change m m' j job job' onHost onQueue pools records sent)
      (final : job.listId = .finish → job'.listId = .finish)
      (returns : job.listId ≠ .pend → job'.listId = .pend → permits m job .released)
  | compacts (compacted : manifestRebuild m = some m')

theorem Effect.relists (effect : Effect conf permits m m') : Relists permits m m' := by
  have stays : ∀ {j job job' onHost onQueue pools records sent},
      Change m m' j job job' onHost onQueue pools records sent → job'.listId = job.listId →
      Relists permits m m' := fun change list =>
    .one change (fun ended => list.trans ended) fun away back => absurd (list ▸ back) away
  have leaves : ∀ {j job job' onHost onQueue pools records sent},
      Change m m' j job job' onHost onQueue pools records sent → job.listId ≠ .finish →
      job'.listId ≠ .pend → Relists permits m m' := fun change open_ away =>
    .one change (fun ended => absurd ended open_) fun _ back => absurd back away
  cases effect with
  | frame framed => exact .none framed.sameTable
  | ackReply _ _ sends | ackFinish _ _ sends =>
    subst sends
    exact .none (.send _ _)
  | note _ change | stranded _ _ _ _ _ change | signalSent _ _ change | hold _ _ _ change
  | unhold _ _ _ change | move _ _ _ _ _ change | priority _ _ change | fork _ _ _ _ _ change
  | stopped _ _ _ change | continued _ _ _ change =>
    exact stays change rfl
  | dispatch pending _ _ _ _ _ _ _ change =>
    exact leaves change (pending.trans_ne (by decide)) (show ListId.run ≠ .pend by decide)
  | kill pending _ _ _ change | finish pending _ _ _ _ _ _ change =>
    exact leaves change (pending.trans_ne (by decide)) (show ListId.finish ≠ .pend by decide)
  | release running _ _ _ _ _ permitted change =>
    exact .one change (fun ended => absurd (running.symm.trans ended) (by decide))
      fun _ _ => permitted
  | compact _ compacted => exact .compacts compacted

theorem compact_pendTally (compacted : manifestRebuild m = some m') (wf : Listed m)
    (weight : JobData → Int) : listTally m' weight .pend = listTally m weight .pend := by
  have sums : m'.list .pend = m.list .pend := by
    obtain ⟨_, _, result⟩ := manifestRebuild_spec compacted
    rw [result]
    rfl
  unfold listTally
  rw [sums]
  apply tally_congr
  intro i member
  obtain ⟨job, found, pending⟩ := (wf.listed .pend i).mp member
  rw [compact_open compacted wf found (pending.trans_ne (by decide)), found]

theorem Effect.holdsBalanced (wf : Wf conf m) (balanced : HoldsBalanced m)
    (effect : Effect conf keepsHolds m m') : HoldsBalanced m' := by
  cases effect.relists with
  | none same => exact same.holdsBalanced balanced
  | one change _ returns => exact change.holdsBalanced wf.toListed balanced returns
  | compacts compacted =>
    intro k known
    obtain ⟨job, found⟩ := isSome_iff_exists.mp known
    have before := (compact_jobs compacted found).1
    have same : m'.depRefcnt = m.depRefcnt := by
      obtain ⟨_, _, result⟩ := manifestRebuild_spec compacted
      rw [result]
    rw [same, awaiting, compact_pendTally compacted wf.toListed]
    exact balanced k (isSome_iff_exists.mpr ⟨job, before⟩)

theorem Effect.elementsBalanced (wf : Wf conf m) (balanced : ElementsBalanced m)
    (effect : Effect conf permits m m') : ElementsBalanced m' := by
  cases effect.relists with
  | none same => exact same.elementsBalanced balanced
  | one change final _ => exact change.elementsBalanced wf balanced final
  | compacts compacted =>
    intro k head found isHead
    have same : m'.arrayElementCnt = m.arrayElementCnt := by
      obtain ⟨_, _, result⟩ := manifestRebuild_spec compacted
      rw [result]
    rw [same, unfinished, compact_openTally compacted wf]
    exact balanced k head (compact_jobs compacted found).1 isHead

theorem compact_retained (compacted : manifestRebuild m = some m') (found : m.jobs i = some job)
    (needed : retained m i job = true) : m'.jobs i = some job := by
  obtain ⟨_, _, rfl⟩ := manifestRebuild_spec compacted
  apply keeping_of_some found
  intro ended
  apply mem_filter.mpr
  exact ⟨ended, by rw [keepFinished, found]; exact needed⟩

theorem HoldsBalanced.compact {d : JobDep} (balanced : HoldsBalanced m) (listed : Listed m)
    (compacted : manifestRebuild m = some m') (found : m.jobs i = some job)
    (pending : job.listId = .pend) (member : d ∈ job.deps) (condition : d.isCondition = true) :
    m'.jobs d.jobId = m.jobs d.jobId := by
  cases target : m.jobs d.jobId with
  | none =>
    cases kept : m'.jobs d.jobId with
    | none => rfl
    | some other => exact absurd (target.symm.trans (compact_jobs compacted kept).1) nofun
  | some other =>
    have named : 0 < namings job d.jobId :=
      countP_pos_iff.mpr ⟨d, member, by simp [condition]⟩
    have counted : (namings job d.jobId : Int) ≤ awaiting m d.jobId := by
      rw [awaiting, ← pending]
      exact le_listTally listed found fun _ => Int.natCast_nonneg _
    have held : m.depRefcnt d.jobId > 0 := by
      rw [balanced d.jobId (target ▸ rfl)]
      omega
    apply compact_retained compacted target
    rw [retained, decide_eq_true held, Bool.true_or]

theorem ElementsBalanced.compact {head : JobData} (balanced : ElementsBalanced m) (wf : Wf conf m)
    (compacted : manifestRebuild m = some m') (found : m.jobs k = some head)
    (isHead : head.arrayId = k) (there : m.jobs i = some job) (element : job.arrayId = k)
    (open_ : job.listId ≠ .finish) : m'.jobs k = some head := by
  have counted : elementShare k job ≤ unfinished m k := by
    apply le_openTally wf.toListed there open_
    intro _ other _
    unfold elementShare
    split <;> decide
  have one : elementShare k job = 1 := if_pos ⟨element, open_⟩
  have held : m.arrayElementCnt k > 0 := by
    rw [balanced k head found isHead]
    omega
  apply compact_retained compacted found
  have own : head.arrayId = head.jobId := isHead.trans (wf.job found).id.symm
  have positive : head.arrayId ≠ 0 := isHead ▸ Int.ne_of_gt (wf.ids found).1
  rw [retained, decide_eq_true held, decide_eq_true own, decide_eq_true positive]
  exact Bool.or_true _

/-! ### Submissions -/

variable {ws : WireJobSubmit} {q : QueueName}

theorem Commit.namesEarlier (commit : Commit conf ws m m' q job) : NamesEarlier job.request := by
  intro d member condition
  obtain ⟨target, known⟩ := isSome_iff_exists.mp (commit.named d member condition)
  exact decide_eq_true (commit.newest known)

theorem Commit.awaiting_self (commit : Commit conf ws m m' q job) (wf : Wf conf m)
    (earlier : EveryJob NamesEarlier m) : awaiting m job.jobId = 0 := by
  apply tally_eq_zero
  intro i member
  obtain ⟨other, found, _⟩ := (wf.listed .pend i).mp member
  rw [found, elim_some]
  have none : namings other job.jobId = 0 := by
    apply namings_eq_zero
    intro d inDeps condition same
    have before := of_decide_eq_true (earlier i other found d inDeps condition)
    have id : other.request.jobId = i := (wf.job found).id
    have newer := commit.newest found
    rw [id, same] at before
    exact absurd before (Int.not_lt.mpr (Int.le_of_lt newer))
  rw [none]
  rfl

theorem Commit.holdsBalanced (commit : Commit conf ws m m' q job) (wf : Wf conf m)
    (earlier : EveryJob NamesEarlier m) (balanced : HoldsBalanced m) : HoldsBalanced m' := by
  intro k known
  have sum := commit.tally wf.toListed (fun job => (namings job k : Int)) .pend
  rw [commit.holds, if_pos known, awaiting, sum, onList, if_pos commit.prepared.list]
  congr 1
  by_cases self : k = job.jobId
  · subst self
    rw [if_pos rfl]
    exact (commit.awaiting_self wf earlier).symm
  · rw [if_neg self]
    rw [commit.jobs, Function.update_of_ne self] at known
    exact balanced k known

theorem Registers.holdsBalanced (registers : Registers conf ws m m') (wf : Wf conf m)
    (earlier : EveryJob NamesEarlier m) (balanced : HoldsBalanced m) : HoldsBalanced m' := by
  have both : EveryJob NamesEarlier m' ∧ HoldsBalanced m' := by
    refine registers.keeps_of_wf (fun m => EveryJob NamesEarlier m ∧ HoldsBalanced m) ?framed
      ?committed (fun _ held => held) wf ⟨earlier, balanced⟩
    case framed =>
      intro m m' _ held framed
      exact ⟨framed.everyJob held.1, framed.sameTable.holdsBalanced held.2⟩
    case committed =>
      intro m m' q job wf held commit
      exact ⟨commit.everyJob commit.namesEarlier held.1, commit.holdsBalanced wf held.1 held.2⟩
  exact both.2

/-- An element joins an array that was opened no later than the element itself. -/
def JoinsEarlier (request : Request) : Prop :=
  request.arrayId ≤ request.jobId

theorem Commit.joinsEarlier (commit : Commit conf ws m m' q job) : JoinsEarlier job.request := by
  rcases commit.element with single | own | ⟨head, there, _⟩
  · change job.arrayId ≤ job.jobId
    rw [single]
    exact Int.le_of_lt commit.positive
  · exact Int.le_of_eq own
  · exact Int.le_of_lt (commit.newest there)

theorem Commit.unfinished_self (commit : Commit conf ws m m' q job) (wf : Wf conf m)
    (earlier : EveryJob JoinsEarlier m) : unfinished m job.jobId = 0 := by
  have none : ∀ id, listTally m (elementShare job.jobId) id = 0 := by
    intro id
    apply tally_eq_zero
    intro i member
    obtain ⟨other, found, _⟩ := (wf.listed id i).mp member
    rw [found, elim_some, elementShare]
    apply if_neg
    rintro ⟨array, _⟩
    have before : other.arrayId ≤ other.jobId := earlier i other found
    have newer := commit.newest found
    rw [array, (wf.job found).id] at before
    exact absurd newer (Int.not_lt.mpr before)
  rw [unfinished, Mbd.openTally, none, none]
  rfl

/--
Between two commits the head of the array counts the elements that are committed
and those that are not.
-/
structure Counting (conf : Conf) (ws : WireJobSubmit) (head : JobId) (total : Nat)
    (front rest : List JobData) (m : MbdState) : Prop where
  wf : Wf conf m
  earlier : EveryJob JoinsEarlier m
  whole : (front ++ rest).length = total
  counts : ∀ k first, m.jobs k = some first → first.arrayId = k → m.arrayElementCnt k =
      unfinished m k + if ws.flags.array = true ∧ k = head then (rest.length : Int) else 0

theorem Counting.turn {table : JobId → Option JobData} {uid gid : Nat} {head base seq : JobId}
    {total : Nat} {front rest : List JobData}
    (half : Halfway conf ws table uid gid head base seq front (job :: rest) m)
    (commit : Commit conf ws m m' q job) (elements : m'.arrayElementCnt =
      Function.update m.arrayElementCnt job.jobId (elementCount ws total job))
    (counting : Counting conf ws head total front (job :: rest) m) :
    Counting conf ws head total (front ++ [job]) rest m' := by
  have array := half.lot.array job (by simp)
  refine ⟨commit.wf counting.wf, commit.everyJob commit.joinsEarlier counting.earlier, ?_, ?_⟩
  · rw [← counting.whole]
    simp
  · intro k first found isHead
    have sum := commit.openTally counting.wf.toListed (elementShare_open k)
    rw [elements, unfinished, sum, elementShare, commit.prepared.list]
    rcases commit.jobs_cases found with ⟨rfl, rfl⟩ | before
    · -- the job that opens the array: it is the first of its submission
      have isArray : ws.flags.array = true := by
        by_contra single
        rw [if_neg single, isHead] at array
        exact absurd array (Int.ne_of_gt commit.positive)
      rw [if_pos isArray] at array
      have opens : first.jobId = head := isHead.symm.trans array
      have alone : front = [] := by
        cases front with
        | nil => rfl
        | cons oldest earlier =>
          have ordered := (pairwise_append.mp half.lot.pairwise).2.2 oldest mem_cons_self
            first mem_cons_self
          have oldestId : oldest.jobId = head := half.lot.first
          rw [oldestId, opens] at ordered
          exact absurd ordered (Int.lt_irrefl head)
      have none : Mbd.openTally m (elementShare first.jobId) = 0 :=
        commit.unfinished_self counting.wf counting.earlier
      have whole := counting.whole
      rw [alone] at whole
      rw [Function.update_self, elementCount, if_pos ⟨isArray, isHead⟩, none, ← whole]
      simp [isArray, isHead, opens]
      omega
    · have positive := (counting.wf.ids before).1
      have other : k ≠ job.jobId := Int.ne_of_lt (commit.newest before)
      rw [Function.update_of_ne other, counting.counts k first before isHead, array, unfinished]
      by_cases isArray : ws.flags.array = true
      · by_cases same : k = head
        · simp [isArray, same]
          omega
        · simp [isArray, same, Ne.symm same]
      · have apart : ¬ (0 : JobId) = k := Int.ne_of_lt positive
        simp [isArray, apart]

theorem Registers.elementsBalanced (registers : Registers conf ws m m') (wf : Wf conf m)
    (earlier : EveryJob JoinsEarlier m) (balanced : ElementsBalanced m) : ElementsBalanced m' := by
  cases registers with
  | refused framed => exact framed.sameTable.elementsBalanced balanced
  | @accepted m₁ m₂ uid gid head base seq jobs framed half loop saves =>
    have start : Counting conf ws head jobs.length [] jobs m₁ := by
      refine ⟨framed.wf wf, framed.everyJob earlier, rfl, fun k first found isHead => ?_⟩
      rw [framed.sameTable.elementsBalanced balanced k first found isHead]
      cases jobs with
      | nil => simp
      | cons job rest =>
        have newer := half.committable.newest found
        rw [half.lot.first] at newer
        simp [Int.ne_of_lt newer]
    have done := Halfway.induction (Counting conf ws head jobs.length)
      (fun half commit elements counting => counting.turn half commit elements) half start loop
    subst saves
    intro k first found isHead
    have counted : m₂.arrayElementCnt k = unfinished m₂ k := by
      simpa using done.counts k first found isHead
    exact counted

/-! ### Restarts -/

variable {e : Event} {l : List JobId}

theorem replayEvents_holds (done : replayEvents conf records m = some m')
    (zero : ∀ k, m.depRefcnt k = 0) : ∀ k, m'.depRefcnt k = 0 := by
  induction records generalizing m m' with
  | nil =>
    cases done
    exact zero
  | cons e rest ih =>
    unfold replayEvents at done
    split at done
    · cases done
    next first =>
      obtain ⟨entry, replays⟩ := replayEvent_replays first
      exact ih done fun k => (replays.holds k).elim (fun same => same.trans (zero k)) id

theorem replayEvents_elements (done : replayEvents conf records m = some m')
    (zero : ∀ k, m.arrayElementCnt k = 0)
    (apart : ∀ e ∈ records, ∀ job, isFinishOf (recordJob e) e = true →
      m'.jobs (recordJob e) = some job → job.arrayId = 0 ∨ m'.jobs job.arrayId = none) :
    ∀ k, m'.arrayElementCnt k = 0 := by
  induction records generalizing m m' with
  | nil =>
    cases done
    exact zero
  | cons e rest ih =>
    have whole := (replayEvents_spec done).1
    unfold replayEvents at done
    split at done
    · cases done
    next m₁ first =>
      refine ih done ?_ fun e' member => apart e' (mem_cons_of_mem e member)
      intro k
      -- what is known now is known at the end, with the array it belongs to
      obtain ⟨entry, replays⟩ := replayEvent_replays first
      refine (replays.elements (fun job found finishes => ?_) k).elim
        (fun same => same.trans (zero k)) id
      have told := whole (recordJob e)
      rw [found] at told
      obtain ⟨job', later, same⟩ := replayJobs_request told
      have array : job'.arrayId = job.arrayId := congrArg Request.arrayId same
      rw [← array]
      refine (apart e mem_cons_self job' finishes later).imp_right fun unknown => ?_
      cases known : m.jobs job'.arrayId with
      | none => rfl
      | some head =>
        have kept := whole job'.arrayId
        rw [known] at kept
        obtain ⟨head', there, _⟩ := replayJobs_request kept
        rw [unknown] at there
        cases there

theorem replayRebuildCounters_counts (done : replayRebuildCounters conf m = some m')
    (known : (m'.jobs k).isSome) : m'.depRefcnt k = m.depRefcnt k + awaiting m' k ∧
      (k ≠ 0 → m'.arrayElementCnt k = m.arrayElementCnt k + elementsIn m' k (m'.pend ++ m'.run)) := by
  obtain ⟨_, _, _, _, _, _, loops, rfl⟩ := replayRebuildCounters_spec done
  exact ⟨loops.holds k known, fun positive => loops.elements k positive known⟩

theorem Restored.namesEarlier (restored : Restored conf m m') (earlier : EveryJob NamesEarlier m) :
    EveryJob NamesEarlier m' := by
  intro j replayed found
  obtain ⟨job, live, mirrored⟩ := restored.mirror found
  have id : replayed.jobId = job.jobId := congrArg Core.jobId mirrored.core
  have deps : replayed.deps = job.deps := congrArg Core.deps mirrored.core
  change Resolved (fun d => decide (d < replayed.jobId)) replayed.deps
  rw [id, deps]
  exact earlier j job live

theorem Restored.joinsEarlier (restored : Restored conf m m') (earlier : EveryJob JoinsEarlier m) :
    EveryJob JoinsEarlier m' := by
  intro j replayed found
  obtain ⟨job, live, mirrored⟩ := restored.mirror found
  have id : replayed.jobId = job.jobId := congrArg Core.jobId mirrored.core
  have array : replayed.arrayId = job.arrayId := congrArg Core.arrayId mirrored.core
  change replayed.arrayId ≤ replayed.jobId
  rw [id, array]
  exact earlier j job live

theorem restart_holdsBalanced (done : recover conf m = some m') : HoldsBalanced m' := by
  obtain ⟨r, events, rebuilt⟩ := bind_eq_some_iff.mp done
  intro k known
  rw [(replayRebuildCounters_counts rebuilt known).1]
  have zero : r.depRefcnt k = 0 := replayEvents_holds events (fun _ => rfl) k
  simp only [zero, Int.zero_add]

theorem unfinished_eq_tally (listed : Listed m) (k : JobId) :
    unfinished m k = elementsIn m k (m.pend ++ m.run) := by
  have share (id : ListId) (opened : id ≠ .finish) :
      listTally m (elementShare k) id = elementsIn m k (m.list id) := by
    apply tally_congr
    intro j member
    obtain ⟨job, found, on⟩ := (listed.listed id j).mp member
    rw [found]
    simp only [elim_some, elementShare, on, opened, ne_eq, not_false_iff, and_true]
  rw [elementsIn, tally_append]
  exact congrArg₂ (· + ·) (share .pend (by decide)) (share .run (by decide))

/-- The manifest tells the end of no element of an array whose head is still known. -/
def FinishesApart (m : MbdState) : Prop :=
  ∀ e ∈ m.manifest, isFinishOf (recordJob e) e = true → ∀ job ∈ m.jobs (recordJob e),
    job.arrayId = 0 ∨ m.jobs job.arrayId = none

instance decidableFinishesApart (m : MbdState) : Decidable (FinishesApart m) :=
  inferInstanceAs (Decidable (∀ e ∈ m.manifest, isFinishOf (recordJob e) e = true →
    ∀ job ∈ m.jobs (recordJob e), job.arrayId = 0 ∨ m.jobs job.arrayId = none))

theorem restart_elementsBalanced (wf : Wf conf m) (sound : Recoverable conf m) (saved : IdsSaved m)
    (apart : FinishesApart m) (done : recover conf m = some m') : ElementsBalanced m' := by
  have restored := restored_of_recover wf sound saved done
  obtain ⟨r, events, rebuilt⟩ := bind_eq_some_iff.mp done
  have same : m'.jobs = r.jobs := by
    obtain ⟨_, _, _, _, _, _, _, rfl⟩ := replayRebuildCounters_spec rebuilt
    rfl
  intro k head found own
  have positive : k ≠ 0 := Int.ne_of_gt (restored.wf.ids found).1
  rw [(replayRebuildCounters_counts rebuilt (found ▸ rfl)).2 positive,
    unfinished_eq_tally restored.wf.toListed]
  have zero : r.arrayElementCnt k = 0 := by
    apply replayEvents_elements events (fun _ => rfl)
    intro e member replayed finishes there
    rw [← same] at there ⊢
    obtain ⟨job, live, mirrored⟩ := restored.mirror there
    have array : replayed.arrayId = job.arrayId := congrArg Core.arrayId mirrored.core
    rw [array]
    apply (apart e member finishes job live).imp_right
    intro unknown
    cases kept : m'.jobs job.arrayId with
    | none => rfl
    | some _ =>
      obtain ⟨_, live', _⟩ := restored.mirror kept
      rw [unknown] at live'
      cases live'
  simp only [zero, Int.zero_add]

end LavaLite.Mbd
