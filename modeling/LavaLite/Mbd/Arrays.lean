import LavaLite.Mbd.Holds

/-
What ends a job is final, as long as no stop or continue is answered for a finished
job.  A condition on the first job of an array is one on the whole array, which
`dep_array_check` reads off the jobs still in the table.
-/

namespace LavaLite.Mbd

open Base Batch Kernel

section

/-- The answers to a stop or a continue find their job on the running list. -/
def openReports : Permit
  | _, job, .stopped _ => job.listId = .run
  | _, job, .continued _ => job.listId = .run
  | _, _, _ => True

instance decidableOpen (m : MbdState) (job : JobData) :
    ∀ report, Decidable (openReports m job report)
  | .stopped _ | .continued _ => inferInstanceAs (Decidable (job.listId = .run))
  | .forked | .released | .finished | .unsent | .compacted | .moved _ | .ranked _ => isTrue trivial

/-- A finished job stays as it is, and a job that finishes is done or has exited. -/
structure Settles (job job' : JobData) : Prop where
  final : job.listId = .finish → job'.listId = .finish ∧ job'.state = job.state
  ends : job'.listId = .finish → job.listId = .finish ∨ job'.state.isFinished = true

theorem Settles.of_same {job job' : JobData} (list : job'.listId = job.listId)
    (state : job'.state = job.state) : Settles job job' where
  final ended := ⟨list.trans ended, state⟩
  ends ended := .inl (list.symm.trans ended)

theorem Settles.of_open {job job' : JobData} (before : job.listId ≠ .finish)
    (ends : job'.listId = .finish → job'.state.isFinished = true) : Settles job job' where
  final ended := absurd ended before
  ends ended := .inr (ends ended)

variable {conf : Conf} {m m' : MbdState} {i : JobId} {found : JobData} {ws : WireJobSubmit}

theorem Change.settles {job job' : JobData} {onHost : HostChange} {onQueue : QueueChange}
    {pools : PoolName → Int} {records : List Event} {sent : Outbox}
    (change : Change m m' j job job' onHost onQueue pools records sent) (settles : Settles job job')
    (at' : m'.jobs i = some found) : ∃ before, m.jobs i = some before ∧ Settles before found := by
  rcases change.jobs_cases at' with ⟨rfl, rfl⟩ | ⟨_, before⟩
  · exact ⟨job, change.found, settles⟩
  · exact ⟨found, before, .of_same rfl rfl⟩

theorem Effect.settles (effect : Effect conf openReports m m') (at' : m'.jobs i = some found) :
    ∃ before, m.jobs i = some before ∧ Settles before found := by
  have same : m'.jobs = m.jobs → ∃ before, m.jobs i = some before ∧ Settles before found :=
    fun kept => ⟨found, kept ▸ at', .of_same rfl rfl⟩
  cases effect with
  | frame framed => exact same framed.jobs
  | ackReply _ _ sends | ackFinish _ _ sends => exact same (by rw [sends]; rfl)
  | compact _ compacted => exact ⟨found, (compact_jobs compacted at').1, .of_same rfl rfl⟩
  | note _ change | stranded _ _ _ _ _ change | signalSent _ _ change | move _ _ _ _ _ change
  | priority _ _ change =>
    exact change.settles (.of_same rfl rfl) at'
  | dispatch pending _ _ _ _ _ _ _ change =>
    exact change.settles (.of_open (pending.trans_ne (by decide)) nofun) at'
  | hold pending _ _ change | unhold pending _ _ change =>
    have open_ := pending.trans_ne (by decide : ListId.pend ≠ .finish)
    exact change.settles (.of_open open_ fun ended => absurd ended open_) at'
  | kill pending _ _ _ change =>
    exact change.settles (.of_open (pending.trans_ne (by decide)) fun _ => rfl) at'
  | fork running _ _ _ _ change | stopped _ _ running change | continued _ _ running change =>
    have open_ := running.trans_ne (by decide : ListId.run ≠ .finish)
    exact change.settles (.of_open open_ fun ended => absurd ended open_) at'
  | release running _ _ _ result _ _ change =>
    have open_ := running.trans_ne (by decide : ListId.run ≠ .finish)
    rcases result with rfl | rfl
    · exact change.settles (.of_open open_ nofun) at'
    · exact change.settles (.of_open open_ nofun) at'
  | @finish j job queue n success exitStatus now running _ _ _ _ _ _ change =>
    have open_ := running.trans_ne (by decide : ListId.run ≠ .finish)
    refine change.settles (.of_open open_ fun _ => ?_) at'
    cases success <;> rfl

/-! ### The finished list -/

def Final (m : MbdState) : Prop :=
  ∀ j job, m.jobs j = some job → job.listId = .finish → job.state.isFinished = true

theorem Effect.final (final : Final m) (effect : Effect conf openReports m m') : Final m' := by
  intro j job found ended
  obtain ⟨before, was, settles⟩ := effect.settles found
  rcases settles.ends ended with earlier | finished
  · rw [(settles.final earlier).2]
    exact final j before was earlier
  · exact finished

theorem Registers.final (registers : Registers conf ws m m') (final : Final m) : Final m' := by
  refine registers.keeps Final ?framed ?committed (fun final => final) final
  case framed =>
    intro m m' final framed j job found
    rw [framed.jobs] at found
    exact final j job found
  case committed =>
    intro m m' q job final commit j found at' ended
    rcases commit.jobs_cases at' with ⟨rfl, rfl⟩ | before
    · exact absurd (commit.prepared.list.symm.trans ended) (by decide)
    · exact final j found before ended

theorem Restored.final (restored : Restored conf m m') (final : Final m) : Final m' := by
  intro j replayed found ended
  obtain ⟨job, before, mirror⟩ := restored.mirror found
  have list : replayed.listId = job.listId := congrArg Core.listId mirror.core
  have finished := final j job before (list.symm.trans ended)
  rw [(mirror.finished (list.symm.trans ended)).2.1 finished]
  exact finished

/-! ### One finished job -/

/--
Job `j` ended in state `x`: its id is used up, and if it is still in the table it
is on the finished list in that state.
-/
structure Ended (j : JobId) (x : JobState) (m : MbdState) : Prop where
  used : j ≤ m.seqFile
  same : ∀ job, m.jobs j = some job → job.listId = .finish ∧ job.state = x

variable {j : JobId} {x : JobState}

theorem Effect.ended (ended : Ended j x m) (effect : Effect conf openReports m m') :
    Ended j x m' where
  used := effect.known.1 ▸ ended.used
  same := by
    intro job found
    obtain ⟨before, was, settles⟩ := effect.settles found
    obtain ⟨list, state⟩ := ended.same before was
    obtain ⟨stays, kept⟩ := settles.final list
    exact ⟨stays, kept.trans state⟩

theorem Registers.ended (registers : Registers conf ws m m') (wf : Wf conf m) (ended : Ended j x m)
    : Ended j x m' := by
  refine registers.keeps_of_wf (Ended j x) ?framed ?committed ?saved wf ended
  case framed =>
    intro m m' _ ended framed
    exact ⟨framed.seqFile ▸ ended.used, framed.jobs ▸ ended.same⟩
  case committed =>
    intro m m' q job _ ended commit
    refine ⟨commit.seqFile ▸ ended.used, fun found at' => ?_⟩
    rcases commit.jobs_cases at' with ⟨rfl, rfl⟩ | before
    · exact absurd commit.unsaved (Int.not_lt.mpr ended.used)
    · exact ended.same found before
  case saved =>
    intro m wf ended
    exact ⟨Int.le_trans ended.used wf.saved.2, ended.same⟩

theorem Restored.ended (restored : Restored conf m m') (finished : x.isFinished = true)
    (ended : Ended j x m) : Ended j x m' where
  used := restored.seqFile ▸ ended.used
  same := by
    intro replayed found
    obtain ⟨job, before, mirror⟩ := restored.mirror found
    obtain ⟨list, state⟩ := ended.same job before
    have kept : replayed.listId = job.listId := congrArg Core.listId mirror.core
    exact ⟨kept.trans list, ((mirror.finished list).2.1 (state ▸ finished)).trans state⟩

end

/-! ### Arrays -/

/-! ### The jobs an expression names -/

def TargetsKnown (m : MbdState) : Prop :=
  ∀ i job, m.jobs i = some job → job.listId = .pend →
    ∀ d ∈ job.deps, d.isCondition = true → (m.jobs d.jobId).isSome = true

variable {conf : Conf} {permits : Permit} {m m' : MbdState} {ws : WireJobSubmit}

theorem Effect.targetsKnown (wf : Wf conf m) (balanced : HoldsBalanced m) (known : TargetsKnown m)
    (effect : Effect conf keepsHolds m m') : TargetsKnown m' := by
  intro i found at' pending d member condition
  cases effect.relists with
  | none same =>
    rw [same.jobs] at at' ⊢
    exact known i found at' pending d member condition
  | @one j job job' _ _ _ _ _ change _ returns =>
    rw [change.isSome_jobs]
    rcases change.jobs_cases at' with ⟨rfl, rfl⟩ | ⟨_, before⟩
    · have deps : found.deps = job.deps := congrArg Request.deps change.request
      rw [deps] at member
      by_cases was : job.listId = .pend
      · exact known i job change.found was d member condition
      · have none : d.isCondition = false := returns was pending d member
        rw [none] at condition
        cases condition
    · exact known i found before pending d member condition
  | compacts compacted =>
    have before := (compact_jobs compacted at').1
    rw [balanced.compact wf.toListed compacted before pending member condition]
    exact known i found before pending d member condition

theorem Registers.targetsKnown (registers : Registers conf ws m m') (known : TargetsKnown m) :
    TargetsKnown m' := by
  refine registers.keeps TargetsKnown ?framed ?committed (fun known => known) known
  case framed =>
    intro m m' known framed
    unfold TargetsKnown
    rw [framed.jobs]
    exact known
  case committed =>
    intro m m' q job known commit i found at' pending d member condition
    have before : (m.jobs d.jobId).isSome = true := by
      rcases commit.jobs_cases at' with ⟨rfl, rfl⟩ | earlier
      · exact commit.named d member condition
      · exact known i found earlier pending d member condition
    rw [commit.jobs]
    by_cases new : d.jobId = job.jobId
    · rw [new, Function.update_self]
      rfl
    · rw [Function.update_of_ne new]
      exact before

theorem Restored.targetsKnown (restored : Restored conf m m')
    (whole : ∀ j, (m.jobs j).isSome = true → (m'.jobs j).isSome = true) (known : TargetsKnown m) :
    TargetsKnown m' := by
  intro i replayed found pending d member condition
  obtain ⟨job, live, mirrored⟩ := restored.mirror found
  have deps : replayed.deps = job.deps := congrArg Core.deps mirrored.core
  rw [deps] at member
  apply whole
  exact known i job live (mirrored.listId.symm.trans pending) d member condition

theorem Effects.sameJobs (wf : Wf conf m) (effects : Effects conf (uncompacted permits) m m') :
    m'.seqFile = m.seqFile ∧ (∀ j, (m'.jobs j).isSome = (m.jobs j).isSome) ∧
      ∀ j found, m'.jobs j = some found →
        ∃ before, m.jobs j = some before ∧ found.request = before.request := by
  refine effects.keeps_of_wf (fun m' => m'.seqFile = m.seqFile ∧
    (∀ j, (m'.jobs j).isSome = (m.jobs j).isSome) ∧ ∀ j found, m'.jobs j = some found →
      ∃ before, m.jobs j = some before ∧ found.request = before.request) ?_ wf
    ⟨rfl, fun _ => rfl, fun _ found at' => ⟨found, at', rfl⟩⟩
  intro m₁ m₂ wf₁ ⟨seqFile, domain, requests⟩ effect
  obtain ⟨saved, known⟩ := effect.known
  obtain ⟨_, journaled⟩ := effect.journaled wf₁
  refine ⟨saved.trans seqFile, fun j => (journaled.isSome_jobs j).trans (domain j), ?_⟩
  intro j found at'
  obtain ⟨between, was, same⟩ := known j found at'
  obtain ⟨before, first, earlier⟩ := requests j between was
  exact ⟨before, first, same.trans earlier⟩

theorem Registers.keepsKnown (registers : Registers conf ws m m') {j : JobId}
    (known : (m.jobs j).isSome = true) : (m'.jobs j).isSome = true := by
  refine registers.keeps (fun m => (m.jobs j).isSome = true) ?framed ?committed id known
  case framed =>
    intro m₁ m₂ known framed
    rw [framed.jobs]
    exact known
  case committed =>
    intro m₁ m₂ q job known commit
    rw [commit.jobs]
    by_cases new : j = job.jobId
    · rw [new, Function.update_self]
      rfl
    · rw [Function.update_of_ne new]
      exact known

/-! ### The ends of the jobs -/

/-- A job that has ended stays as it is, and a job that was not known has a new id. -/
structure Continues (m m' : MbdState) : Prop where
  saved : m.seqFile ≤ m'.seqFile
  ends : ∀ {j job'}, m'.jobs j = some job' → (∃ job, m.jobs j = some job ∧
    (job.listId = .finish → job'.listId = .finish ∧ job'.state = job.state)) ∨ m.seqFile < j

theorem Continues.refl (m : MbdState) : Continues m m where
  saved := Int.le_refl _
  ends := fun {_ job} found => Or.inl ⟨job, found, fun ended => ⟨ended, rfl⟩⟩

theorem Continues.effect {start : MbdState} (continues : Continues start m)
    (effect : Effect conf openReports m m') : Continues start m' where
  saved := effect.known.1 ▸ continues.saved
  ends := by
    intro j job' found
    obtain ⟨between, was, settles⟩ := effect.settles found
    apply (continues.ends was).imp_left
    rintro ⟨job, before, ends⟩
    refine ⟨job, before, fun ended => ?_⟩
    obtain ⟨list, state⟩ := ends ended
    obtain ⟨list', state'⟩ := settles.final list
    exact ⟨list', state'.trans state⟩

theorem Registers.continues (registers : Registers conf ws m m') (wf : Wf conf m) :
    Continues m m' := by
  refine registers.keeps_of_wf (Continues m) ?framed ?committed ?saved wf (.refl m)
  case framed =>
    intro m₁ m₂ _ continues framed
    refine ⟨framed.seqFile ▸ continues.saved, fun {j job'} found => ?_⟩
    rw [framed.jobs] at found
    exact continues.ends found
  case committed =>
    intro m₁ m₂ q job _ continues commit
    refine ⟨commit.seqFile ▸ continues.saved, fun {j job'} found => ?_⟩
    rcases commit.jobs_cases found with ⟨rfl, rfl⟩ | before
    · exact Or.inr (Int.lt_of_le_of_lt continues.saved commit.unsaved)
    · exact continues.ends before
  case saved =>
    intro m₁ wf₁ continues
    exact ⟨Int.le_trans continues.saved wf₁.saved.2, continues.ends⟩

theorem Restored.continues (restored : Restored conf m m') (final : Final m) : Continues m m' where
  saved := Int.le_of_eq restored.seqFile.symm
  ends := by
    intro j replayed found
    obtain ⟨job, live, mirrored⟩ := restored.mirror found
    refine Or.inl ⟨job, live, fun ended => ⟨mirrored.listId.trans ended, ?_⟩⟩
    exact (mirrored.finished ended).2.1 (final j job live ended)

/-! ### The elements in the table -/

/-- A compaction here frees an element only together with its head. -/
def KeepsElements (m : MbdState) : Prop :=
  ∀ j ∈ m.finish, ∀ job ∈ m.jobs j, job.arrayId ≠ 0 → ∀ head ∈ m.jobs job.arrayId,
    retained m j job = true ∨ (head.listId = .finish ∧ retained m job.arrayId head = false)

instance decidableKeepsElements (m : MbdState) : Decidable (KeepsElements m) :=
  inferInstanceAs (Decidable (∀ j ∈ m.finish, ∀ job ∈ m.jobs j, job.arrayId ≠ 0 →
    ∀ head ∈ m.jobs job.arrayId,
      retained m j job = true ∨ (head.listId = .finish ∧ retained m job.arrayId head = false)))

variable {j k : JobId} {job head : JobData} {type : DepType}

theorem KeepsElements.compact (keeps : KeepsElements m) (listed : Listed m)
    (compacted : manifestRebuild m = some m') (found : m.jobs j = some job)
    (element : job.arrayId ≠ 0) (stays : (m'.jobs job.arrayId).isSome = true) :
    m'.jobs j = some job := by
  by_cases ended : job.listId = .finish
  · obtain ⟨head, after⟩ := Option.isSome_iff_exists.mp stays
    obtain ⟨before, kept⟩ := compact_jobs compacted after
    have member : j ∈ m.finish := (listed.mem_iff found .finish).mpr ended
    rcases keeps j member job found element head before with needed | ⟨headEnded, free⟩
    · exact compact_retained compacted found needed
    · have there := kept ((listed.mem_iff before .finish).mpr headEnded)
      obtain ⟨_, _, rfl⟩ := manifestRebuild_spec compacted
      have needed := (List.mem_filter.mp there).2
      rw [keepFinished, before] at needed
      exact absurd (free.symm.trans needed) (by decide)
  · exact compact_open compacted listed found ended

theorem arrayHasMember_eq_false (id : ListId) (listed : Listed m) :
    arrayHasMember m (m.list id) k = false ↔
      ∀ j job, m.jobs j = some job → job.arrayId = k → job.listId ≠ id := by
  rw [arrayHasMember, List.any_eq_false]
  constructor
  · intro none j job found element on
    have absent := none j ((listed.listed id j).mpr ⟨job, found, on⟩)
    rw [found] at absent
    exact absent (decide_eq_true element)
  · intro none j member
    obtain ⟨job, found, on⟩ := (listed.listed id j).mp member
    rw [found]
    exact fun element => none j job found (of_decide_eq_true element) on

theorem depArrayCheck_iff (listed : Listed m) : depArrayCheck m k type = true ↔
    ∀ j job, m.jobs j = some job → job.arrayId = k →
      job.listId = .finish ∧ depJobCheck job type = true := by
  have pend := arrayHasMember_eq_false (k := k) .pend listed
  have run := arrayHasMember_eq_false (k := k) .run listed
  simp only [depArrayCheck, Bool.and_eq_true, Bool.not_eq_true', List.all_eq_true]
  constructor
  · rintro ⟨⟨noPend, noRun⟩, ended⟩ j job found element
    have on : job.listId = .finish := by
      cases on : job.listId with
      | pend => exact absurd on (pend.mp noPend j job found element)
      | run => exact absurd on (run.mp noRun j job found element)
      | finish => rfl
    have passes := ended j ((listed.mem_iff found .finish).mpr on)
    rw [found] at passes
    simp only [element, ne_eq, not_true, decide_false, Bool.false_or] at passes
    exact ⟨on, passes⟩
  · intro each
    refine ⟨⟨pend.mpr ?_, run.mpr ?_⟩, ?_⟩
    · exact fun j job found element => (each j job found element).1.trans_ne (by decide)
    · exact fun j job found element => (each j job found element).1.trans_ne (by decide)
    · intro j member
      obtain ⟨job, found, _⟩ := (listed.listed .finish j).mp member
      rw [found]
      by_cases element : job.arrayId = k
      · simp [(each j job found element).2]
      · simp [element]

theorem depCallEval_head (wf : Wf conf m) (found : m.jobs k = some head)
    (isHead : head.arrayId = k) : depCallEval m type k = depArrayCheck m k type := by
  have own : head.arrayId = head.jobId := isHead.trans (wf.job found).id.symm
  have positive : head.arrayId ≠ 0 := isHead ▸ Int.ne_of_gt (wf.ids found).1
  rw [depCallEval, found]
  exact (if_pos ⟨positive, own⟩).trans (by rw [isHead])

end LavaLite.Mbd
