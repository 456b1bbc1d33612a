import LavaLite.Kernel.Ledger
import LavaLite.Mbd.Register

/-
Sums over the jobs of a list, and how each kind of step changes them.
-/

namespace LavaLite.Mbd

open Base Batch Kernel

def listTally (m : MbdState) (weight : JobData → Int) (id : ListId) : Int :=
  tally (fun j => (m.jobs j).elim 0 weight) (m.list id)

def onList (weight : JobData → Int) (id : ListId) (job : JobData) : Int :=
  if job.listId = id then weight job else 0

variable {m m' : MbdState} {j : JobId} {job job' : JobData} {weight weight' : JobData → Int}

theorem listTally_of_eq {id : ListId} (jobs : m'.jobs = m.jobs) (list : (m'.list id).Perm (m.list id)) :
    listTally m' weight id = listTally m weight id := by
  unfold listTally
  rw [jobs]
  exact tally_perm list

theorem Listed.tally_moved (wf : Listed m) (found : m.jobs j = some job)
    (jobs : m'.jobs = Function.update m.jobs j (some job'))
    (lists : ∀ id, m'.list id = movedList m j job.listId job'.listId id)
    (weight : JobData → Int) (id : ListId) : listTally m' weight id =
      listTally m weight id - onList weight id job + onList weight id job' := by
  have weighs : ∀ i, i ≠ j → (m'.jobs i).elim 0 weight = (m.jobs i).elim 0 weight := by
    intro i other
    rw [jobs, Function.update_of_ne other]
  have before : (m.jobs j).elim 0 weight = weight job := by
    rw [found]
    rfl
  have after : (m'.jobs j).elim 0 weight = weight job' := by
    rw [jobs, Function.update_self]
    rfl
  have member := wf.mem_iff found id
  unfold listTally onList
  rw [lists, movedList]
  by_cases stays : job.listId = job'.listId
  · rw [if_pos stays, tally_reweigh (wf.distinct id) fun i _ other => weighs i other, before, after,
      ← stays]
    by_cases on : job.listId = id
    · rw [if_pos (member.mpr on), if_pos on, if_pos on]
      omega
    · rw [if_neg fun inList => on (member.mp inList), if_neg on, if_neg on]
      omega
  · rw [if_neg stays, MbdState.relist]
    by_cases target : id = job'.listId
    · have away : ¬ id = job.listId := fun on => stays (on ▸ target)
      have absent : j ∉ m.list id := fun inList => away (member.mp inList).symm
      simp only [if_neg away, if_pos target, tally_append, tally_cons, tally_nil, after]
      rw [if_neg (Ne.symm away), if_pos target.symm,
        tally_congr fun i inList => weighs i fun same => absent (same ▸ inList)]
      omega
    · simp only [if_neg target]
      rw [if_neg (Ne.symm target)]
      by_cases source : id = job.listId
      · have inList : j ∈ m.list id := member.mpr source.symm
        rw [if_pos source, if_pos source.symm, tally_congr fun i inRest =>
          weighs i (((wf.distinct id).mem_erase_iff.mp inRest).1), tally_erase inList, before]
        omega
      · have absent : j ∉ m.list id := fun inList => source (member.mp inList).symm
        rw [if_neg source, if_neg (Ne.symm source),
          tally_congr fun i inList => weighs i fun same => absent (same ▸ inList)]
        omega

theorem Listed.tally_added (wf : Listed m) (fresh : m.jobs j = none)
    (jobs : m'.jobs = Function.update m.jobs j (some job))
    (lists : ∀ id, m'.list id = if id = job.listId then m.list id ++ [j] else m.list id)
    (weight : JobData → Int) (id : ListId) :
    listTally m' weight id = listTally m weight id + onList weight id job := by
  have absent := wf.not_mem fresh id
  have weighs : ∀ i ∈ m.list id, (m'.jobs i).elim 0 weight = (m.jobs i).elim 0 weight := by
    intro i inList
    have other : i ≠ j := fun same => absent (same ▸ inList)
    rw [jobs, Function.update_of_ne other]
  have after : (m'.jobs j).elim 0 weight = weight job := by
    rw [jobs, Function.update_self]
    rfl
  unfold listTally onList
  rw [lists]
  by_cases on : id = job.listId
  · rw [if_pos on, if_pos on.symm, tally_append, tally_congr weighs, tally_cons, tally_nil, after,
      add_zero]
  · rw [if_neg on, if_neg (Ne.symm on), tally_congr weighs, add_zero]

def openTally (m : MbdState) (weight : JobData → Int) : Int :=
  listTally m weight .pend + listTally m weight .run

def OpenWeight (weight : JobData → Int) : Prop :=
  ∀ job : JobData, job.listId = .finish → weight job = 0

theorem OpenWeight.split (fades : OpenWeight weight) (job : JobData) :
    onList weight .pend job + onList weight .run job = weight job := by
  unfold onList
  cases on : job.listId with
  | pend | run => simp
  | finish => simp [fades job on]

variable {amount : JobData → Int}

theorem openTally_of_running (wf : Listed m)
    (away : ∀ job : JobData, job.listId ≠ .run → weight job = 0) :
    openTally m weight = listTally m weight .run := by
  have idle : listTally m weight .pend = 0 := by
    refine tally_eq_zero fun j member => ?_
    obtain ⟨job, found, on⟩ := (wf.listed .pend j).mp member
    rw [found]
    exact away job (on.trans_ne (by decide))
  rw [openTally, idle, Int.zero_add]

theorem openTally_eq_tally_run (wf : Listed m)
    (running : ∀ job : JobData, weight job = if job.listId = .run then amount job else 0) :
    openTally m weight = tally amount (m.run.filterMap m.jobs) := by
  have known : ∀ j ∈ m.run, (m.jobs j).isSome = true := by
    intro j member
    obtain ⟨job, found, _⟩ := (wf.listed .run j).mp member
    rw [found]
    rfl
  rw [openTally_of_running wf fun job away => (running job).trans (if_neg away),
    tally_filterMap known]
  refine tally_congr fun j member => ?_
  obtain ⟨job, found, on⟩ := (wf.listed .run j).mp member
  rw [found, Option.elim_some, Option.elim_some, running job, if_pos on]

theorem listTally_nonneg (wf : Listed m) (id : ListId)
    (each : ∀ {j job}, m.jobs j = some job → 0 ≤ weight job) : 0 ≤ listTally m weight id := by
  refine tally_nonneg fun j member => ?_
  obtain ⟨job, found, _⟩ := (wf.listed id j).mp member
  rw [found]
  exact each found

theorem le_listTally (wf : Listed m) (found : m.jobs j = some job)
    (each : ∀ {j job}, m.jobs j = some job → 0 ≤ weight job) :
    weight job ≤ listTally m weight job.listId := by
  have member : j ∈ m.list job.listId := (wf.listed _ j).mpr ⟨job, found, rfl⟩
  have entry : (m.jobs j).elim 0 weight = weight job := by
    rw [found]
    rfl
  rw [← entry]
  refine le_tally (fun i inList => ?_) member
  obtain ⟨other, there, _⟩ := (wf.listed _ i).mp inList
  rw [there]
  exact each there

theorem openTally_nonneg (wf : Listed m)
    (each : ∀ {j job}, m.jobs j = some job → 0 ≤ weight job) : 0 ≤ openTally m weight := by
  have pend := listTally_nonneg wf .pend each
  have run := listTally_nonneg wf .run each
  unfold openTally
  omega

theorem le_openTally (wf : Listed m) (found : m.jobs j = some job) (open_ : job.listId ≠ .finish)
    (each : ∀ {j job}, m.jobs j = some job → 0 ≤ weight job) : weight job ≤ openTally m weight := by
  have pend := listTally_nonneg wf .pend each
  have run := listTally_nonneg wf .run each
  have there := le_listTally wf found each
  unfold openTally
  cases on : job.listId with
  | pend | run =>
    rw [on] at there
    omega
  | finish => exact absurd on open_

theorem listTally_neg (weight : JobData → Int) (id : ListId) :
    listTally m (fun job => -weight job) id = -listTally m weight id := by
  unfold listTally
  rw [← tally_neg]
  refine tally_congr fun j _ => ?_
  cases m.jobs j <;> rfl

theorem openTally_neg (weight : JobData → Int) :
    openTally m (fun job => -weight job) = -openTally m weight := by
  unfold openTally
  rw [listTally_neg, listTally_neg]
  omega

variable {conf : Conf} {onHost : HostChange} {onQueue : QueueChange} {pools : PoolName → Int}
  {records : List Event} {sent : Outbox} {ws : WireJobSubmit} {q : QueueName}

theorem Change.tally (change : Change m m' j job job' onHost onQueue pools records sent)
    (wf : Listed m) (weight : JobData → Int) (id : ListId) : listTally m' weight id =
      listTally m weight id - onList weight id job + onList weight id job' :=
  wf.tally_moved change.found change.jobs change.lists weight id

theorem Change.openTally (change : Change m m' j job job' onHost onQueue pools records sent)
    (wf : Listed m) (fades : OpenWeight weight) :
    openTally m' weight = openTally m weight - weight job + weight job' := by
  have pend := change.tally wf weight .pend
  have run := change.tally wf weight .run
  have before := fades.split job
  have after := fades.split job'
  unfold Mbd.openTally
  omega

theorem Commit.tally (commit : Commit conf ws m m' q job) (wf : Listed m)
    (weight : JobData → Int) (id : ListId) :
    listTally m' weight id = listTally m weight id + onList weight id job :=
  wf.tally_added commit.fresh commit.jobs commit.lists weight id

theorem Commit.openTally (commit : Commit conf ws m m' q job) (wf : Listed m)
    (fades : OpenWeight weight) : openTally m' weight = openTally m weight + weight job := by
  have pend := commit.tally wf weight .pend
  have run := commit.tally wf weight .run
  have after := fades.split job
  unfold Mbd.openTally
  omega

theorem Frame.tally (framed : Frame m m') (weight : JobData → Int) (id : ListId) :
    listTally m' weight id = listTally m weight id := by
  refine listTally_of_eq framed.jobs ?_
  cases id with
  | pend => exact framed.pend
  | run => exact List.Perm.of_eq framed.run
  | finish => exact List.Perm.of_eq framed.finish

theorem Frame.openTally (framed : Frame m m') (weight : JobData → Int) :
    openTally m' weight = openTally m weight := by
  unfold Mbd.openTally
  rw [framed.tally, framed.tally]

theorem compact_openTally (compacted : manifestRebuild m = some m') (wf : Wf conf m)
    (weight : JobData → Int) : openTally m' weight = openTally m weight := by
  obtain ⟨_, _, result⟩ := manifestRebuild_spec compacted
  have same : ∀ id, id ≠ .finish → m'.list id = m.list id →
      listTally m' weight id = listTally m weight id := by
    intro id open_ list
    unfold listTally
    rw [list]
    refine tally_congr fun j member => ?_
    have outside : j ∉ m.finish := by
      intro ended
      obtain ⟨job, found, on⟩ := (wf.listed id j).mp member
      exact open_ (on.symm.trans ((wf.toListed.mem_iff found .finish).mp ended))
    rw [result]
    simp only [outside, false_and, if_false]
  unfold Mbd.openTally
  rw [same .pend (by decide) (by rw [result]; rfl), same .run (by decide) (by rw [result]; rfl)]

end LavaLite.Mbd
