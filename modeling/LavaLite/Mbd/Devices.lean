import Mathlib.Data.List.Perm.Subperm
import Mathlib.Algebra.Order.Group.Nat
import LavaLite.Mbd.HostBalance

/-
Device tables, and the running jobs their devices were assigned to.  A job is assigned any
free devices of its first host and gives back the first ones of every host it uses, so the
marks stay right only while GPU jobs use one host and hold the first devices of it.
-/

namespace LavaLite.Mbd

open Base Batch Kernel List

section

def setMarks (ids : List Int) (used : Bool) (gpus : List GpuId) : List GpuId :=
  gpus.map fun g => if g.id ∈ ids then { g with inUse := used } else g

variable {ids : List Int} {used : Bool} {gpus : List GpuId}

@[simp] theorem map_id_setMarks : (setMarks ids used gpus).map GpuId.id = gpus.map GpuId.id := by
  rw [setMarks, List.map_map]
  refine map_congr_left fun g _ => ?_
  simp only [Function.comp_apply]
  split <;> rfl

theorem setMarks_of_disjoint (away : ∀ g ∈ gpus, g.id ∉ ids) : setMarks ids used gpus = gpus := by
  unfold setMarks
  conv_rhs => rw [← List.map_id gpus]
  exact map_congr_left fun g member => if_neg (away g member)

theorem setMarks_of_subset (within : ∀ g ∈ gpus, g.id ∈ ids) :
    setMarks ids used gpus = gpus.map fun g => { g with inUse := used } :=
  map_congr_left fun g member => if_pos (within g member)

theorem setMarks_cons_of_not_mem {id : Int} (absent : ∀ g ∈ gpus, g.id ≠ id) :
    setMarks (id :: ids) used gpus = setMarks ids used gpus := by
  refine map_congr_left fun g member => ?_
  simp only [mem_cons, absent g member, false_or]

theorem mem_setMarks {g : GpuId} : g ∈ setMarks ids used gpus ↔
    ∃ before ∈ gpus, before.id = g.id ∧ g.inUse = if g.id ∈ ids then used else before.inUse := by
  unfold setMarks
  rw [List.mem_map]
  constructor
  · rintro ⟨before, member, rfl⟩
    refine ⟨before, member, ?_⟩
    by_cases named : before.id ∈ ids <;> simp [named]
  · rintro ⟨before, member, same, mark⟩
    refine ⟨before, member, ?_⟩
    obtain ⟨id, inUse⟩ := g
    obtain ⟨id', inUse'⟩ := before
    cases same
    by_cases named : id ∈ ids <;> simp_all

/-! ### Assigning -/

/-- What `assignGpus` picked: as many free devices as were asked for, now marked. -/
structure Assigned (n : Nat) (gpus marked : List GpuId) (ids : List Int) : Prop where
  marks : marked = setMarks ids true gpus
  count : ids.length = n
  within : ids.Sublist (gpus.map GpuId.id)
  free : ∀ g ∈ gpus, g.id ∈ ids → g.inUse = false

theorem assignGpus_spec : ∀ {n : Nat} {gpus : List GpuId}, (gpus.map GpuId.id).Nodup →
    n ≤ gpuIdsCountFree gpus → Assigned n gpus (assignGpus n gpus).1 (assignGpus n gpus).2 := by
  intro n gpus
  induction gpus generalizing n with
  | nil =>
    intro _ enough
    obtain rfl : n = 0 := Nat.le_zero.mp enough
    exact ⟨rfl, rfl, nil_sublist _, nofun⟩
  | cons g rest ih =>
    intro distinct enough
    obtain ⟨new, distinctRest⟩ := nodup_cons.mp distinct
    have others : ∀ other ∈ rest, other.id ≠ g.id := fun other member same =>
      new (same ▸ List.mem_map_of_mem member)
    cases n with
    | zero => exact ⟨(setMarks_of_disjoint fun _ _ => not_mem_nil).symm, rfl,
        nil_sublist _, fun _ _ => nofun⟩
    | succ n =>
      cases busy : g.inUse with
      | true =>
        have counted : gpuIdsCountFree (g :: rest) = gpuIdsCountFree rest := by
          simp [gpuIdsCountFree, busy]
        obtain ⟨marks, count, within, free⟩ := ih distinctRest (counted ▸ enough)
        have absent : g.id ∉ (assignGpus (n + 1) rest).2 := fun member =>
          new (within.subset member)
        simp only [assignGpus, busy, if_true]
        refine ⟨?_, count, within.trans (sublist_cons_self _ _), ?_⟩
        · rw [marks, setMarks, setMarks, map_cons, if_neg absent]
        · intro other member named
          rcases mem_cons.mp member with rfl | later
          · exact absurd named absent
          · exact free other later named
      | false =>
        have counted : gpuIdsCountFree (g :: rest) = gpuIdsCountFree rest + 1 := by
          simp [gpuIdsCountFree, busy]
        obtain ⟨marks, count, within, free⟩ := ih distinctRest
          (Nat.le_of_succ_le_succ (counted ▸ enough))
        simp only [assignGpus, busy, if_false, Bool.false_eq_true]
        refine ⟨?_, congrArg Nat.succ count, within.cons_cons g.id, ?_⟩
        · rw [setMarks, map_cons, if_pos mem_cons_self, marks]
          exact congrArg _ (setMarks_cons_of_not_mem others).symm
        · intro other member named
          rcases mem_cons.mp member with rfl | later
          · exact busy
          · rcases mem_cons.mp named with same | inRest
            · exact absurd same (others other later)
            · exact free other later inRest

theorem gpuIdsCountFree_le (gpus : List GpuId) : gpuIdsCountFree gpus ≤ gpus.length :=
  length_filter_le _ _

variable {size : Nat}

theorem buildGpuAssignedStr_spec {numGpus : Int} (distinct : (gpus.map GpuId.id).Nodup)
    (enough : numGpus ≤ gpuIdsCountFree gpus) :
    ∃ marked ids, buildGpuAssignedStr gpus numGpus = some (marked, gpuAssignedText 64 ids) ∧
      Assigned numGpus.toNat gpus marked ids := by
  have few : numGpus.toNat ≤ gpuIdsCountFree gpus := by omega
  refine ⟨_, _, ?_, assignGpus_spec distinct few⟩
  rw [buildGpuAssignedStr, if_pos (few.trans (gpuIdsCountFree_le gpus))]

/-! ### Releasing -/

theorem markFirst_eq_setMarks {n : Nat} (distinct : (gpus.map GpuId.id).Nodup)
    (count : ids.length = n) (within : ids.Sublist (gpus.map GpuId.id))
    (first : ∀ g ∈ gpus.take n, g.id ∈ ids) : markFirst n false gpus = setMarks ids false gpus := by
  have long : n ≤ gpus.length := by
    have shorter := within.length_le
    rw [count, length_map] at shorter
    exact shorter
  have distinctFirst : ((gpus.take n).map GpuId.id).Nodup :=
    distinct.sublist ((take_sublist n gpus).map _)
  have same : ((gpus.take n).map GpuId.id).Perm ids := by
    refine (subperm_of_subset distinctFirst fun id member => ?_).perm_of_length_le ?_
    · obtain ⟨g, inFirst, rfl⟩ := List.mem_map.mp member
      exact first g inFirst
    · rw [count, length_map, length_take, Nat.min_eq_left long]
  have apart : ∀ g ∈ gpus.drop n, g.id ∉ ids := by
    intro g later named
    rw [← take_append_drop n gpus, map_append] at distinct
    exact (nodup_append.mp distinct).2.2 g.id (same.symm.subset named) g.id
      (List.mem_map_of_mem later) rfl
  have split : setMarks ids false gpus =
      setMarks ids false (gpus.take n) ++ setMarks ids false (gpus.drop n) := by
    rw [setMarks, setMarks, setMarks, ← map_append, take_append_drop]
  rw [markFirst, split, setMarks_of_subset first, setMarks_of_disjoint apart]

/-! ### The text of the assigned devices -/

def deviceText (ids : List Int) : List Char :=
  [','].intercalate (ids.map decimalDigits)

def deviceNames (text : String) : List String :=
  strtok (fun c => c = ',') text

theorem length_deviceText_cons (id : Int) (ids : List Int) : (deviceText (id :: ids)).length + 1 =
      ((id :: ids).map fun id => (decimalDigits id).length + 1).sum := by
  induction ids generalizing id with
  | nil => simp [deviceText, intercalate_singleton]
  | cons next rest ih =>
    have tail := ih next
    simp only [deviceText, map_cons, intercalate_cons_cons, length_append,
      length_singleton, sum_cons] at tail ⊢
    omega

theorem length_deviceText_le {all : List Int} (within : ids.Sublist all) :
    (deviceText ids).length ≤ (deviceText all).length := by
  have sums : (ids.map fun id => (decimalDigits id).length + 1).sum ≤
      (all.map fun id => (decimalDigits id).length + 1).sum :=
    (within.map _).sum_le_sum fun _ _ => Nat.zero_le _
  cases ids with
  | nil => exact Nat.zero_le _
  | cons id ids =>
    cases all with
    | nil => cases within
    | cons other all =>
      rw [← length_deviceText_cons, ← length_deviceText_cons] at sums
      omega

theorem strlcat_of_fits {dst src : List Char} (fits : dst.length + src.length < size) :
    strlcat size (String.ofList dst) (String.ofList src) = String.ofList (dst ++ src) := by
  rw [strlcat, String.toList_ofList, String.toList_ofList, take_of_length_le]
  rw [length_append]
  omega

theorem foldl_deviceText {text : List Char}
    (fits : (text ++ (ids.flatMap fun id => ',' :: decimalDigits id)).length < size) :
    ids.foldl (fun text id => strlcat size (strlcat size text ",") (decimalText id))
        (String.ofList text) =
      String.ofList (text ++ (ids.flatMap fun id => ',' :: decimalDigits id)) := by
  induction ids generalizing text with
  | nil => simp
  | cons id ids ih =>
    have comma : strlcat size (String.ofList text) "," = String.ofList (text ++ [',']) := by
      show strlcat size (String.ofList text) (String.ofList [',']) = _
      refine strlcat_of_fits ?_
      simp only [flatMap_cons, length_append, length_cons] at fits
      simp only [length_singleton]
      omega
    have entry : strlcat size (String.ofList (text ++ [','])) (decimalText id) =
        String.ofList (text ++ [','] ++ decimalDigits id) := by
      refine strlcat_of_fits ?_
      simp only [flatMap_cons, length_append, length_cons] at fits
      simp only [length_append, length_singleton]
      omega
    have whole : text ++ ((id :: ids).flatMap fun id => ',' :: decimalDigits id) =
        text ++ [','] ++ decimalDigits id ++ (ids.flatMap fun id => ',' :: decimalDigits id) := by
      simp
    rw [foldl_cons, comma, entry, whole]
    exact ih (whole ▸ fits)

theorem deviceText_cons (id : Int) (ids : List Int) : deviceText (id :: ids) =
      decimalDigits id ++ (ids.flatMap fun id => ',' :: decimalDigits id) := by
  induction ids generalizing id with
  | nil => simp [deviceText, intercalate_singleton]
  | cons next rest ih =>
    have tail := ih next
    simp only [deviceText, map_cons] at tail ⊢
    rw [intercalate_cons_cons, tail]
    simp

theorem gpuAssignedText_of_fits (fits : (deviceText ids).length < size) :
    gpuAssignedText size ids = String.ofList (deviceText ids) := by
  cases ids with
  | nil => rfl
  | cons id ids =>
    rw [deviceText_cons] at fits ⊢
    have first : strlcat size "" (decimalText id) = String.ofList (decimalDigits id) := by
      show strlcat size (String.ofList []) (String.ofList (decimalDigits id)) = _
      refine strlcat_of_fits ?_
      rw [length_append] at fits
      simp only [length_nil]
      omega
    rw [gpuAssignedText, first]
    exact foldl_deviceText fits

theorem deviceNames_gpuAssignedText (fits : (deviceText ids).length < size) :
    deviceNames (gpuAssignedText size ids) = ids.map decimalText := by
  have proper : ∀ t ∈ ids.map decimalDigits, t ≠ [] ∧ ∀ c ∈ t, decide (c = ',') = false := by
    intro t member
    obtain ⟨id, _, rfl⟩ := List.mem_map.mp member
    refine ⟨decimalDigits_ne_nil id, fun c inText => decide_eq_false fun comma => ?_⟩
    rcases mem_decimalDigits inText with sign | digit
    · exact absurd (comma.symm.trans sign) (by decide)
    · rw [comma] at digit
      exact absurd digit (by decide)
  rw [gpuAssignedText_of_fits fits, deviceNames, strtok, String.toList_ofList, deviceText,
    strtokAux_intercalate (by decide) proper, List.map_map]
  rfl

theorem mem_deviceNames_iff {id : Int} (fits : (deviceText ids).length < size) :
    decimalText id ∈ deviceNames (gpuAssignedText size ids) ↔ id ∈ ids := by
  rw [deviceNames_gpuAssignedText fits]
  constructor
  · intro member
    obtain ⟨other, inIds, same⟩ := List.mem_map.mp member
    exact decimalText_injective same ▸ inIds
  · exact List.mem_map_of_mem

end

/-! ### Devices and jobs -/

def Names (job : JobData) (id : Int) : Prop :=
  decimalText id ∈ deviceNames job.gpuAssigned

instance decidableNames (job : JobData) (id : Int) : Decidable (Names job id) :=
  inferInstanceAs (Decidable (decimalText id ∈ deviceNames job.gpuAssigned))

/-- The running job `j` uses the host `h` and was assigned the device. -/
def Holder (m : MbdState) (h : HostName) (j : JobId) (id : Int) : Prop :=
  ∃ job, m.jobs j = some job ∧ job.listId = .run ∧ h ∈ job.hosts ∧ Names job id

/-- The marked devices are the disjoint union of the devices of the running jobs. -/
structure DevicesExact (conf : Conf) (m : MbdState) : Prop where
  table : ∀ h, (m.hosts h).gpus.map GpuId.id = (conf.hostConf h).gpuIds
  used : ∀ h, ∀ g ∈ (m.hosts h).gpus, g.inUse = true ↔ ∃ j, Holder m h j g.id
  apart : ∀ {h i j id}, Holder m h i id → Holder m h j id → i = j

/-- Each host has distinct devices, and their ids fit in the text sent to the sbd. -/
def DistinctDevices (conf : Conf) : Prop :=
  ∀ hc ∈ conf.hosts, hc.gpuIds.Nodup ∧ (deviceText hc.gpuIds).length < 64

instance decidableDistinct (conf : Conf) : Decidable (DistinctDevices conf) :=
  inferInstanceAs (Decidable (∀ hc ∈ conf.hosts,
    hc.gpuIds.Nodup ∧ (deviceText hc.gpuIds).length < 64))

/-- A GPU job uses one host, and runs with as many devices of it as it asked for. -/
structure JobDevices (conf : Conf) (job : JobData) : Prop where
  unassigned : job.res.numGpus ≤ 0 → job.gpuAssigned = ""
  single : 0 < job.res.numGpus → job.res.numHosts = 1
  assigned : job.listId = .run → 0 < job.res.numGpus → ∃ h ids, job.hosts = [h] ∧
    ids.length = job.res.numGpus.toNat ∧ ids.Sublist (conf.hostConf h).gpuIds ∧
    job.gpuAssigned = gpuAssignedText 64 ids

structure DeviceState (conf : Conf) (m : MbdState) : Prop extends DevicesExact conf m where
  job : ∀ j job, m.jobs j = some job → JobDevices conf job

def FirstDevices (m : MbdState) (job : JobData) : Prop :=
  ∀ h ∈ job.hosts, ∀ g ∈ (m.hosts h).gpus.take job.res.numGpus.toNat, Names job g.id

instance decidableFirst (m : MbdState) (job : JobData) : Decidable (FirstDevices m job) :=
  inferInstanceAs (Decidable (∀ h ∈ job.hosts, ∀ g ∈ (m.hosts h).gpus.take job.res.numGpus.toNat,
    Names job g.id))

def freedDevices (job : JobData) (gpus : List GpuId) : List GpuId :=
  gpus.map fun g => if Names job g.id then { g with inUse := false } else g

/-- Releasing the job meets no failed assertion and frees exactly its own devices. -/
def ReleasesOwn (m : MbdState) (job : JobData) : Prop :=
  ∃ m', resetHostResources m job = some m' ∧ ∀ h, (m'.hosts h).gpus =
    if h ∈ job.hosts then freedDevices job (m.hosts h).gpus else (m.hosts h).gpus

/-- The reports and losses that leave the devices right. -/
def deviceReports : Permit
  | m, job, .released => 0 < job.res.numGpus → FirstDevices m job
  | m, job, .finished => 0 < job.res.numGpus → FirstDevices m job
  | _, job, .unsent => job.res.numGpus ≤ 0
  | _, _, _ => True

instance decidableDevices (m : MbdState) (job : JobData) :
    ∀ report, Decidable (deviceReports m job report)
  | .released | .finished =>
    inferInstanceAs (Decidable (0 < job.res.numGpus → FirstDevices m job))
  | .unsent => inferInstanceAs (Decidable (job.res.numGpus ≤ 0))
  | .forked | .stopped _ | .continued _ | .compacted | .moved _ | .ranked _ => isTrue trivial

variable {conf : Conf}

theorem DistinctDevices.nodup (proper : DistinctDevices conf) (h : HostName) :
    (conf.hostConf h).gpuIds.Nodup := by
  unfold Conf.hostConf
  cases found : conf.findHost h with
  | none => exact nodup_nil
  | some hc => exact (proper hc (mem_of_find?_eq_some found)).1

theorem DistinctDevices.fits (proper : DistinctDevices conf) {h : HostName} {ids : List Int}
    (within : ids.Sublist (conf.hostConf h).gpuIds) : (deviceText ids).length < 64 := by
  refine Nat.lt_of_le_of_lt (length_deviceText_le within) ?_
  unfold Conf.hostConf
  cases found : conf.findHost h with
  | none => exact (by decide : (deviceText []).length < 64)
  | some hc => exact (proper hc (mem_of_find?_eq_some found)).2

variable {m m' : MbdState} {j : JobId} {job job' : JobData} {h first : HostName} {id : Int}
  {onHost : HostChange} {onQueue : QueueChange} {pools : PoolName → Int} {records : List Event}
  {sent : Outbox} {plan : List HostName} {text : String} {now : Time} {gpus : List GpuId}

theorem holder_iff (found : m.jobs j = some job) :
    Holder m h j id ↔ job.listId = .run ∧ h ∈ job.hosts ∧ Names job id := by
  unfold Holder
  rw [found]
  simp

theorem Change.holder_of_ne (change : Change m m' j job job' onHost onQueue pools records sent)
    {i : JobId} (other : i ≠ j) : Holder m' h i id ↔ Holder m h i id := by
  unfold Holder
  rw [change.jobs_of_ne other]

theorem not_names (empty : job.gpuAssigned = "") : ¬ Names job id := by
  unfold Names
  rw [empty]
  exact not_mem_nil

theorem JobDevices.names (devices : JobDevices conf job) (proper : DistinctDevices conf)
    (running : job.listId = .run) (asked : 0 < job.res.numGpus) :
    ∃ (h : HostName) (ids : List Int), job.hosts = [h] ∧
      ids.length = job.res.numGpus.toNat ∧ ids.Sublist (conf.hostConf h).gpuIds ∧
      ∀ id, Names job id ↔ id ∈ ids := by
  obtain ⟨h, ids, hosts, count, within, text⟩ := devices.assigned running asked
  refine ⟨h, ids, hosts, count, within, fun id => ?_⟩
  unfold Names
  rw [text]
  exact mem_deviceNames_iff (proper.fits within)

theorem DevicesExact.device (exact_ : DevicesExact conf m)
    (member : id ∈ (conf.hostConf h).gpuIds) : ∃ g ∈ (m.hosts h).gpus, g.id = id := by
  rw [← exact_.table h] at member
  exact List.mem_map.mp member

theorem DevicesExact.congr (exact_ : DevicesExact conf m)
    (gpus : ∀ h, (m'.hosts h).gpus = (m.hosts h).gpus)
    (holders : ∀ h i id, Holder m' h i id ↔ Holder m h i id) : DevicesExact conf m' where
  table h := by rw [gpus, exact_.table]
  used h g member := by
    rw [gpus] at member
    rw [exact_.used h g member]
    exact exists_congr fun i => (holders h i g.id).symm
  apart first second := exact_.apart ((holders _ _ _).mp first) ((holders _ _ _).mp second)

theorem DevicesExact.marked {host : HostName} {ids : List Int} {mark : Bool}
    (exact_ : DevicesExact conf m) (table : ∀ h, (m'.hosts h).gpus =
      if h = host then setMarks ids mark (m.hosts h).gpus else (m.hosts h).gpus)
    (holders : ∀ h id, (∃ i, Holder m' h i id) ↔
      if h = host ∧ id ∈ ids then mark = true else ∃ i, Holder m h i id)
    (apart : ∀ {h i i' id}, Holder m' h i id → Holder m' h i' id → i = i') :
    DevicesExact conf m' where
  table h := by
    rw [table]
    split
    · rw [map_id_setMarks, exact_.table]
    · exact exact_.table h
  used h g member := by
    rw [holders]
    rw [table] at member
    split at member
    · next same =>
      subst same
      obtain ⟨before, was, id, mark⟩ := mem_setMarks.mp member
      have earlier := exact_.used h before was
      rw [id] at earlier
      rw [mark]
      by_cases named : g.id ∈ ids <;> simp [named, earlier]
    · next other =>
      rw [exact_.used h g member]
      simp [other]
  apart := apart

theorem DevicesExact.take {ids : List Int} (exact_ : DevicesExact conf m)
    (table : ∀ h, (m'.hosts h).gpus =
      if h = first then setMarks ids true (m.hosts h).gpus else (m.hosts h).gpus)
    (self : ∀ h id, Holder m' h j id ↔ h = first ∧ id ∈ ids)
    (others : ∀ {i h id}, i ≠ j → (Holder m' h i id ↔ Holder m h i id))
    (idle : ∀ h id, ¬ Holder m h j id) (free : ∀ {i id}, id ∈ ids → ¬ Holder m first i id) :
    DevicesExact conf m' := by
  refine exact_.marked table (fun h id => ?_) fun {h i i' id} one two => ?_
  · by_cases own : h = first ∧ id ∈ ids
    · rw [if_pos own]
      exact iff_of_true ⟨j, (self h id).mpr own⟩ rfl
    · rw [if_neg own]
      refine exists_congr fun i => ?_
      by_cases same : i = j
      · subst same
        exact iff_of_false (fun holds => own ((self h id).mp holds)) (idle h id)
      · exact others same
  · -- what `j` holds was free
    have alone : ∀ {k}, k ≠ j → Holder m' h j id → ¬ Holder m' h k id := by
      intro k other mine holds
      obtain ⟨rfl, named⟩ := (self h id).mp mine
      exact free named ((others other).mp holds)
    by_cases same : i = j <;> by_cases same' : i' = j
    · rw [same, same']
    · exact absurd two (alone same' (same ▸ one))
    · exact absurd one (alone same (same' ▸ two))
    · exact exact_.apart ((others same).mp one) ((others same').mp two)

theorem DevicesExact.give (exact_ : DevicesExact conf m) (host : HostName) (ids : List Int)
    (table : ∀ h, (m'.hosts h).gpus =
      if h = host then setMarks ids false (m.hosts h).gpus else (m.hosts h).gpus)
    (self : ∀ h id, ¬ Holder m' h j id)
    (others : ∀ {i h id}, i ≠ j → (Holder m' h i id ↔ Holder m h i id))
    (own : ∀ h id, Holder m h j id ↔ h = host ∧ id ∈ ids) : DevicesExact conf m' := by
  have before : ∀ {h i id}, Holder m' h i id → i ≠ j ∧ Holder m h i id := by
    intro h i id holds
    have other : i ≠ j := fun same => self h id (same ▸ holds)
    exact ⟨other, (others other).mp holds⟩
  refine exact_.marked table (fun h id => ?_) fun one two => exact_.apart (before one).2 (before two).2
  by_cases mine : h = host ∧ id ∈ ids
  · rw [if_pos mine]
    refine iff_of_false (fun ⟨i, holds⟩ => ?_) Bool.false_ne_true
    exact (before holds).1 (exact_.apart (before holds).2 ((own h id).mpr mine))
  · rw [if_neg mine]
    refine exists_congr fun i => ⟨fun holds => (before holds).2, fun holds => ?_⟩
    exact (others fun same => mine ((own h id).mp (same ▸ holds))).mpr holds

theorem Change.gpus_kept
    (change : Change m m' j job job' hostsKept onQueue pools records sent) (h : HostName) :
    (m'.hosts h).gpus = (m.hosts h).gpus :=
  congrArg HostData.gpus (change.hosts h)

theorem Change.deviceState (change : Change m m' j job job' onHost onQueue pools records sent)
    (state : DeviceState conf m) (gpus : ∀ h, (m'.hosts h).gpus = (m.hosts h).gpus)
    (holds : ∀ h id, (job'.listId = .run ∧ h ∈ job'.hosts ∧ Names job' id) ↔
      (job.listId = .run ∧ h ∈ job.hosts ∧ Names job id))
    (devices : JobDevices conf job') : DeviceState conf m' where
  toDevicesExact := by
    refine state.toDevicesExact.congr gpus fun h i id => ?_
    by_cases same : i = j
    · subst same
      rw [holder_iff change.jobs_self, holder_iff change.found]
      exact holds h id
    · exact change.holder_of_ne same
  job i found at' := by
    rcases change.jobs_cases at' with ⟨rfl, rfl⟩ | ⟨_, before⟩
    · exact devices
    · exact state.job i found before

theorem Change.deviceState_kept (change : Change m m' j job job' onHost onQueue pools records sent)
    (state : DeviceState conf m) (gpus : ∀ h, (m'.hosts h).gpus = (m.hosts h).gpus)
    (list : job'.listId = job.listId) (hosts : job'.hosts = job.hosts)
    (text : job'.gpuAssigned = job.gpuAssigned) : DeviceState conf m' := by
  have res : job'.res = job.res := congrArg Request.res change.request
  have devices := state.job j job change.found
  refine change.deviceState state gpus (fun h id => ?_) ⟨?_, ?_, ?_⟩
  · rw [list, hosts, Names, Names, text]
  · rw [res, text]
    exact devices.unassigned
  · rw [res]
    exact devices.single
  · rw [res, text, list, hosts]
    exact devices.assigned

theorem Change.deviceState_idle (change : Change m m' j job job' onHost onQueue pools records sent)
    (state : DeviceState conf m) (gpus : ∀ h, (m'.hosts h).gpus = (m.hosts h).gpus)
    (before : job.listId ≠ .run) (after : job'.listId ≠ .run)
    (text : job'.gpuAssigned = job.gpuAssigned) : DeviceState conf m' := by
  have res : job'.res = job.res := congrArg Request.res change.request
  have devices := state.job j job change.found
  refine change.deviceState state gpus (fun h id => ?_) ⟨?_, ?_, fun running => absurd running after⟩
  · constructor
    · exact fun holds => absurd holds.1 after
    · exact fun holds => absurd holds.1 before
  · rw [res, text]
    exact devices.unassigned
  · rw [res]
    exact devices.single

/-! ### Dispatch -/

theorem Change.deviceState_plain (change : Change m m' j job (dispatchedJob job plan text now)
      (hostsCharged (dispatchedJob job plan text now) first gpus) onQueue pools records sent)
    (state : DeviceState conf m) (pending : job.listId ≠ .run) (none : job.res.numGpus ≤ 0)
    (assigned : AssignedOn m job first gpus text) : DeviceState conf m' := by
  have devices := state.job j job change.found
  have empty := devices.unassigned none
  rw [AssignedOn, if_neg (Int.not_lt.mpr none)] at assigned
  obtain ⟨rfl, rfl⟩ := assigned
  have after : ∀ h, (m'.hosts h).gpus = (m.hosts h).gpus := by
    intro h
    rw [change.hosts h, hostsAssigned]
    by_cases uses : h ∈ (dispatchedJob job plan job.gpuAssigned now).hosts
    · rw [if_pos uses]
      by_cases isFirst : h = first <;> simp [isFirst, chargeHost]
    · rw [if_neg uses]
      by_cases isFirst : h = first <;> simp [isFirst]
  refine ⟨state.toDevicesExact.congr after fun h i id => ?_, fun i found at' => ?_⟩
  · by_cases same : i = j
    · subst same
      rw [holder_iff change.jobs_self, holder_iff change.found]
      exact ⟨fun holds => absurd holds.2.2 (not_names empty), fun holds => absurd holds.1 pending⟩
    · exact change.holder_of_ne same
  · rcases change.jobs_cases at' with ⟨rfl, rfl⟩ | ⟨_, before⟩
    · exact ⟨fun _ => empty, devices.single, fun _ asked => absurd asked (Int.not_lt.mpr none)⟩
    · exact state.job i found before

theorem Change.deviceState_assigned {queue : QueueName}
    (change : Change m m' j job (dispatchedJob job plan text now)
      (hostsCharged (dispatchedJob job plan text now) first gpus) onQueue pools records sent)
    (proper : DistinctDevices conf) (state : DeviceState conf m) (pending : job.listId ≠ .run)
    (asked : 0 < job.res.numGpus) (planned : PlanFor conf m job queue plan)
    (isFirst : plan.head? = some first) (assigned : AssignedOn m job first gpus text) :
    DeviceState conf m' := by
  have devices := state.job j job change.found
  -- the plan has one host, and the devices are picked there
  obtain rfl : plan = [first] := by
    have one : plan.length = 1 := by
      have count := planned.count
      rw [devices.single asked] at count
      omega
    obtain ⟨only, rfl⟩ := length_eq_one_iff.mp one
    rw [head?_cons] at isFirst
    rw [Option.some.inj isFirst]
  have distinct : ((m.hosts first).gpus.map GpuId.id).Nodup := by
    rw [state.table]
    exact proper.nodup first
  have enough := (planned.suits mem_cons_self).gpus asked
  obtain ⟨marked, ids, built, picked⟩ := buildGpuAssignedStr_spec distinct enough
  rw [AssignedOn, if_pos asked, built] at assigned
  obtain ⟨rfl, rfl⟩ := Prod.mk.inj (Option.some.inj assigned)
  have within : ids.Sublist (conf.hostConf first).gpuIds := state.table first ▸ picked.within
  have hosts : (dispatchedJob job [first] (gpuAssignedText 64 ids) now).hosts = [first] := rfl
  have names : ∀ id, Names (dispatchedJob job [first] (gpuAssignedText 64 ids) now) id ↔
      id ∈ ids := fun id => mem_deviceNames_iff (proper.fits within)
  have table : ∀ h, (m'.hosts h).gpus =
      if h = first then setMarks ids true (m.hosts h).gpus else (m.hosts h).gpus := by
    intro h
    rw [change.hosts h, hosts, hostsAssigned]
    by_cases same : h = first
    · subst same
      simp [chargeHost, picked.marks]
    · simp [same]
  have self : ∀ h id, Holder m' h j id ↔ h = first ∧ id ∈ ids := by
    intro h id
    rw [holder_iff change.jobs_self, hosts, names, mem_singleton]
    exact ⟨And.right, fun holds => ⟨rfl, holds⟩⟩
  have idle : ∀ h id, ¬ Holder m h j id := fun h id holds =>
    pending ((holder_iff change.found).mp holds).1
  have free : ∀ {i id}, id ∈ ids → ¬ Holder m first i id := by
    intro i id named holds
    obtain ⟨g, member, rfl⟩ := state.device (within.subset named)
    have marked := (state.used first g member).mpr ⟨i, holds⟩
    rw [picked.free g member named] at marked
    cases marked
  refine ⟨state.take table self change.holder_of_ne idle free, fun i found at' => ?_⟩
  rcases change.jobs_cases at' with ⟨rfl, rfl⟩ | ⟨_, before⟩
  · exact ⟨fun none => absurd asked (Int.not_lt.mpr none), devices.single,
      fun _ _ => ⟨first, ids, hosts, picked.count, within, rfl⟩⟩
  · exact state.job i found before

/-! ### Release -/

theorem resetHost_gpus {a b : HostData} (reset : resetHost job a = some b) :
    releasedGpus job a.gpus = some b.gpus := by
  obtain ⟨gpus, released, done⟩ := Option.bind_eq_some_iff.mp reset
  cases done
  exact released

theorem DeviceState.released (state : DeviceState conf m) (proper : DistinctDevices conf)
    (found : m.jobs j = some job) (running : job.listId = .run) (asked : 0 < job.res.numGpus)
    (first : FirstDevices m job) : ∃ (host : HostName) (ids : List Int), job.hosts = [host] ∧
      (∀ id, Names job id ↔ id ∈ ids) ∧
      releasedGpus job (m.hosts host).gpus = some (setMarks ids false (m.hosts host).gpus) := by
  obtain ⟨host, ids, hosts, count, within, names⟩ :=
    (state.job j job found).names proper running asked
  refine ⟨host, ids, hosts, names, ?_⟩
  have uses : host ∈ job.hosts := hosts ▸ mem_cons_self
  have distinct : ((m.hosts host).gpus.map GpuId.id).Nodup := by
    rw [state.table]
    exact proper.nodup host
  have sub : ids.Sublist ((m.hosts host).gpus.map GpuId.id) := by
    rw [state.table]
    exact within
  have long : job.res.numGpus.toNat ≤ (m.hosts host).gpus.length := by
    rw [← count, ← length_map (f := GpuId.id)]
    exact sub.length_le
  have own : ∀ g ∈ (m.hosts host).gpus.take job.res.numGpus.toNat, g.id ∈ ids :=
    fun g member => (names g.id).mp (first host uses g member)
  have busy : ((m.hosts host).gpus.take job.res.numGpus.toNat).all (fun g => g.inUse) = true := by
    refine List.all_eq_true.mpr fun g member => ?_
    exact (state.used host g (mem_of_mem_take member)).mpr
      ⟨j, (holder_iff found).mpr ⟨running, uses, first host uses g member⟩⟩
  rw [releasedGpus, if_pos asked, gpuIdsMarkFree, if_pos ⟨long, busy⟩,
    markFirst_eq_setMarks distinct count sub own]

theorem DeviceState.releasedGpus_eq (state : DeviceState conf m) (proper : DistinctDevices conf)
    (found : m.jobs j = some job) (running : job.listId = .run)
    (first : 0 < job.res.numGpus → FirstDevices m job) (uses : h ∈ job.hosts) :
    releasedGpus job (m.hosts h).gpus = some (freedDevices job (m.hosts h).gpus) := by
  by_cases asked : 0 < job.res.numGpus
  · obtain ⟨host, ids, hosts, names, released⟩ :=
      state.released proper found running asked (first asked)
    obtain rfl : h = host := mem_singleton.mp (hosts ▸ uses)
    rw [released, setMarks, freedDevices]
    simp only [names]
  · have empty := (state.job j job found).unassigned (Int.not_lt.mp asked)
    have same : freedDevices job (m.hosts h).gpus = (m.hosts h).gpus := by
      unfold freedDevices
      conv_rhs => rw [← List.map_id (m.hosts h).gpus]
      exact map_congr_left fun g _ => if_neg (not_names empty)
    rw [releasedGpus, if_neg asked, same]

theorem DeviceState.releasesOwn (state : DeviceState conf m) (proper : DistinctDevices conf)
    (found : m.jobs j = some job) (placed : RunningJob conf job) (running : job.listId = .run)
    (first : 0 < job.res.numGpus → FirstDevices m job) : ReleasesOwn m job := by
  have released := fun {h} uses =>
    state.releasedGpus_eq proper found running first (h := h) uses
  have each : ∀ h ∈ job.hosts, (resetHost job (m.hosts h)).isSome = true := by
    intro h uses
    simp [resetHost, released uses]
  obtain ⟨hosts, updated⟩ := updateEach_isSome placed.hosts_nodup each
  refine ⟨{ m with hosts := hosts }, by rw [resetHostResources, updated]; rfl, fun h => ?_⟩
  obtain ⟨inside, outside⟩ := updateEach_spec placed.hosts_nodup updated
  by_cases uses : h ∈ job.hosts
  · have after := resetHost_gpus (inside h uses)
    rw [released uses] at after
    rw [if_pos uses]
    exact (Option.some.inj after).symm
  · rw [if_neg uses]
    exact congrArg HostData.gpus (outside h uses)

theorem Change.deviceState_reset
    (change : Change m m' j job job' (hostsReset job) onQueue pools records sent)
    (proper : DistinctDevices conf) (state : DeviceState conf m) (running : job.listId = .run)
    (left : job'.listId ≠ .run) (text : job'.gpuAssigned = job.gpuAssigned)
    (first : 0 < job.res.numGpus → FirstDevices m job) : DeviceState conf m' := by
  have res : job'.res = job.res := congrArg Request.res change.request
  have devices := state.job j job change.found
  have gone : ∀ h id, ¬ Holder m' h j id := fun h id holds =>
    left ((holder_iff change.jobs_self).mp holds).1
  have jobs : ∀ i found, m'.jobs i = some found → JobDevices conf found := by
    intro i found at'
    rcases change.jobs_cases at' with ⟨rfl, rfl⟩ | ⟨_, before⟩
    · refine ⟨?_, ?_, fun running => absurd running left⟩
      · rw [res, text]
        exact devices.unassigned
      · rw [res]
        exact devices.single
    · exact state.job i found before
  have gpusOf : ∀ {h}, h ∈ job.hosts →
      releasedGpus job (m.hosts h).gpus = some (m'.hosts h).gpus := by
    intro h uses
    have reset := change.hosts h
    rw [hostsReset, if_pos uses] at reset
    exact resetHost_gpus reset
  have gpusElse : ∀ {h}, h ∉ job.hosts → (m'.hosts h).gpus = (m.hosts h).gpus := by
    intro h away
    have kept := change.hosts h
    rw [hostsReset, if_neg away] at kept
    rw [kept]
  by_cases asked : 0 < job.res.numGpus
  · obtain ⟨host, ids, hosts, names, released⟩ :=
      state.released proper change.found running asked (first asked)
    have own : ∀ h id, Holder m h j id ↔ h = host ∧ id ∈ ids := by
      intro h id
      rw [holder_iff change.found, hosts, names, mem_singleton]
      exact ⟨And.right, fun holds => ⟨running, holds⟩⟩
    refine ⟨state.give host ids (fun h => ?_) gone change.holder_of_ne own, jobs⟩
    by_cases same : h = host
    · subst same
      have after := gpusOf (hosts ▸ mem_cons_self)
      rw [released] at after
      rw [if_pos rfl]
      exact (Option.some.inj after).symm
    · rw [if_neg same, gpusElse]
      rw [hosts]
      exact fun member => same (mem_singleton.mp member)
  · have empty := devices.unassigned (Int.not_lt.mp asked)
    refine ⟨state.toDevicesExact.congr (fun h => ?_) fun h i id => ?_, jobs⟩
    · by_cases uses : h ∈ job.hosts
      · have after := gpusOf uses
        rw [releasedGpus, if_neg asked] at after
        exact (Option.some.inj after).symm
      · exact gpusElse uses
    · by_cases same : i = j
      · subst same
        refine ⟨fun holds => absurd holds (gone h id), fun holds => ?_⟩
        exact absurd ((holder_iff change.found).mp holds).2.2 (not_names empty)
      · exact change.holder_of_ne same

/-! ### Effects and registrations -/

variable {ws : WireJobSubmit}

theorem DeviceState.of_same (state : DeviceState conf m) (jobs : m'.jobs = m.jobs)
    (gpus : ∀ h, (m'.hosts h).gpus = (m.hosts h).gpus) : DeviceState conf m' where
  toDevicesExact := state.toDevicesExact.congr gpus fun h i id => by rw [Holder, Holder, jobs]
  job := jobs ▸ state.job

theorem Frame.deviceState (framed : Frame m m') (state : DeviceState conf m) :
    DeviceState conf m' :=
  state.of_same framed.jobs fun h => by rw [framed.hosts h]

theorem compact_deviceState (compacted : manifestRebuild m = some m') (listed : Listed m)
    (state : DeviceState conf m) : DeviceState conf m' where
  toDevicesExact := by
    refine state.toDevicesExact.congr (fun h => ?_) fun h i id => ?_
    · obtain ⟨_, _, result⟩ := manifestRebuild_spec compacted
      rw [result]
    · constructor
      · rintro ⟨job, found, rest⟩
        exact ⟨job, (compact_jobs compacted found).1, rest⟩
      · rintro ⟨job, found, running, rest⟩
        exact ⟨job, compact_open compacted listed found (running.trans_ne (by decide)), running,
          rest⟩
  job j job found := state.job j job (compact_jobs compacted found).1

theorem Effect.deviceState (proper : DistinctDevices conf) (wf : Wf conf m)
    (state : DeviceState conf m) (effect : Effect conf deviceReports m m') :
    DeviceState conf m' := by
  have pendingAway : ListId.pend ≠ .run := by decide
  have finishedAway : ListId.finish ≠ .run := by decide
  cases effect with
  | frame framed => exact framed.deviceState state
  | ackReply _ _ sends | ackFinish _ _ sends =>
    subst sends
    exact state.of_same rfl fun _ => rfl
  | compact _ compacted => exact compact_deviceState compacted wf.toListed state
  | note _ change | signalSent _ _ change | hold _ _ _ change | unhold _ _ _ change
  | move _ _ _ _ _ change | priority _ _ change | fork _ _ _ _ _ change =>
    exact change.deviceState_kept state change.gpus_kept rfl rfl rfl
  | kill pending _ _ _ change =>
    exact change.deviceState_idle state change.gpus_kept (pending.trans_ne pendingAway) finishedAway rfl
  | @stranded _ job _ _ first gpus text pending _ _ assigned permitted change =>
    have none : ¬ 0 < job.res.numGpus := Int.not_lt.mpr permitted
    rw [AssignedOn, if_neg none] at assigned
    obtain ⟨table, same⟩ := assigned
    have away := pending.trans_ne pendingAway
    refine change.deviceState_idle state (fun h => ?_) away away same
    rw [change.hosts h, hostsAssigned]
    split
    · next isFirst => rw [isFirst, table]
    · rfl
  | @dispatch _ job _ _ _ _ _ _ pending _ _ _ planned isFirst _ assigned change =>
    have away := pending.trans_ne pendingAway
    by_cases asked : 0 < job.res.numGpus
    · exact change.deviceState_assigned proper state away asked planned isFirst assigned
    · exact change.deviceState_plain state away (Int.not_lt.mp asked) assigned
  | release running _ _ _ result _ permitted change =>
    rcases result with rfl | rfl
    · exact change.deviceState_reset proper state running pendingAway rfl permitted
    · exact change.deviceState_reset proper state running pendingAway rfl permitted
  | finish running _ _ _ _ _ permitted change =>
    exact change.deviceState_reset proper state running finishedAway rfl permitted
  | stopped _ _ _ change | continued _ _ _ change =>
    refine change.deviceState_kept state (fun h => ?_) rfl rfl rfl
    rw [change.hosts h]
    split <;> rfl

def OneHostForGpus (conf : Conf) (ws : WireJobSubmit) : Prop :=
  0 < ws.numGpus →
    reservedHosts (settledHosts (machinesHashPopulate conf ws.machines) ws.numHosts) = 1

theorem Prepared.jobDevices (prepared : Prepared conf ws job) (oneHost : OneHostForGpus conf ws) :
    JobDevices conf job where
  unassigned _ := prepared.gpuAssigned
  single asked := by
    rw [prepared.numHosts, prepared.machines]
    exact oneHost (prepared.numGpus ▸ asked)
  assigned running := absurd (prepared.list.symm.trans running) (by decide)

theorem Commit.deviceState {q : QueueName} (commit : Commit conf ws m m' q job)
    (oneHost : OneHostForGpus conf ws) (state : DeviceState conf m) : DeviceState conf m' where
  toDevicesExact := by
    refine state.toDevicesExact.congr (fun h => by rw [commit.hosts]) fun h i id => ?_
    rw [Holder, Holder, commit.jobs]
    by_cases same : i = job.jobId
    · subst same
      rw [Function.update_self, commit.fresh]
      simp [commit.prepared.list]
    · rw [Function.update_of_ne same]
  job i found at' := by
    rcases commit.jobs_cases at' with ⟨rfl, rfl⟩ | before
    · exact commit.prepared.jobDevices oneHost
    · exact state.job i found before

theorem Registers.deviceState (registers : Registers conf ws m m')
    (oneHost : OneHostForGpus conf ws) (state : DeviceState conf m) : DeviceState conf m' :=
  registers.keeps (DeviceState conf) (fun state framed => framed.deviceState state)
    (fun state commit => commit.deviceState oneHost state)
    (fun state => state.of_same rfl fun _ => rfl) state

end LavaLite.Mbd
