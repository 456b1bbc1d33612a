import LavaLite.Base.CNumber

/-
The archived manifests.  A compaction moves the manifest to the name with the next
number.  The number is kept in memory only: a restart takes the highest one it finds
in the directory.
-/

namespace LavaLite.Mbd

open Base List

def archiveStem : List Char :=
  ['m', 'a', 'n', 'i', 'f', 'e', 's', 't', '.']

/-- The name with a number, as `"%s.%u"` prints it. -/
def archiveName (seq : UInt32) : List Char :=
  archiveStem ++ decimalDigits seq.toNat

/-- One entry of the directory in `manifest_seq_scan`. -/
def scanEntry (seq : UInt32) (name : List Char) : UInt32 :=
  if archiveStem.isPrefixOf name = false then seq
  else
    let p := name.drop 9
    if p.isEmpty then seq
    else if p.all Char.isDigit = false then seq
    else
      let n := UInt32.ofInt (atol p)
      if seq < n then n else seq

/-- `manifest_seq_scan` over the entries in the order `readdir` gives them. -/
def manifestSeqScan (files : List (List Char)) (seq : UInt32) : UInt32 :=
  files.foldl scanEntry seq

/-- The directory and `manifest_seq`. -/
structure ArchiveDir where
  files : List (List Char)
  manifestSeq : UInt32
  deriving DecidableEq

/-- A start of mbd; where `opendir` fails the number stays 0. -/
def ArchiveDir.start (opened : Bool) (files : List (List Char)) : ArchiveDir :=
  ⟨files, if opened then manifestSeqScan files 0 else 0⟩

inductive ArchiveEvent where
  | compact
  | delete (name : List Char)
  | restart (opened : Bool)
  deriving DecidableEq

def ArchiveDir.target (d : ArchiveDir) : List Char :=
  archiveName (d.manifestSeq + 1)

def ArchiveDir.step (d : ArchiveDir) : ArchiveEvent → ArchiveDir
  | .compact => ⟨if d.target ∈ d.files then d.files else d.files ++ [d.target], d.manifestSeq + 1⟩
  | .delete name => ⟨d.files.filter (· ≠ name), d.manifestSeq⟩
  | .restart opened => .start opened d.files

def NeverOverwrites : ArchiveDir → List ArchiveEvent → Prop
  | _, [] => True
  | d, e :: rest => (e = .compact → d.target ∉ d.files) ∧ NeverOverwrites (d.step e) rest

instance decidableNeverOverwrites :
    ∀ (d : ArchiveDir) (events : List ArchiveEvent), Decidable (NeverOverwrites d events)
  | _, [] => inferInstanceAs (Decidable True)
  | d, e :: rest =>
    have := decidableNeverOverwrites (d.step e) rest
    inferInstanceAs (Decidable (_ ∧ _))

/-- The number that a name stands for in the scan; 0 for a name that is passed over. -/
def archiveNumber (name : List Char) : UInt32 :=
  scanEntry 0 name

theorem scanEntry_eq (seq : UInt32) (name : List Char) :
    scanEntry seq name = if seq < archiveNumber name then archiveNumber name else seq := by
  have least : ¬ seq < 0 := UInt32.not_lt_zero
  simp only [archiveNumber, scanEntry]
  split_ifs <;> simp_all

theorem archiveNumber_archiveName (seq : UInt32) : archiveNumber (archiveName seq) = seq := by
  have digits : (decimalDigits seq.toNat).all Char.isDigit = true := by
    rw [List.all_eq_true]
    intro c member
    rw [decimalDigits, if_neg (by omega)] at member
    exact natDigits_isDigit member
  have stem : archiveStem.isPrefixOf (archiveName seq) = true :=
    isPrefixOf_iff_prefix.mpr (prefix_append _ _)
  have rest : (archiveName seq).drop 9 = decimalDigits seq.toNat := drop_left' rfl
  have number : UInt32.ofInt (atol (decimalDigits seq.toNat)) = seq := by
    have small := seq.toNat_lt
    rw [atol_decimal (by omega) (by omega), UInt32.ofInt,
      Int.emod_eq_of_lt (by omega) (by omega), Int.toNat_natCast, UInt32.ofNat_toNat]
  have filled : (decimalDigits seq.toNat).isEmpty = false :=
    isEmpty_eq_false_iff.mpr (decimalDigits_ne_nil _)
  rw [archiveNumber, scanEntry, if_neg (by simp [stem])]
  simp only [rest, filled, digits, number, Bool.false_eq_true, Bool.true_eq_false, if_false]
  split
  · rfl
  next zero => exact (by simpa using zero : seq = 0).symm

theorem le_manifestSeqScan (files : List (List Char)) (seq : UInt32) :
    seq ≤ manifestSeqScan files seq ∧
      ∀ name ∈ files, archiveNumber name ≤ manifestSeqScan files seq := by
  induction files generalizing seq with
  | nil => exact ⟨UInt32.le_refl seq, nofun⟩
  | cons first rest ih =>
    obtain ⟨start, all⟩ := ih (scanEntry seq first)
    have both : seq ≤ scanEntry seq first ∧ archiveNumber first ≤ scanEntry seq first := by
      rw [scanEntry_eq]
      split
      next larger => exact ⟨UInt32.le_of_lt larger, UInt32.le_refl _⟩
      next smaller => exact ⟨UInt32.le_refl _, UInt32.not_lt.mp smaller⟩
    refine ⟨UInt32.le_trans both.1 start, fun name member => ?_⟩
    rcases mem_cons.mp member with rfl | later
    · exact UInt32.le_trans both.2 start
    · exact all name later

theorem manifestSeqScan_le {files : List (List Char)} {seq bound : UInt32} (start : seq ≤ bound)
    (all : ∀ name ∈ files, archiveNumber name ≤ bound) : manifestSeqScan files seq ≤ bound := by
  induction files generalizing seq with
  | nil => exact start
  | cons first rest ih =>
    obtain ⟨here, later⟩ := forall_mem_cons.mp all
    refine ih ?_ later
    rw [scanEntry_eq]
    split
    · exact here
    · exact start

def ArchiveDir.Covered (d : ArchiveDir) : Prop :=
  ∀ name ∈ d.files, archiveNumber name ≤ d.manifestSeq

theorem ArchiveDir.covered_start (files : List (List Char)) :
    (ArchiveDir.start true files).Covered :=
  (le_manifestSeqScan files 0).2

variable {d : ArchiveDir}

theorem ArchiveDir.toNat_next (room : d.manifestSeq.toNat < 4294967295) :
    (d.manifestSeq + 1).toNat = d.manifestSeq.toNat + 1 := by
  rw [UInt32.toNat_add, UInt32.toNat_one]
  exact Nat.mod_eq_of_lt (by omega)

theorem ArchiveDir.Covered.target_fresh (covered : d.Covered)
    (room : d.manifestSeq.toNat < 4294967295) : d.target ∉ d.files := by
  intro present
  have below := UInt32.le_iff_toNat_le.mp (covered _ present)
  rw [target, archiveNumber_archiveName, toNat_next room] at below
  omega

/-- The number stays above all files, and it grows by one at most, at a compaction. -/
theorem ArchiveDir.Covered.step {e : ArchiveEvent} (covered : d.Covered)
    (opened : e ≠ .restart false) (room : e = .compact → d.manifestSeq.toNat < 4294967295) :
    (d.step e).Covered ∧
      (d.step e).manifestSeq.toNat ≤ d.manifestSeq.toNat + [e].count .compact := by
  cases e with
  | compact =>
    have next := toNat_next (room rfl)
    refine ⟨fun name member => ?_, le_of_eq next⟩
    rw [ArchiveDir.step, if_neg (covered.target_fresh (room rfl)), mem_append,
      mem_singleton] at member
    rw [UInt32.le_iff_toNat_le]
    rcases member with old | rfl
    · have below := UInt32.le_iff_toNat_le.mp (covered name old)
      change _ ≤ (d.manifestSeq + 1).toNat
      omega
    · rw [target, archiveNumber_archiveName]
      exact Nat.le_refl _
  | delete name =>
    exact ⟨fun other member => covered other (mem_of_mem_filter member), Nat.le_refl _⟩
  | restart ready =>
    cases ready with
    | false => exact absurd rfl opened
    | true =>
      have below := manifestSeqScan_le UInt32.zero_le covered
      exact ⟨covered_start d.files, UInt32.le_iff_toNat_le.mp below⟩

theorem ArchiveDir.Covered.neverOverwrites {events : List ArchiveEvent} (covered : d.Covered)
    (opened : .restart false ∉ events)
    (room : d.manifestSeq.toNat + events.count .compact ≤ 4294967295) :
    NeverOverwrites d events := by
  induction events generalizing d with
  | nil => trivial
  | cons e rest ih =>
    have split : ([e] ++ rest).count .compact = [e].count .compact + rest.count .compact :=
      count_append
    have here : e = .compact → d.manifestSeq.toNat < 4294967295 := by
      rintro rfl
      rw [count_cons_self] at room
      omega
    obtain ⟨kept, grown⟩ := covered.step (fun same => opened (same ▸ mem_cons_self)) here
    refine ⟨fun same => covered.target_fresh (here same), ?_⟩
    rw [singleton_append] at split
    exact ih kept (fun later => opened (mem_cons_of_mem _ later)) (by omega)

/--
No archive is overwritten while the highest number at the start and the number of
compactions together stay below `2 ^ 32`.
-/
theorem archives_kept (files : List (List Char)) (events : List ArchiveEvent)
    (opened : .restart false ∉ events)
    (room : (manifestSeqScan files 0).toNat + events.count .compact ≤ 4294967295) :
    NeverOverwrites (.start true files) events :=
  (ArchiveDir.covered_start files).neverOverwrites opened room

theorem archives_kept_restarted :
    NeverOverwrites (.start true [archiveName 7])
      [.compact, .delete (archiveName 8), .restart true, .compact] :=
  archives_kept _ _ (by decide) (by decide +kernel)

/-- The number after the highest one is 0. -/
theorem archive_overwritten :
    ¬ NeverOverwrites (.start true [archiveName 0, archiveName 4294967294])
      [.compact, .compact] := by
  decide +kernel

end LavaLite.Mbd
