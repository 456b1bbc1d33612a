import LavaLite.Batch.LogText

/-
Which records of the manifest are read back: those whose numbers are values of
their C types, whose texts hold neither a quote nor a newline, and whose line fits
the buffer of the reader.
-/

namespace LavaLite.Batch

open Base List Option

/-! ### Quoted texts -/

def Unbroken (text : String) : Prop :=
  ∀ c ∈ text.toList, c ≠ '"' ∧ c ≠ '\n'

instance decidableUnbroken (text : String) : Decidable (Unbroken text) :=
  List.decidableBAll (fun c => c ≠ '"' ∧ c ≠ '\n') text.toList

variable {size : Nat} {text : String} {p rest : List Char}

theorem readQstr_writeQstr (rest : List Char) (unquoted : '"' ∉ text.toList)
    (fits : text.toList.length < size) :
    readQstr size (writeQstr text ++ rest) = some (text, rest) := by
  have plain : ∀ c ∈ text.toList, decide (c ≠ '"') = true := by
    intro c member
    refine decide_eq_true ?_
    rintro rfl
    exact unquoted member
  have blank : (writeQstr text ++ rest).dropWhile (· = ' ') = '"' :: (text.toList ++ '"' :: rest) := by
    simp [writeQstr]
  have body : (text.toList ++ '"' :: rest).takeWhile (· ≠ '"') = text.toList := by
    rw [takeWhile_append_of_pos plain]
    simp
  have after : (text.toList ++ '"' :: rest).dropWhile (· ≠ '"') = '"' :: rest := by
    rw [dropWhile_append_of_pos plain]
    simp
  unfold readQstr
  rw [blank]
  simp only [body, after, if_pos fits, String.ofList_toList]

theorem readQstr_unquoted (done : readQstr size p = some (text, rest)) :
    '"' ∉ text.toList ∧ text.toList.length < size := by
  unfold readQstr at done
  split at done
  · next s _ =>
    split at done
    · cases done
    · split at done
      · next fits =>
        cases done
        rw [String.toList_ofList]
        refine ⟨fun member => ?_, fits⟩
        have other := mem_takeWhile_imp member
        exact absurd rfl (of_decide_eq_true other)
      · cases done
  · cases done

theorem readQstrs_writeQstr {sizes : List Nat} {texts : List String} (rest : List Char)
    (plain : List.Forall₂ (fun size text => '"' ∉ String.toList text ∧ text.toList.length < size)
      sizes texts) : readQstrs sizes (texts.flatMap writeQstr ++ rest) = some (texts, rest) := by
  induction plain with
  | nil => rfl
  | @cons size text sizes texts fits _ ih =>
    rw [flatMap_cons, append_assoc, readQstrs, readQstr_writeQstr _ fits.1 fits.2]
    simp only [bind_eq_bind, bind_some, ih]

theorem readQstrs_unquoted {sizes : List Nat} {texts : List String}
    (done : readQstrs sizes p = some (texts, rest)) : ∀ text ∈ texts, '"' ∉ text.toList := by
  induction sizes generalizing p texts with
  | nil =>
    intro text member
    cases done
    cases member
  | cons size sizes ih =>
    intro text member
    rw [readQstrs] at done
    obtain ⟨⟨first, p'⟩, read, done⟩ := bind_eq_some_iff.mp done
    obtain ⟨⟨others, p''⟩, later, done⟩ := bind_eq_some_iff.mp done
    cases done
    rcases mem_cons.mp member with rfl | inRest
    · exact (readQstr_unquoted read).1
    · exact ih later text inRest

/-! ### Lines -/

def recordBody (type : EventType) (time : Time) (numbers : List Int) (texts : List String) :
    List Char :=
  type.name.toList ++ writeNumbers (1 :: time :: numbers) ++ texts.flatMap writeQstr

theorem writeRecord_eq (type : EventType) (time : Time) (numbers : List Int) (texts : List String) :
    writeRecord type time numbers texts = recordBody type time numbers texts ++ ['\n'] :=
  rfl

theorem EventType.name_plain (type : EventType) :
    (∀ c ∈ type.name.toList, isSpace c = false) ∧ type.name.toList ≠ [] ∧
      type.name.toList.length < 63 ∧ parseEventType type.name.toList = some type := by
  have spaceless : type.name.toList.all (fun c => !isSpace c) = true := by cases type <;> decide
  refine ⟨fun c member => ?_, ?_⟩
  · exact (Bool.not_eq_true' _).mp (List.all_eq_true.mp spaceless c member)
  · cases type <;> decide

theorem newline_not_mem_writeNumbers (vs : List Int) : '\n' ∉ writeNumbers vs := by
  intro member
  obtain ⟨v, _, here⟩ := mem_flatMap.mp member
  rcases mem_cons.mp here with blank | digit
  · exact absurd blank (by decide)
  · rcases mem_decimalDigits digit with minus | isDigit
    · exact absurd minus (by decide)
    · exact absurd isDigit (by decide)

theorem newline_mem_recordBody {type : EventType} {time : Time} {numbers : List Int}
    {texts : List String} :
    '\n' ∈ recordBody type time numbers texts ↔ ∃ text ∈ texts, '\n' ∈ text.toList := by
  unfold recordBody
  rw [mem_append, mem_append]
  constructor
  · rintro ((inName | inNumbers) | inTexts)
    · exact absurd (type.name_plain.1 '\n' inName) (by decide)
    · exact absurd inNumbers (newline_not_mem_writeNumbers _)
    · obtain ⟨text, member, here⟩ := mem_flatMap.mp inTexts
      refine ⟨text, member, ?_⟩
      simpa [writeQstr] using here
  · rintro ⟨text, member, here⟩
    refine Or.inr (mem_flatMap.mpr ⟨text, member, ?_⟩)
    simp [writeQstr, here]

theorem noDigit_texts (texts : List String) (rest : List Char) (stops : NoDigit rest) :
    NoDigit (texts.flatMap writeQstr ++ rest) := by
  cases texts with
  | nil => exact stops
  | cons text texts =>
    intro c isFirst
    have blank : ' ' = c := by simpa [writeQstr] using isFirst
    subst blank
    decide

theorem noDigit_newline : NoDigit ['\n'] := by
  intro c isFirst
  cases isFirst
  decide

theorem scanHdr_record {type : EventType} {time : Time} (numbers : List Int)
    (texts : List String) (clock : NumKind.long.Fits time) :
    scanHdr (recordBody type time numbers texts ++ ['\n']) = some
        { version := 1
          type := some type
          eventTime := time
          rest := writeNumbers numbers ++ (texts.flatMap writeQstr ++ ['\n']) } := by
  obtain ⟨visible, filled, short, known⟩ := type.name_plain
  have line : recordBody type time numbers texts ++ ['\n'] =
      type.name.toList ++ (' ' :: decimalDigits 1 ++ (' ' :: decimalDigits time ++
        (writeNumbers numbers ++ (texts.flatMap writeQstr ++ ['\n'])))) := by
    simp [recordBody, writeNumbers]
  have stops : NoDigit (writeNumbers numbers ++ (texts.flatMap writeQstr ++ ['\n'])) :=
    noDigit_writeNumbers numbers (noDigit_texts texts ['\n'] noDigit_newline)
  rw [line]
  generalize writeNumbers numbers ++ (texts.flatMap writeQstr ++ ['\n']) = payload at stops ⊢
  have stops' : NoDigit (' ' :: decimalDigits time ++ payload) := by
    intro c isFirst
    have blank : ' ' = c := by simpa using isFirst
    subst blank
    decide
  have atName : ∀ rest, skipWs (type.name.toList ++ rest) = type.name.toList ++ rest := by
    intro rest
    cases text : type.name.toList with
    | nil => exact absurd text filled
    | cons c name =>
      exact skipWs_of_not_space (visible c (text ▸ mem_cons_self))
  have etype : ((type.name.toList ++ (' ' :: decimalDigits 1 ++ (' ' :: decimalDigits time ++
      payload))).take 63).takeWhile (fun c => !isSpace c) = type.name.toList := by
    have room : 63 - type.name.toList.length = (62 - type.name.toList.length) + 1 := by omega
    rw [take_append, take_of_length_le (by omega), room, cons_append,
      take_succ_cons, takeWhile_append_of_pos (fun c member => by simp [visible c member])]
    simp [isSpace]
  have nonempty : type.name.toList.isEmpty = false := by simpa using filled
  unfold scanHdr
  simp only [atName, etype, nonempty, Bool.false_eq_true, if_false, drop_left]
  rw [scanInteger_decimal 1 stops', bind_eq_bind, bind_some]
  simp only [scanInteger_decimal time stops, bind_some, known, NumKind.store_of_fits clock]
  rfl

theorem logReadHdr_record {type : EventType} {time : Time} {numbers : List Int}
    {texts : List String} (clock : NumKind.long.Fits time)
    (plain : ∀ text ∈ texts, '\n' ∉ String.toList text)
    (short : (writeRecord type time numbers texts).length < 4096) (file : List Char) :
    logReadHdr (writeRecord type time numbers texts ++ file) = some
        ({ version := 1
           type := some type
           eventTime := time
           rest := writeNumbers numbers ++ (texts.flatMap writeQstr ++ ['\n']) }, file) := by
  have one : '\n' ∉ recordBody type time numbers texts := by
    rw [newline_mem_recordBody]
    rintro ⟨text, member, here⟩
    exact plain text member here
  rw [writeRecord_eq, length_append, length_singleton] at short
  have line : writeRecord type time numbers texts ++ file =
      recordBody type time numbers texts ++ '\n' :: file := by
    rw [writeRecord_eq, append_assoc, singleton_append]
  have nonempty : (recordBody type time numbers texts ++ '\n' :: file).isEmpty = false := by simp
  rw [line, logReadHdr, fgets, nonempty]
  simp only [Bool.false_eq_true, if_false, bind_eq_bind, bind_some]
  rw [takeLine_line file one (by omega)]
  simp only [scanHdr_record numbers texts clock, bind_some]

theorem readPayload_record {kinds : List NumKind} {sizes : List Nat} {numbers : List Int}
    (more : List Int) {texts : List String} {header : EventRec}
    (typed : List.Forall₂ NumKind.Fits kinds numbers)
    (plain : List.Forall₂ (fun size text => '"' ∉ String.toList text ∧ text.toList.length < size)
      sizes texts)
    (payload : header.rest = writeNumbers numbers ++ (writeNumbers more ++
      (texts.flatMap writeQstr ++ ['\n'])))
    (all : more = [] ∨ sizes = []) : readPayload kinds sizes header = some (numbers, texts) := by
  have stops := noDigit_writeNumbers more (noDigit_texts texts ['\n'] noDigit_newline)
  rw [readPayload, payload, scanNumbers_writeNumbers stops typed]
  simp only [bind_eq_bind, bind_some]
  rcases all with rfl | rfl
  · rw [writeNumbers, flatMap_nil, nil_append, readQstrs_writeQstr ['\n'] plain]
    rfl
  · cases plain
    rfl

/-! ### Records -/

def Event.type : Event → EventType
  | .jobNew _ => .jobNew
  | .jobStart _ => .jobStart
  | .jobFork _ _ _ => .jobFork
  | .jobSignal _ _ _ _ => .jobSignal
  | .jobFinish _ _ _ _ _ => .jobFinish
  | .jobPendSusp _ _ => .jobPendSusp
  | .jobPendResume _ _ => .jobPendResume
  | .jobSusp _ _ => .jobSusp
  | .jobMove _ _ _ _ => .jobMove
  | .jobPriority _ _ _ _ => .jobPriority
  | .jobPend _ _ => .jobPend

def Event.time : Event → Time
  | .jobNew e => e.submitTime
  | .jobStart e => e.dispatchTime
  | .jobFork _ _ time | .jobSignal _ _ _ time | .jobFinish _ _ _ _ time => time
  | .jobPendSusp _ time | .jobPendResume _ time | .jobSusp _ time | .jobPend _ time => time
  | .jobMove _ time _ _ | .jobPriority _ time _ _ => time

def Event.numbers : Event → List Int
  | .jobNew e => e.numbers
  | .jobStart e => e.numbers
  | .jobFork j pid _ => [j, pid]
  | .jobSignal j sig uid _ => [j, sig, uid]
  | .jobFinish j uid state exitStatus endTime => [j, uid, state.code, exitStatus, endTime]
  | .jobPendSusp j _ | .jobPendResume j _ | .jobSusp j _ | .jobPend j _ | .jobMove j _ _ _ => [j]
  | .jobPriority j _ old new => [j, old, new]

def Event.texts : Event → List String
  | .jobNew e => e.texts
  | .jobStart e => e.texts
  | .jobMove _ _ fromQueue toQueue => [fromQueue, toQueue]
  | _ => []

theorem writeEvent_eq (e : Event) : writeEvent e = writeRecord e.type e.time e.numbers e.texts := by
  cases e <;> rfl

def EventType.kinds : EventType → List NumKind
  | .jobNew => jobNewKinds
  | .jobStart => jobStartKinds
  | .jobFork => [.long, .int]
  | .jobSignal => [.long, .int, .uint]
  | .jobFinish => [.long, .uint, .int, .int, .long]
  | .jobPriority => [.long, .int, .int]
  | .jobPendSusp | .jobPendResume | .jobSusp | .jobPend | .jobMove => [.long]

def EventType.sizes : EventType → List Nat
  | .jobNew => jobNewSizes
  | .jobStart => jobStartSizes
  | .jobMove => [64, 64]
  | _ => []

/-- The record is a structure the C program can hold. -/
structure Typed (e : Event) : Prop where
  clock : NumKind.long.Fits e.time
  numbers : ∀ field ∈ e.type.kinds.zip e.numbers, field.1.Fits field.2
  texts : ∀ field ∈ e.type.sizes.zip e.texts, field.2.toList.length < field.1

def HostsSplit : Event → Prop
  | .jobStart start => strtok isHostSep (hostsText start.hosts) = start.hosts
  | _ => True

/-- The record is read back: no text breaks its quotes or its line, and the line fits. -/
structure Plain (e : Event) : Prop where
  typed : Typed e
  unbroken : ∀ text ∈ e.texts, Unbroken text
  short : (writeEvent e).length < 4096
  hosts : HostsSplit e

instance decidableHostsSplit (e : Event) : Decidable (HostsSplit e) :=
  match e with
  | .jobStart start => inferInstanceAs (Decidable (strtok isHostSep (hostsText start.hosts) = start.hosts))
  | .jobNew _ | .jobFork _ _ _ | .jobSignal _ _ _ _ | .jobFinish _ _ _ _ _ | .jobPendSusp _ _
  | .jobPendResume _ _ | .jobSusp _ _ | .jobMove _ _ _ _ | .jobPriority _ _ _ _
  | .jobPend _ _ => isTrue trivial

instance decidableTyped (e : Event) : Decidable (Typed e) :=
  decidable_of_iff (NumKind.long.Fits e.time ∧
      (∀ field ∈ e.type.kinds.zip e.numbers, field.1.Fits field.2) ∧
      ∀ field ∈ e.type.sizes.zip e.texts, field.2.toList.length < field.1)
    ⟨fun ⟨clock, numbers, texts⟩ => ⟨clock, numbers, texts⟩,
      fun typed => ⟨typed.clock, typed.numbers, typed.texts⟩⟩

instance decidablePlain (e : Event) : Decidable (Plain e) :=
  decidable_of_iff (Typed e ∧ (∀ text ∈ e.texts, Unbroken text) ∧ (writeEvent e).length < 4096 ∧
      HostsSplit e)
    ⟨fun ⟨typed, unbroken, short, hosts⟩ => ⟨typed, unbroken, short, hosts⟩,
      fun plain => ⟨plain.typed, plain.unbroken, plain.short, plain.hosts⟩⟩

theorem JobState.ofCode_code (state : JobState) : JobState.ofCode state.code = state := by
  cases state <;> rfl

theorem JobFlags.ofBits_bits (flags : JobFlags) : JobFlags.ofBits flags.bits = flags := by
  obtain ⟨exclusive, hold, array⟩ := flags
  cases exclusive <;> cases hold <;> cases array <;> rfl

variable {e : Event}

def Event.header (e : Event) : EventRec :=
  { version := 1
    type := some e.type
    eventTime := e.time
    rest := writeNumbers e.numbers ++ (e.texts.flatMap writeQstr ++ ['\n']) }

theorem Typed.forall₂ (typed : Typed e) : List.Forall₂ NumKind.Fits e.type.kinds e.numbers := by
  refine List.forall₂_iff_zip.mpr ⟨?_, fun {k v} member => typed.numbers (k, v) member⟩
  cases e <;> rfl

theorem Plain.texts_forall₂ (plain : Plain e) :
    List.Forall₂ (fun size text => '"' ∉ String.toList text ∧ text.toList.length < size)
      e.type.sizes e.texts := by
  refine List.forall₂_iff_zip.mpr ⟨?_, fun {size text} member => ⟨fun quote => ?_, ?_⟩⟩
  · cases e <;> rfl
  · exact (plain.unbroken text (of_mem_zip member).2 '"' quote).1 rfl
  · exact plain.typed.texts (size, text) member

theorem Plain.readPayload (plain : Plain e) :
    Batch.readPayload e.type.kinds e.type.sizes e.header = some (e.numbers, e.texts) :=
  readPayload_record [] plain.typed.forall₂ plain.texts_forall₂ rfl (Or.inl rfl)

theorem Plain.parseEvent (plain : Plain e) : Batch.parseEvent e.header = some e := by
  have payload := plain.readPayload
  cases e with
  | jobNew e =>
    have read : Batch.readPayload jobNewKinds jobNewSizes (Event.jobNew e).header =
      some (e.numbers, e.texts) := payload
    show (logParseJobNew (Event.jobNew e).header).map Event.jobNew = _
    rw [logParseJobNew, read]
    simp only [LogJobNew.numbers, LogJobNew.texts, bind_eq_bind, bind_some,
      map_some, Int.toNat_natCast, JobState.ofCode_code, JobFlags.ofBits_bits,
      Event.header, Event.time]
  | jobStart e =>
    have read : Batch.readPayload jobStartKinds jobStartSizes (Event.jobStart e).header =
      some (e.numbers, e.texts) := payload
    have hosts : strtok isHostSep (hostsText e.hosts) = e.hosts := plain.hosts
    show (logParseJobStart (Event.jobStart e).header).map Event.jobStart = _
    rw [logParseJobStart, read]
    simp only [LogJobStart.numbers, LogJobStart.texts, bind_eq_bind, bind_some,
      map_some, hosts, Event.header, Event.time]
  | jobFork j pid time =>
    have read : Batch.readPayload [.long, .int] [] (Event.jobFork j pid time).header =
      some ([j, pid], []) := payload
    show logParseJobFork (Event.jobFork j pid time).header = _
    rw [logParseJobFork, read]
    rfl
  | jobSignal j sig uid time =>
    have read : Batch.readPayload [.long, .int, .uint] [] (Event.jobSignal j sig uid time).header =
      some ([j, sig, (uid : Int)], []) := payload
    show logParseJobSignal (Event.jobSignal j sig uid time).header = _
    rw [logParseJobSignal, read]
    rfl
  | jobFinish j uid state exitStatus time =>
    -- the last number of the line is left unread
    have fits : List.Forall₂ NumKind.Fits [.long, .uint, .int, .int]
        [j, (uid : Int), state.code, exitStatus] := by
      have all := plain.typed.forall₂
      simp only [Event.type, EventType.kinds, Event.numbers, List.forall₂_cons] at all ⊢
      exact ⟨all.1, all.2.1, all.2.2.1, all.2.2.2.1, .nil⟩
    have read : Batch.readPayload [.long, .uint, .int, .int] []
        (Event.jobFinish j uid state exitStatus time).header =
          some ([j, (uid : Int), state.code, exitStatus], []) := by
      refine readPayload_record [time] fits .nil ?_ (Or.inr rfl)
      simp [Event.header, Event.numbers, Event.texts, writeNumbers]
    show logParseJobFinish (Event.jobFinish j uid state exitStatus time).header = _
    rw [logParseJobFinish, read]
    simp only [Int.toNat_natCast, JobState.ofCode_code, Event.header, Event.time]
  | jobMove j time fromQueue toQueue =>
    have read : Batch.readPayload [.long] [64, 64] (Event.jobMove j time fromQueue toQueue).header =
      some ([j], [fromQueue, toQueue]) := payload
    show logParseJobMove (Event.jobMove j time fromQueue toQueue).header = _
    rw [logParseJobMove, read]
    rfl
  | jobPriority j time old new =>
    have read : Batch.readPayload [.long, .int, .int] [] (Event.jobPriority j time old new).header =
      some ([j, old, new], []) := payload
    show logParseJobPriority (Event.jobPriority j time old new).header = _
    rw [logParseJobPriority, read]
    rfl
  | jobPendSusp j time | jobPendResume j time | jobSusp j time | jobPend j time =>
    simp only [Event.type, EventType.kinds, EventType.sizes, Event.numbers, Event.texts] at payload
    simp only [Batch.parseEvent, Event.header, Event.type, logParseChange] at payload ⊢
    rw [show Batch.readPayload [.long] [] _ = some ([j], []) from payload]
    rfl

theorem Plain.logReadHdr (plain : Plain e) (file : List Char) :
    Batch.logReadHdr (writeEvent e ++ file) = some (e.header, file) := by
  have short := plain.short
  rw [writeEvent_eq] at short ⊢
  exact logReadHdr_record plain.typed.clock
    (fun text member newline => (plain.unbroken text member _ newline).2 rfl) short file

/-! ### Files -/

variable {file : List Char} {header : EventRec}

theorem logReadHdr_shorter (read : logReadHdr file = some (header, rest)) :
    rest.length < file.length := by
  obtain ⟨⟨line, after⟩, got, read⟩ := bind_eq_some_iff.mp read
  obtain ⟨found, _, read⟩ := bind_eq_some_iff.mp read
  cases read
  unfold fgets at got
  split at got
  · cases got
  · next filled =>
    have taken := congrArg Prod.snd (Option.some.inj got)
    have shorter : (takeLine (4096 - 1) file).2.length < file.length :=
      length_takeLine_lt (by simpa using filled) (by decide)
    rw [taken] at shorter
    exact shorter

theorem readLines_fuel {fuel more : Nat} (enough : file.length ≤ fuel)
    (enough' : file.length ≤ more) : readLines fuel file = readLines more file := by
  induction fuel generalizing more file with
  | zero =>
    have empty : logReadHdr file = none := by
      rw [eq_nil_of_length_eq_zero (Nat.le_zero.mp enough)]
      rfl
    cases more <;> simp [readLines, empty]
  | succ fuel ih =>
    cases read : logReadHdr file with
    | none => cases more <;> simp [readLines, read]
    | some found =>
      obtain ⟨header, rest⟩ := found
      have shorter := logReadHdr_shorter read
      cases more with
      | zero => omega
      | succ more =>
        have same : readLines fuel rest = readLines more rest := ih (by omega) (by omega)
        simp only [readLines, read, same]

theorem readAll_cons (read : logReadHdr file = some (header, rest)) :
    readAll file = parseEvent header :: readAll rest := by
  have shorter := logReadHdr_shorter read
  obtain ⟨n, length⟩ : ∃ n, file.length = n + 1 := ⟨file.length - 1, by omega⟩
  rw [readAll, length, readLines, read]
  have same : readLines n rest = readLines rest.length rest :=
    readLines_fuel (by omega) (Nat.le_refl _)
  simp only [same]
  rfl

theorem readAll_stop (stops : logReadHdr file = none) : readAll file = [] := by
  rw [readAll]
  cases file.length <;> simp [readLines, stops]

theorem readAll_manifestText {records : List Event} (plain : ∀ e ∈ records, Plain e)
    (file : List Char) :
    readAll (manifestText records ++ file) = records.map some ++ readAll file := by
  induction records with
  | nil => rfl
  | cons e records ih =>
    have first := plain e mem_cons_self
    have others := ih fun e' member => plain e' (mem_cons_of_mem e member)
    have split : manifestText (e :: records) ++ file =
        writeEvent e ++ (manifestText records ++ file) := by
      simp [manifestText]
    rw [split, readAll_cons (first.logReadHdr _), first.parseEvent, others]
    rfl

theorem readAll_nil : readAll [] = [] :=
  rfl

theorem reduceOption_map_some (records : List Event) :
    (records.map some).reduceOption = records := by
  change filterMap id (records.map some) = records
  rw [filterMap_map]
  exact filterMap_some

theorem readManifest_manifestText {records : List Event} (plain : ∀ e ∈ records, Plain e) :
    readManifest (manifestText records) = records := by
  have all := readAll_manifestText plain []
  rw [append_nil, readAll_nil, append_nil] at all
  rw [readManifest, all]
  exact reduceOption_map_some records

end LavaLite.Batch
