import LavaLite.Batch.LogDamage
import LavaLite.Mbd.Compaction

/-
Whether the records mbd writes are read back when it is started again: the record
of a submission, with texts of the user in it, and the record of a dispatch, with
the hosts of the plan in it.
-/

namespace LavaLite.Mbd

open Base Batch List Option

/-! ### Submissions -/

/-- The record is one line, that line is read whole, and its fields come back. -/
structure RoundTrips (e : LogJobNew) : Prop where
  oneLine : (logWriteJobNew e).count '\n' = 1
  parsed : ∃ header, (∀ file, logReadHdr (logWriteJobNew e ++ file) = some (header, file)) ∧
    logParseJobNew header = some e

variable {e : LogJobNew} {header : EventRec}

theorem logParseJobNew_unquoted (parsed : logParseJobNew header = some e) :
    ∀ text ∈ e.texts, '"' ∉ text.toList := by
  obtain ⟨⟨numbers, texts⟩, payload, parsed⟩ := bind_eq_some_iff.mp parsed
  obtain ⟨⟨values, p⟩, _, payload⟩ := bind_eq_some_iff.mp payload
  obtain ⟨⟨read, p'⟩, quoted, payload⟩ := bind_eq_some_iff.mp payload
  cases payload
  have unquoted := readQstrs_unquoted quoted
  dsimp only at parsed
  split at parsed
  · cases parsed
    exact unquoted
  · cases parsed

theorem count_newline_writeRecord (type : EventType) (time : Time) (numbers : List Int)
    (texts : List String) :
    (writeRecord type time numbers texts).count '\n' = 1 ↔ ∀ text ∈ texts, '\n' ∉ text.toList := by
  rw [writeRecord_eq, count_append, count_singleton_self, Nat.add_eq_right,
    count_eq_zero, newline_mem_recordBody]
  simp only [not_exists, not_and]

theorem length_le_of_logReadHdr {line : List Char}
    (read : ∀ file, logReadHdr (line ++ file) = some (header, file)) : line.length ≤ 4095 := by
  have read := read []
  rw [append_nil] at read
  have filled : line ≠ [] := by
    rintro rfl
    cases read
  rw [logReadHdr_of_takeLine filled rfl] at read
  obtain ⟨_, _, same⟩ := map_eq_some_iff.mp read
  have nothing : (takeLine 4095 line).2 = [] := congrArg Prod.snd same
  have whole := takeLine_append 4095 line
  rw [nothing, append_nil] at whole
  have bound := length_takeLine_le 4095 line
  rw [whole] at bound
  exact bound

theorem roundTrips_iff (typed : Typed (.jobNew e)) :
    RoundTrips e ↔ (∀ text ∈ e.texts, Unbroken text) ∧ (logWriteJobNew e).length < 4096 := by
  constructor
  · intro trip
    obtain ⟨header, read, parsed⟩ := trip.parsed
    constructor
    · intro text member c inText
      constructor
      · rintro rfl
        exact logParseJobNew_unquoted parsed text member inText
      · rintro rfl
        exact (count_newline_writeRecord _ _ _ _).mp trip.oneLine text member inText
    · exact Nat.lt_succ_of_le (length_le_of_logReadHdr read)
  · rintro ⟨unbroken, short⟩
    have plain : Plain (.jobNew e) := ⟨typed, unbroken, short, trivial⟩
    constructor
    · apply (count_newline_writeRecord _ _ _ _).mpr
      intro text member newline
      exact (unbroken text member _ newline).2 rfl
    · refine ⟨(Event.jobNew e).header, plain.logReadHdr, ?_⟩
      have parsed : (logParseJobNew (Event.jobNew e).header).map Event.jobNew = some (.jobNew e) :=
        plain.parseEvent
      obtain ⟨found, read, same⟩ := map_eq_some_iff.mp parsed
      cases same
      exact read

def submittedTexts (ws : WireJobSubmit) : List String :=
  [strlcpy 64 ws.username, strlcpy 64 ws.name, strlcpy 64 ws.queue, strlcpy 64 ws.project,
    strlcpy 64 ws.gpuModel, strlcpy 1024 ws.machines, strlcpy 256 ws.tokenpool,
    strlcpy 4096 ws.dependCond]

variable {m m' : MbdState} {ws : WireJobSubmit} {jobs : List JobData} {conf : Conf}
  {env : SubmitEnv} {uid gid : Nat}

theorem jobRegister_manifest {request : WireJobSubmit} {id : JobId}
    (done : jobRegister conf env m uid gid request = some (m', .ok id)) :
    ∃ records : List LogJobNew, records ≠ [] ∧
      (∀ e ∈ records, e.texts = submittedTexts (normalizeSubmit conf request)) ∧
      m'.manifest = m.manifest ++ records.map Event.jobNew := by
  rcases jobRegister_inversion done with ⟨_, _, _, _, failed⟩ |
    ⟨first, last, stride, seq, jobs, m₂, spans, loop, _, committed, rfl, _⟩
  · cases failed
  · -- the first index is in the range, so that the loop prepares at least one job
    obtain ⟨index, past, filled⟩ := (prepareLoop_induction
      (fun index _ prepared => index ≤ last ∨ prepared ≠ []) (fun _ _ _ _ => .inr (cons_ne_nil _ _))
      (.inl spans.ordered) loop).2 jobs rfl
    have made : ∀ job, ∃ e : LogJobNew, e.texts = submittedTexts (normalizeSubmit conf request) ∧
        eventJobNew job (normalizeSubmit conf request) = .jobNew e := fun _ => ⟨_, rfl, rfl⟩
    choose record texts same using made
    refine ⟨jobs.map record, ?_, ?_, ?_⟩
    · simpa using filled.resolve_left (Int.not_le.mpr past)
    · intro e member
      obtain ⟨job, _, rfl⟩ := mem_map.mp member
      exact texts job
    · rw [List.map_map]
      exact (jobCommitPrepared_adds committed).1.trans
        (congrArg _ (map_congr_left fun job _ => same job))

/-! ### Starts -/

/--
Host names are what the resolver knows hosts by, and GPU models are words of the
configuration: no blank, comma, quote or newline.
-/
structure PlainNames (conf : Conf) : Prop where
  hosts : ∀ h ∈ conf.hosts, h.name.toList ≠ [] ∧
    ∀ c ∈ h.name.toList, isHostSep c = false ∧ c ≠ '"' ∧ c ≠ '\n'
  models : ∀ h ∈ conf.hosts, Unbroken h.gpuModel

theorem unbroken_ofList {text : List Char} :
    Unbroken (String.ofList text) ↔ ∀ c ∈ text, c ≠ '"' ∧ c ≠ '\n' := by
  rw [Unbroken, String.toList_ofList]

theorem unbroken_strlcpy {text : String} (unbroken : Unbroken text) (size : Nat) :
    Unbroken (strlcpy size text) :=
  unbroken_ofList.mpr fun c member => unbroken c (mem_of_mem_take member)

theorem unbroken_strlcat {a b : String} (first : Unbroken a) (second : Unbroken b) (size : Nat) :
    Unbroken (strlcat size a b) := by
  apply unbroken_ofList.mpr
  intro c member
  rcases mem_append.mp (mem_of_mem_take member) with inFirst | inSecond
  · exact first c inFirst
  · exact second c inSecond

theorem unbroken_decimalText (v : Int) : Unbroken (decimalText v) := by
  apply unbroken_ofList.mpr
  intro c member
  rcases mem_decimalDigits member with rfl | digit
  · decide
  · constructor
    · rintro rfl
      exact absurd digit (by decide)
    · rintro rfl
      exact absurd digit (by decide)

theorem unbroken_empty : Unbroken "" := by
  unfold Unbroken
  simp

theorem unbroken_foldl {α : Type} {size : Nat} {sep : String} {text : α → String}
    (between : Unbroken sep) {items : List α} {start : String} (unbroken : Unbroken start)
    (each : ∀ x ∈ items, Unbroken (text x)) :
    Unbroken (items.foldl (fun all x => strlcat size (strlcat size all sep) (text x)) start) := by
  induction items generalizing start with
  | nil => exact unbroken
  | cons x items ih =>
    apply ih
    · exact unbroken_strlcat (unbroken_strlcat unbroken between size)
        (each x mem_cons_self) size
    · exact fun y member => each y (mem_cons_of_mem x member)

theorem unbroken_gpuAssignedText (size : Nat) (ids : List Int) :
    Unbroken (gpuAssignedText size ids) := by
  cases ids with
  | nil => exact unbroken_empty
  | cons id ids =>
    apply unbroken_foldl (by decide)
    · exact unbroken_strlcat unbroken_empty (unbroken_decimalText id) size
    · exact fun id _ => unbroken_decimalText id

theorem unbroken_hostsText {hosts : List HostName} (plain : ∀ h ∈ hosts, Unbroken h) :
    Unbroken (hostsText hosts) := by
  cases hosts with
  | nil => exact unbroken_empty
  | cons first rest =>
    apply unbroken_foldl (by decide)
    · exact unbroken_strlcat unbroken_empty (plain first mem_cons_self) 4096
    · exact fun h member => plain h (mem_cons_of_mem first member)

theorem take_take_append (n : Nat) (a b : List Char) : (a.take n ++ b).take n = (a ++ b).take n := by
  rw [take_append, take_append, take_take, Nat.min_self, length_take]
  congr 2
  omega

theorem toList_hostsText (hosts : List HostName) :
    (hostsText hosts).toList = ([' '].intercalate (hosts.map String.toList)).take 4095 := by
  cases hosts with
  | nil => rfl
  | cons first rest =>
    suffices folded : ∀ (text : String) (whole : List Char), text.toList = whole.take 4095 →
        (rest.foldl (fun text h => strlcat 4096 (strlcat 4096 text " ") h) text).toList =
          (whole ++ rest.flatMap fun h => ' ' :: h.toList).take 4095 by
      have joined : ∀ (first : HostName) (rest : List HostName),
          [' '].intercalate ((first :: rest).map String.toList) =
            first.toList ++ rest.flatMap fun h => ' ' :: h.toList := by
        intro first rest
        induction rest generalizing first with
        | nil => simp
        | cons h rest ih =>
          rw [map_cons, map_cons, intercalate_cons_cons, ← map_cons, ih]
          simp
      rw [joined]
      exact folded _ first.toList (by simp [strlcat])
    induction rest with
    | nil =>
      intro text whole same
      simpa using same
    | cons h rest ih =>
      intro text whole same
      have cut : (strlcat 4096 (strlcat 4096 text " ") h).toList =
          (whole ++ ' ' :: h.toList).take 4095 := by
        simp only [strlcat, String.toList_ofList, same, Nat.add_one_sub_one]
        rw [take_take_append, append_assoc, take_take_append]
        rfl
      rw [foldl_cons, ih _ _ cut]
      simp

theorem strtok_hostsText {hosts : List HostName}
    (plain : ∀ h ∈ hosts, h.toList ≠ [] ∧ ∀ c ∈ h.toList, isHostSep c = false)
    (fits : (hostsText hosts).toList.length < 4095) :
    strtok isHostSep (hostsText hosts) = hosts := by
  have text := toList_hostsText hosts
  have whole : ([' '].intercalate (hosts.map String.toList)).length ≤ 4095 := by
    rw [text, length_take] at fits
    omega
  rw [take_of_length_le whole] at text
  have tokens : ∀ t ∈ hosts.map String.toList, t ≠ [] ∧ ∀ c ∈ t, isHostSep c = false := by
    intro t member
    obtain ⟨h, inHosts, rfl⟩ := List.mem_map.mp member
    exact plain h inHosts
  rw [strtok, text, strtokAux_intercalate (by decide) tokens, List.map_map]
  exact (map_congr_left fun h _ => String.ofList_toList).trans (List.map_id hosts)

/-! ### Dispatches -/

/--
The start record is read back whatever follows it, and puts the job, as the records
before have left it, on the same hosts in the same order.
-/
def Recovered (conf : Conf) (e : LogJobStart) (replayed : JobData) : Prop :=
  ∀ file, ∃ read : LogJobStart,
    readAll (writeEvent (.jobStart e) ++ file) = some (.jobStart read) :: readAll file ∧
      ∃ started, startJob conf read replayed = some started ∧ started.state = .running ∧
        started.hosts = e.hosts

section Dispatches

variable {e : LogJobStart} {replayed job : JobData} {queue : QueueName}

theorem Recovered.short (recovered : Recovered conf e replayed)
    (unbroken : ∀ text ∈ e.texts, Unbroken text) : (writeEvent (.jobStart e)).length < 4096 := by
  by_contra long
  rw [writeEvent_eq, writeRecord_eq, length_append, length_singleton] at long
  generalize body : recordBody (Event.jobStart e).type (Event.jobStart e).time
    (Event.jobStart e).numbers (Event.jobStart e).texts = line at long
  have one : '\n' ∉ line := by
    rw [← body, newline_mem_recordBody]
    rintro ⟨text, member, newline⟩
    exact (unbroken text member '\n' newline).2 rfl
  have other : '\n' ∉ line.drop 4095 := fun member => one (mem_of_mem_drop member)
  apply readAll_line_ne other
  intro file
  obtain ⟨read, same, _⟩ := recovered file
  have split : writeEvent (.jobStart e) ++ file = line ++ '\n' :: file := by
    rw [writeEvent_eq, writeRecord_eq, body, append_assoc, singleton_append]
  have taken := logReadHdr_of_takeLine (by simp) (takeLine_full ('\n' :: file) one (by omega))
  rw [split] at same
  cases found : scanHdr (line.take 4095) with
  | none =>
    rw [found] at taken
    rw [readAll_stop taken] at same
    cases same
  | some header =>
    rw [found] at taken
    rw [readAll_cons taken] at same
    exact (List.cons.inj same).2

theorem PlainNames.texts {plan : List HostName} {first : HostName} {gpus : List GpuId}
    {text : String} {now : Time} (names : PlainNames conf) (planned : PlanFor conf m job queue plan)
    (isFirst : plan.head? = some first) (assigned : AssignedOn m job first gpus text)
    (devices : Unbroken job.gpuAssigned)
    (record : eventJobStart (dispatchedJob job plan text now) = .jobStart e) :
    e.hosts = plan ∧ (∀ h ∈ plan, h.toList ≠ [] ∧ ∀ c ∈ h.toList, isHostSep c = false) ∧
      ∀ text ∈ e.texts, Unbroken text := by
  have configured : ∀ h ∈ plan, ∃ hc ∈ conf.hosts, hc.name = h ∧
      hostRefusal hc (m.hosts h) job = none := by
    intro h member
    have meets := planned.meets h member
    unfold hostMeetsRequirements at meets
    cases known : conf.findHost h with
    | none => simp [known] at meets
    | some hc =>
      rw [known] at meets
      have name : hc.name = h := by simpa using find?_some known
      exact ⟨hc, mem_of_find?_eq_some known, name, isNone_iff_eq_none.mp meets⟩
  have plainHost : ∀ h ∈ plan, h.toList ≠ [] ∧
      ∀ c ∈ h.toList, isHostSep c = false ∧ c ≠ '"' ∧ c ≠ '\n' := by
    intro h member
    obtain ⟨hc, inConf, rfl, _⟩ := configured h member
    exact names.hosts hc inConf
  have model : Unbroken job.res.gpuModel := by
    obtain ⟨hc, inConf, _, accepted⟩ := configured first (mem_of_mem_head? isFirst)
    by_cases asked : job.res.gpuModel = ""
    · rw [asked]
      exact unbroken_empty
    · have same : hc.gpuModel = job.res.gpuModel := by
        by_contra differs
        unfold hostRefusal at accepted
        rw [if_pos (And.intro asked (Or.inl differs))] at accepted
        split_ifs at accepted
      rw [← same]
      exact names.models hc inConf
  have assignedText : Unbroken text := by
    unfold AssignedOn at assigned
    split at assigned
    · unfold buildGpuAssignedStr at assigned
      split at assigned
      · cases assigned
        exact unbroken_gpuAssignedText 64 _
      · cases assigned
    · rw [assigned.2]
      exact devices
  cases record
  have whole : (dispatchedJob job plan text now).hosts = plan := take_length
  refine ⟨whole, fun h member => ⟨(plainHost h member).1, fun c inName =>
    ((plainHost h member).2 c inName).1⟩, ?_⟩
  intro t member
  simp only [LogJobStart.texts, mem_cons, not_mem_nil, or_false] at member
  rcases member with rfl | rfl | rfl
  · exact unbroken_strlcpy model 64
  · exact unbroken_strlcpy assignedText 64
  · rw [whole]
    exact unbroken_hostsText fun h member c inName => ((plainHost h member).2 c inName).2

theorem recovered_iff (typed : Typed (.jobStart e)) (unbroken : ∀ text ∈ e.texts, Unbroken text)
    (split : ∀ h ∈ e.hosts, h.toList ≠ [] ∧ ∀ c ∈ h.toList, isHostSep c = false)
    (mirrored : MirrorJob replayed job) (pending : job.listId = .pend)
    (ready : job.state = .pending) (ofQueue : job.queue = some queue)
    (members : ∀ h ∈ e.hosts, conf.queueHasHost queue h = true) (nonempty : e.hosts ≠ [])
    (count : (e.hosts.length : Int) = e.nhosts) (asked : e.nhosts = job.res.numHosts) :
    Recovered conf e replayed ↔
      (writeEvent (.jobStart e)).length < 4096 ∧ job.res.numHosts ≤ replayed.res.numHosts := by
  have live : job.state ≠ .orphan := by simp [ready]
  have back (short : (writeEvent (.jobStart e)).length < 4096) : Plain (.jobStart e) := by
    refine ⟨typed, unbroken, short, strtok_hostsText split ?_⟩
    rw [writeEvent_eq, writeRecord_eq] at short
    simp only [recordBody, Event.texts, LogJobStart.texts, flatMap_cons, flatMap_nil,
      writeQstr, length_append, length_cons, length_nil] at short
    omega
  have readBack (plain : Plain (.jobStart e)) (file : List Char) :
      readAll (writeEvent (.jobStart e) ++ file) = some (.jobStart e) :: readAll file := by
    rw [readAll_cons (plain.logReadHdr file), plain.parseEvent]
  constructor
  · intro recovered
    have short := recovered.short unbroken
    refine ⟨short, ?_⟩
    obtain ⟨read, same, started, done, _⟩ := recovered []
    rw [readBack (back short)] at same
    cases same
    rw [← asked]
    exact mirrored.start_room pending live ofQueue members nonempty count done
  · rintro ⟨short, room⟩ file
    refine ⟨e, readBack (back short) file, _, mirrored.started pending live ofQueue members count
      (Int.le_of_eq asked.symm) (asked ▸ room), rfl, ?_⟩
    simp [JobData.hosts]

end Dispatches

end LavaLite.Mbd
