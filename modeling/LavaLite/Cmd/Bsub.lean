import LavaLite.Batch.Wire

/-
bsub: from the options of the command line to the message sent to mbd.  The
files of the job, its comment and its command only go to the sidecar and are
left out.
-/

namespace LavaLite.Cmd

open Base Batch Option

/-- What `getopt_long` hands over; the times are the results of `parse_time_arg`. -/
inductive BsubOption where
  | queue (arg : String)
  | name (arg : String)
  | project (arg : String)
  | cpus (arg : String)
  | nhosts (arg : String)
  | mem (arg : String)
  | storage (arg : String)
  | gpus (arg : String)
  | gpuModel (arg : String)
  | tokens (arg : String)
  | exclusive
  | machines (arg : String)
  | hold
  | array (arg : String)
  | begin (arg : String) (time : Option Time)
  | terminate (arg : String) (time : Option Time)
  | dependency (arg : String)
  deriving DecidableEq, Repr

/-- `struct job_submit`; a null pointer is `none`. -/
structure JobSubmit where
  name : Option String
  queue : Option String
  machines : Option String
  gpuModel : Option String
  dependCond : Option String
  project : Option String
  numCpus : Int
  numHosts : Int
  numGpus : Int
  memMb : Nat
  storageMb : Nat
  tokenpool : Option String
  beginTime : Time
  termTime : Time
  flags : JobFlags
  arrayStart : Int
  arrayEnd : Int
  arrayStride : Int
  deriving DecidableEq, Repr

def JobSubmit.empty : JobSubmit :=
  { name := none
    queue := none
    machines := none
    gpuModel := none
    dependCond := none
    project := none
    numCpus := 0
    numHosts := 0
    numGpus := 0
    memMb := 0
    storageMb := 0
    tokenpool := none
    beginTime := 0
    termTime := 0
    flags := JobFlags.none
    arrayStart := 0
    arrayEnd := 0
    arrayStride := 0 }

/-! ### Arguments -/

/-- `strtol(arg, &end, 10)`: the value and the text at `end`. -/
def strtolEnd (arg : List Char) : Int × List Char :=
  match strtol arg with
  | none => (0, arg)
  | some (v, _, rest) => (v, rest)

/-- A number of at least `least` with nothing behind it, cast to `int32_t`. -/
def countArg (least : Int) (arg : List Char) : Option Int :=
  let (v, rest) := strtolEnd arg
  if rest ≠ [] ∨ v < least then none else some (toInt32 v)

/-- `strtoull(arg, &end, 10)`; `none` when no digit was read. -/
def strtoull (arg : List Char) : Option (Nat × List Char) :=
  let number (negative : Bool) (digits : List Char) :=
    match digits with
    | [] => none
    | c :: _ =>
      if c.isDigit then
        let (value, rest) := digitsValue 0 digits
        if u64Modulus ≤ value then some (u64Modulus - 1, rest)
        else if negative then some ((u64Modulus - value) % u64Modulus, rest)
        else some (value, rest)
      else none
  match skipWs arg with
  | '-' :: digits => number true digits
  | '+' :: digits => number false digits
  | digits => number false digits

def parseMem (arg : String) : Option Nat :=
  match strtoull arg.toList with
  | none => none
  | some (v, []) => some v
  | some (v, 'M' :: _) => some v
  | some (v, 'G' :: _) => some (v * 1024 % u64Modulus)
  | some _ => none

def scanInt (s : List Char) : Option (Int × List Char) :=
  (strtol s).map fun (v, _, rest) => (toInt32 v, rest)

/-- Start, end and stride. -/
def llbParseArray (spec : String) : Option (Int × Int × Int) := do
  let (first, rest) ← scanInt spec.toList
  let rest ← match rest with
    | '-' :: rest => some rest
    | _ => none
  let (last, rest) ← scanInt rest
  if ':' ∈ spec.toList then
    let rest ← match rest with
      | ':' :: rest => some rest
      | _ => none
    let (stride, rest) ← scanInt rest
    if rest ≠ [] ∨ first < 1 ∨ first > last ∨ stride < 1 then none else some (first, last, stride)
  else if rest ≠ [] ∨ first < 1 ∨ first > last then none
  else some (first, last, 1)

theorem llbParseArray_range {spec : String} {first last stride : Int}
    (parsed : llbParseArray spec = some (first, last, stride)) :
    1 ≤ first ∧ first ≤ last ∧ 0 < stride := by
  unfold llbParseArray at parsed
  simp only [bind_eq_bind, bind_eq_some_iff] at parsed
  obtain ⟨_, _, parsed⟩ := parsed
  split at parsed
  · simp only [bind_some, bind_eq_some_iff] at parsed
    obtain ⟨_, _, parsed⟩ := parsed
    split at parsed
    · split at parsed
      · simp only [bind_eq_some_iff] at parsed
        obtain ⟨_, _, parsed⟩ := parsed
        split at parsed
        · cases parsed
        · cases parsed
          omega
      · cases parsed
    · split at parsed
      · cases parsed
      · cases parsed
        omega
  · cases parsed

/-- The check of `--tokens`: a name, `=` and a positive number. -/
def tokensArgOk (arg : String) : Bool :=
  match arg.toList.span (· ≠ '=') with
  | ([], _) => false
  | (_, []) => false
  | (_, _ :: value) => (countArg 1 value).isSome

def appendTokens (tokenpool : Option String) (arg : String) : String :=
  match tokenpool with
  | none => arg
  | some prev => prev ++ "," ++ arg

def countMachines (machines : String) : Int :=
  (strtok (fun c => c = ',' || c = ' ') machines).length

/-! ### The command -/

def invalidValue (option what arg : String) : String :=
  "bsub: " ++ option ++ ": invalid " ++ what ++ " '" ++ arg ++ "'\n"

/-- One round of the option loop of `main`. -/
def readOption (js : JobSubmit) : BsubOption → Except String JobSubmit
  | .queue arg => .ok { js with queue := some arg }
  | .name arg => .ok { js with name := some arg }
  | .project arg => .ok { js with project := some arg }
  | .cpus arg =>
    match countArg 1 arg.toList with
    | none => .error (invalidValue "--cpus" "value" arg)
    | some v => .ok { js with numCpus := v }
  | .nhosts arg =>
    match countArg 1 arg.toList with
    | none => .error (invalidValue "--nhosts" "value" arg)
    | some v => .ok { js with numHosts := v }
  | .mem arg =>
    match parseMem arg with
    | none => .error (invalidValue "--mem" "value" arg)
    | some v => .ok { js with memMb := v }
  | .storage arg =>
    match parseMem arg with
    | none => .error (invalidValue "--storage" "value" arg)
    | some v => .ok { js with storageMb := v }
  | .gpus arg =>
    match countArg 0 arg.toList with
    | none => .error (invalidValue "--gpus" "value" arg)
    | some v => .ok { js with numGpus := v }
  | .gpuModel arg => .ok { js with gpuModel := some arg }
  | .tokens arg =>
    if tokensArgOk arg then .ok { js with tokenpool := some (appendTokens js.tokenpool arg) }
    else if '=' ∈ arg.toList ∧ arg.toList.head? ≠ some '=' then
      .error ("bsub: --tokens: invalid count in '" ++ arg ++ "'\n")
    else .error ("bsub: --tokens: invalid format '" ++ arg ++ "', expected name=N\n")
  | .exclusive => .ok { js with flags := { js.flags with exclusive := true } }
  | .machines arg => .ok { js with machines := some arg }
  | .hold => .ok { js with flags := { js.flags with hold := true } }
  | .array arg =>
    match llbParseArray arg with
    | none => .error (invalidValue "--array" "spec" arg)
    | some (first, last, stride) =>
      .ok { js with
        arrayStart := first
        arrayEnd := last
        arrayStride := stride
        flags := { js.flags with array := true } }
  | .begin arg time =>
    match time with
    | none => .error (invalidValue "--begin" "time" arg)
    | some t => .ok { js with beginTime := t }
  | .terminate arg time =>
    match time with
    | none => .error (invalidValue "--terminate" "time" arg)
    | some t => .ok { js with termTime := t }
  | .dependency arg =>
    match depParse none arg with
    | .error _ => .error (invalidValue "--dependency" "expression" arg)
    | .ok _ => .ok { js with dependCond := some arg }

def countHosts (js : JobSubmit) : JobSubmit :=
  match js.machines with
  | none => js
  | some machines => { js with numHosts := countMachines machines }

/-- The checks of `main` behind the option loop. -/
def checkOptions (js : JobSubmit) : Except String JobSubmit :=
  if js.numHosts > 0 ∧ js.machines.isSome then
    .error "bsub: --nhosts and --machines are mutually exclusive\n"
  else if js.gpuModel.isSome ∧ js.numGpus = 0 then
    .error "bsub: --gpu-model requires --gpus\n"
  else if js.beginTime > 0 ∧ js.termTime > 0 ∧ js.beginTime ≥ js.termTime then
    .error "bsub: --begin must be before --terminate\n"
  else .ok (countHosts js)

/-- `ll_strlcpy` of an option that may be missing into a cleared array. -/
def copyOption (size : Nat) (arg : Option String) : String :=
  strlcpy size (arg.getD "")

/-- `fill_wire`, for a user whose `passwd` entry has this name. -/
def fillWire (js : JobSubmit) (username : String) : WireJobSubmit :=
  { name := copyOption 256 js.name
    queue := copyOption 256 js.queue
    project := copyOption 64 js.project
    machines := copyOption 4096 js.machines
    dependCond := copyOption 4096 js.dependCond
    gpuModel := copyOption 256 js.gpuModel
    username := strlcpy 256 username
    numCpus := if js.numCpus = 0 then 1 else js.numCpus
    numHosts := if js.numHosts = 0 then 1 else js.numHosts
    numGpus := js.numGpus
    memMb := js.memMb
    storageMb := js.storageMb
    tokenpool := copyOption 256 js.tokenpool
    flags := js.flags
    beginTime := js.beginTime
    termTime := js.termTime
    arrayStart := js.arrayStart
    arrayEnd := js.arrayEnd
    arrayStride := js.arrayStride
    dependCond_fits := length_strlcpy_lt _ (by decide) }

/-- `main` up to the message: what is sent for a list of options, or the error. -/
def bsub (options : List BsubOption) (username : String) : Except String WireJobSubmit := do
  let js ← options.foldlM readOption JobSubmit.empty
  let js ← checkOptions js
  .ok (fillWire js username)

/-! ### CPU counts -/

def CpusFit (options : List BsubOption) : Prop :=
  ∀ arg, .cpus arg ∈ options → (strtolEnd arg.toList).1 ≤ intMax

theorem countArg_of_fits {least v : Int} {arg : List Char} (positive : 0 ≤ least)
    (fits : (strtolEnd arg).1 ≤ intMax) (counted : countArg least arg = some v) : least ≤ v := by
  simp only [countArg] at counted
  split at counted
  · cases counted
  · next ok =>
    obtain rfl := Option.some.inj counted
    have lower : least ≤ (strtolEnd arg).1 := Int.not_lt.mp fun below => ok (.inr below)
    rw [toInt32_of_fits (by unfold intMin; omega) fits]
    exact lower

variable {js js' : JobSubmit} {options : List BsubOption}

theorem readOption_numCpus {option : BsubOption}
    (fits : ∀ arg, option = .cpus arg → (strtolEnd arg.toList).1 ≤ intMax)
    (read : readOption js option = .ok js') (before : 0 ≤ js.numCpus) : 0 ≤ js'.numCpus := by
  cases option with
  | cpus arg =>
    simp only [readOption] at read
    split at read
    · cases read
    · next v counted =>
      cases read
      have least := countArg_of_fits (by decide) (fits arg rfl) counted
      exact Int.le_trans (by decide) least
  | tokens arg =>
    simp only [readOption] at read
    split at read
    · cases read
      exact before
    · split at read <;> cases read
  | nhosts | mem | storage | gpus | array | begin | terminate | dependency =>
    simp only [readOption] at read
    split at read
    · cases read
    · cases read
      exact before
  | _ =>
    cases read
    exact before

theorem readOptions_numCpus (fits : CpusFit options) (read : options.foldlM readOption js = .ok js')
    (before : 0 ≤ js.numCpus) : 0 ≤ js'.numCpus := by
  induction options generalizing js js' with
  | nil =>
    cases read
    exact before
  | cons option rest ih =>
    rw [List.foldlM_cons] at read
    cases one : readOption js option with
    | error message =>
      rw [one] at read
      cases read
    | ok next =>
      rw [one] at read
      have after := readOption_numCpus
        (fun arg is => fits arg (is ▸ List.mem_cons_self)) one before
      exact ih (fun arg member => fits arg (List.mem_cons_of_mem option member)) read after

theorem checkOptions_numCpus (checked : checkOptions js = .ok js') : js'.numCpus = js.numCpus := by
  unfold checkOptions at checked
  split at checked
  · cases checked
  · split at checked
    · cases checked
    · split at checked
      · cases checked
      · cases checked
        unfold countHosts
        split <;> rfl

/-- bsub asks for at least one CPU, unless a value was cut to 32 bits. -/
theorem bsub_numCpus {username : String} {ws : WireJobSubmit} (fits : CpusFit options)
    (sent : bsub options username = .ok ws) : 1 ≤ ws.numCpus := by
  simp only [bsub, bind, Except.bind] at sent
  split at sent
  · cases sent
  · next js read =>
    have filled := readOptions_numCpus fits read (Int.le_refl 0)
    split at sent
    · cases sent
    · next js' checked =>
      cases sent
      rw [← checkOptions_numCpus checked] at filled
      simp only [fillWire]
      split <;> omega

end LavaLite.Cmd
