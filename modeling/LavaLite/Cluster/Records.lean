import LavaLite.Cluster.System
import LavaLite.Mbd.Recorded

/-
Which submissions and which plans survive a restart: the texts of a submission and
the hosts of a plan have to come back from one line of the manifest.
-/

namespace LavaLite.Cluster

open Base Batch Mbd List

/-! ### Submissions -/

/--
Every record of an accepted submission comes back exactly when none of the texts of
the request, as far as the record holds them, has a quote or a newline, and its line
fits the buffer.  The numbers are values of their C types.
-/
theorem submission_round_trips {conf : Conf} {env : SubmitEnv} {m m' : MbdState} {uid gid : Nat}
    {request : WireJobSubmit} {id : JobId}
    (accepted : jobRegister conf env m uid gid request = some (m', .ok id)) :
    ∃ records : List LogJobNew, records ≠ [] ∧
      m'.manifest = m.manifest ++ records.map Event.jobNew ∧
      ∀ e ∈ records, Typed (.jobNew e) → (RoundTrips e ↔
          (∀ text ∈ submittedTexts (normalizeSubmit conf request), Unbroken text) ∧
            (logWriteJobNew e).length < 4096) := by
  obtain ⟨records, nonempty, texts, manifest⟩ := jobRegister_manifest accepted
  refine ⟨records, nonempty, manifest, ?_⟩
  intro e member typed
  rw [roundTrips_iff typed, texts e member]

def registered (request : WireJobSubmit) : Option (MbdState × Except Status JobId) :=
  jobRegister smallConf { now := 1, filesOk := fun _ => true, replyOk := true, junk := fun _ => 0 }
    (initial smallConf).mbd 1 1 request

/-- The request is accepted and leaves one record, which passes the check. -/
def leaves (request : WireJobSubmit) (check : LogJobNew → Bool) : Bool :=
  match registered request with
  | some (m, .ok _) =>
    match m.manifest with
    | [.jobNew e] => check e
    | _ => false
  | _ => false

theorem exists_of_leaves {request : WireJobSubmit} {check : LogJobNew → Bool}
    (left : leaves request check = true) :
    ∃ m id e, registered request = some (m, .ok id) ∧ m.manifest = [.jobNew e] ∧
      check e = true := by
  unfold leaves at left
  split at left
  · next m id accepted =>
    split at left
    · next e manifest => exact ⟨m, id, e, accepted, manifest, left⟩
    · cases left
  · cases left

/-- A submission without options comes back. -/
theorem submission_round_trips_plain :
    ∃ m id e, registered plainRequest = some (m, .ok id) ∧ m.manifest = [.jobNew e] ∧
      RoundTrips e := by
  have left : leaves plainRequest (fun e => decide (Typed (.jobNew e)) &&
      decide ((logWriteJobNew e).length < 4096)) = true := by
    decide +kernel
  obtain ⟨m, id, e, accepted, manifest, fits⟩ := exists_of_leaves left
  simp only [Bool.and_eq_true, decide_eq_true_eq] at fits
  refine ⟨m, id, e, accepted, manifest, ?_⟩
  obtain ⟨records, _, appended, each⟩ := submission_round_trips accepted
  have only : [Event.jobNew e] = records.map Event.jobNew := manifest.symm.trans appended
  have member : e ∈ records := by
    obtain ⟨e', inRecords, same⟩ := List.mem_map.mp (only ▸ mem_singleton.mpr rfl)
    cases same
    exact inRecords
  exact (each e member fits.1).mpr ⟨by decide +kernel, fits.2⟩

/-- A name with a quote in it is accepted; the quote ends the name when it is read back. -/
theorem submission_not_round_trips :
    ∃ m id e, registered { plainRequest with name := "a\"b" } = some (m, .ok id) ∧
      m.manifest = [.jobNew e] ∧ Typed (.jobNew e) ∧ ¬ RoundTrips e := by
  have left : leaves { plainRequest with name := "a\"b" } (fun e => decide (Typed (.jobNew e)) &&
      decide (e.jobName = "a\"b")) = true := by
    decide +kernel
  obtain ⟨m, id, e, accepted, manifest, fits⟩ := exists_of_leaves left
  simp only [Bool.and_eq_true, decide_eq_true_eq] at fits
  obtain ⟨typed, name⟩ := fits
  refine ⟨m, id, e, accepted, manifest, typed, ?_⟩
  rw [roundTrips_iff typed]
  rintro ⟨unbroken, _⟩
  have quoted := unbroken e.jobName (by simp [LogJobNew.texts])
  rw [name] at quoted
  exact absurd quoted (by decide)

/-! ### Plans -/

/-- The pending job a plan is made for, and the same job as the manifest has it. -/
structure AwaitsStart (m : MbdState) (j : JobId) (job : JobData) (queue : QueueName)
    (replayed : JobData) : Prop where
  found : m.jobs j = some job
  pending : job.listId = .pend
  ready : job.state = .pending
  ofQueue : job.queue = some queue
  devices : Unbroken job.gpuAssigned
  mirrored : MirrorJob replayed job

/--
The record of a dispatch is read back, with the hosts of the plan in their order,
exactly when its line fits the buffer and the job was recorded with as many hosts as
it runs on.  The test of 8192 bytes that the plan has passed does not imply the first.
-/
theorem plan_recovered {conf : Conf} {m : MbdState} {j : JobId} {job replayed : JobData}
    {queue : QueueName} {plan : List HostName} {now : Time} {freeSlots : Int} {turn : Turn}
    (names : PlainNames conf) (wf : JobWf conf j job) (waits : AwaitsStart m j job queue replayed)
    (built : buildHostPlan conf m job queue = some plan)
    (dispatched : startPlanned conf m now j job queue plan true freeSlots = some turn) :
    ∃ e : LogJobStart, turn.state.manifest = m.manifest ++ [.jobStart e] ∧ e.hosts = plan ∧
      (Typed (.jobStart e) → (Recovered conf e replayed ↔ (writeEvent (.jobStart e)).length < 4096 ∧
          job.res.numHosts ≤ replayed.res.numHosts)) := by
  obtain ⟨first, gpus, text, isFirst, planned, assigned, change⟩ :=
    startPlanned_sent wf waits.found waits.pending built dispatched
  obtain ⟨e, record⟩ : ∃ e, eventJobStart (dispatchedJob job plan text now) = .jobStart e :=
    ⟨_, rfl⟩
  obtain ⟨hosts, split, unbroken⟩ := names.texts planned isFirst assigned waits.devices record
  have nonempty : plan ≠ [] := by
    rintro rfl
    cases isFirst
  have asked : e.nhosts = job.res.numHosts := by
    cases record
    rfl
  rw [record] at change
  refine ⟨e, change.manifest, hosts, fun typed => ?_⟩
  rw [← hosts] at split nonempty
  exact recovered_iff typed unbroken split waits.mirrored waits.pending waits.ready waits.ofQueue
    (hosts ▸ planned.member) nonempty (by rw [hosts, asked]; exact planned.count) asked

/-! ### A row of hosts with long names -/

/-- A name of 63 bytes, the most a host name can have; the row differs in the letters `a`. -/
def rowName (i : Nat) : HostName :=
  String.ofList (List.replicate i 'a' ++ List.replicate (63 - i) 'b')

def rowNames (n : Nat) : List HostName :=
  (List.range n).map rowName

theorem rowNames_nodup (n : Nat) : (rowNames n).Nodup := by
  refine List.Nodup.map (fun i j same => ?_) nodup_range
  have count := congrArg (fun name : String => name.toList.count 'a') same
  simpa [rowName, count_append, count_replicate] using count

def rowQueue (n : Nat) : QueueConf :=
  { name := "normal", priority := 1, hosts := rowNames n, users := [] }

def rowConf (n : Nat) : Conf :=
  { smallConf with
    hosts := (rowNames n).map fun name =>
      { name := name, totalCpu := 4, totalMemMb := 100, totalStorageMb := 100,
        gpuModel := "", gpuIds := [] }
    queues := [rowQueue n]
    qsortHosts := fun _ names => names
    hosts_nodup := by
      rw [List.map_map]
      exact (List.map_id (rowNames n)).symm ▸ rowNames_nodup n
    queues_nodup := nodup_singleton _
    sizes_fit := by
      intro h member
      obtain ⟨name, _, rfl⟩ := List.mem_map.mp member
      exact (by decide : 100 < u64Modulus ∧ 100 < u64Modulus)
    queue_hosts := by
      intro q member h inQueue
      rw [mem_singleton.mp member] at inQueue
      rw [List.map_map]
      exact List.mem_map.mpr ⟨h, inQueue, rfl⟩
    queue_names_fit := by
      intro q member
      rw [mem_singleton.mp member]
      exact (by decide : "normal".toList.length < 64)
    qsortHosts_perm := fun _ names => List.Perm.refl names }

def rowJob (n : Nat) : JobData :=
  allocJob (rowConf n) 1 1 1 1 { plainRequest with numHosts := n } (rowQueue n)

/-- Every sbd is connected, no job runs and the job is the only one that waits. -/
def rowState (n : Nat) : MbdState :=
  { (initial (rowConf n)).mbd with
    jobs := fun j => if j = 1 then some (rowJob n) else none
    pend := [1]
    hosts := fun _ =>
      { freeCpu := 4, freeMemMb := 100, freeStorageMb := 100, gpus := [], status := { closed := false, unavail := false },
        candidate := true, exclusive := false, numJobs := 0, numRun := 0, numSusp := 0,
        sbdChan := 5, numCpusUsed := 0 } }

variable {n : Nat}

theorem row_plainNames (n : Nat) : PlainNames (rowConf n) where
  hosts := by
    intro h member
    obtain ⟨name, inRow, rfl⟩ := List.mem_map.mp member
    obtain ⟨i, _, rfl⟩ := List.mem_map.mp inRow
    simp only [rowName, String.toList_ofList]
    constructor
    · intro empty
      have length := congrArg List.length empty
      simp only [length_append, length_replicate, length_nil] at length
      omega
    · intro c member
      rcases mem_append.mp member with inFront | inBack
      · rw [eq_of_mem_replicate inFront]
        decide
      · rw [eq_of_mem_replicate inBack]
        decide
  models := by
    intro h member
    obtain ⟨name, _, rfl⟩ := List.mem_map.mp member
    exact (by decide : Unbroken "")

theorem rowJob_machines (n : Nat) : (rowJob n).res.machines = [] := by
  have empty : strlcpy 4096 "" = "" := strlcpy_of_fits (by decide)
  have noMachines : plainRequest.machines = "" := rfl
  simp only [rowJob, allocJob, machinesHashPopulate, machineTokens, noMachines, empty, strtok_empty,
    machinesHashTokens]

theorem rowJob_numHosts (some_ : 0 < n) : (rowJob n).res.numHosts = n := by
  have settled : (rowJob n).res.numHosts = reservedHosts (settledHosts (rowJob n).res.machines n) := by
    simp only [rowJob, allocJob]
  rw [settled, rowJob_machines]
  exact reservedHosts_of_pos (Int.natCast_pos.mpr some_)

theorem row_waits (some_ : 0 < n) : AwaitsStart (rowState n) 1 (rowJob n) "normal" (rowJob n) where
  found := rfl
  pending := rfl
  ready := rfl
  ofQueue := rfl
  devices := (by decide : Unbroken "")
  mirrored :=
    { core := rfl
      pending := fun _ => ⟨rfl, rfl, rfl, by rw [rowJob_numHosts some_]; exact Int.natCast_nonneg n⟩
      running := fun on => by cases on
      finished := fun on => by cases on
      fits := by
        rw [rowJob_numHosts some_]
        exact Int.natCast_nonneg n
      machines := by
        rw [rowJob_machines]
        exact nodup_nil
      machineCount := fun asked => absurd (rowJob_machines n) asked }

theorem row_findQueue (n : Nat) : (rowConf n).findQueue "normal" = some (rowQueue n) :=
  rfl

theorem row_jobWf (some_ : 0 < n) : JobWf (rowConf n) 1 (rowJob n) where
  id := rfl
  queue := ⟨"normal", rfl, by rw [row_findQueue]; rfl⟩
  user := length_strlcpy_lt "user" (by decide)
  hostCount := by
    rw [rowJob_numHosts some_]
    exact Int.natCast_nonneg n
  machines := by
    rw [rowJob_machines]
    exact nodup_nil
  machineCount := fun asked => absurd (rowJob_machines n) asked
  deps := rfl
  waiting := fun _ => ⟨rfl, rfl, rfl, rfl, rfl, rfl⟩
  running := fun on => by cases on
  finished := fun on => by cases on

theorem length_rowName {i : Nat} (inRow : i < 64) : (rowName i).toList.length = 63 := by
  simp only [rowName, String.toList_ofList, length_append, length_replicate]
  omega

theorem hostsLen_rowNames (atMost : n ≤ 64) : hostsLen (rowNames n) = n * 79 := by
  have each : (rowNames n).map (fun h => h.toList.length + 16) = (List.range n).map fun _ => 79 := by
    rw [rowNames, List.map_map]
    apply map_congr_left
    intro i member
    have inRow : i < 64 := Nat.lt_of_lt_of_le (mem_range.mp member) atMost
    show (rowName i).toList.length + 16 = 79
    rw [length_rowName inRow]
  rw [hostsLen, each, map_const', sum_replicate_nat, length_range]

theorem row_usable {h : HostName} (member : h ∈ rowNames n) :
    (rowConf n).queueHasHost "normal" h = true ∧
      hostMeetsRequirements (rowConf n) (rowState n) (rowJob n) h = true := by
  constructor
  · unfold Conf.queueHasHost
    rw [row_findQueue]
    exact contains_iff_mem.mpr member
  · have known : ((rowConf n).findHost h).isSome = true := by
      refine find?_isSome.mpr ⟨_, List.mem_map.mpr ⟨h, member, rfl⟩, ?_⟩
      exact decide_eq_true rfl
    obtain ⟨hc, found⟩ := Option.isSome_iff_exists.mp known
    obtain ⟨name, _, rfl⟩ := List.mem_map.mp (mem_of_find?_eq_some found)
    unfold hostMeetsRequirements
    rw [found]
    rfl

theorem row_plan (some_ : 0 < n) (atMost : n ≤ 64) :
    buildHostPlan (rowConf n) (rowState n) (rowJob n) "normal" = some (rowNames n) := by
  have names : (rowConf n).hostNames = rowNames n := by
    simp only [Conf.hostNames, rowConf, List.map_map]
    exact List.map_id (rowNames n)
  have usable : ((rowConf n).hostNames.filter fun h => (rowConf n).queueHasHost "normal" h &&
      hostMeetsRequirements (rowConf n) (rowState n) (rowJob n) h) = rowNames n := by
    rw [names, filter_eq_self]
    intro h member
    exact Bool.and_eq_true_iff.mpr (row_usable member)
  have length : (rowNames n).length = n := by simp [rowNames]
  have noMachines : ¬ (rowJob n).res.machines.length > 0 := by
    rw [rowJob_machines]
    exact Nat.lt_irrefl 0
  have enough : ¬ ((rowNames n).length : Int) < (rowJob n).res.numHosts := by
    rw [length, rowJob_numHosts some_]
    exact Int.lt_irrefl n
  have whole : (rowNames n).take (rowJob n).res.numHosts.toNat = rowNames n := by
    rw [rowJob_numHosts some_, Int.toNat_natCast, take_of_length_le (Nat.le_of_eq length)]
  have fits : ¬ 8192 ≤ hostsLen (rowNames n) := by
    rw [hostsLen_rowNames atMost]
    omega
  have unsorted (cmp : HostName → HostName → Int) (l : List HostName) :
      (rowConf n).qsortHosts cmp l = l := rfl
  rw [buildHostPlan, if_neg noMachines]
  simp only [usable, if_neg enough, unsorted, whole, if_neg fits]

theorem row_started (some_ : 0 < n) :
    ∃ turn, startPlanned (rowConf n) (rowState n) 2 1 (rowJob n) "normal" (rowNames n) true 256 =
      some turn := by
  obtain ⟨k, rfl⟩ : ∃ k, n = k + 1 := ⟨n - 1, by omega⟩
  have isFirst : (rowNames (k + 1)).head? = some (rowName 0) := by
    rw [rowNames, head?_map, head?_range]
    rfl
  have linked : 0 < ((rowState (k + 1)).hosts (rowName 0)).sbdChan := (by decide : (0 : Int) < 5)
  exact startPlanned_isSome isFirst linked (fun asked => absurd asked (Int.lt_irrefl 0))
    (rowNames_nodup (k + 1))

def startLeft (turn : Turn) : Option LogJobStart :=
  match turn.state.manifest with
  | [.jobStart e] => some e
  | _ => none

theorem startLeft_eq {turn : Turn} {e : LogJobStart} (left : turn.state.manifest = [.jobStart e]) :
    startLeft turn = some e := by
  rw [startLeft, left]

theorem toList_hostsText_row (n : Nat) : (hostsText (rowNames n)).toList =
    ([' '].intercalate ((List.range n).map fun i =>
      List.replicate i 'a' ++ List.replicate (63 - i) 'b')).take 4095 := by
  rw [toList_hostsText, rowNames, List.map_map]
  congr 2
  exact map_congr_left fun i _ => String.toList_ofList

theorem length_writeEvent_start (e : LogJobStart) : (writeEvent (.jobStart e)).length =
    "JOB_START".length + (writeNumbers (1 :: e.dispatchTime :: e.numbers)).length +
      e.gpuModel.toList.length + e.gpuAssigned.toList.length +
      (hostsText e.hosts).toList.length + 10 := by
  rw [writeEvent_eq, writeRecord_eq]
  simp only [recordBody, Event.texts, LogJobStart.texts, flatMap_cons, flatMap_nil,
    writeQstr, length_append, length_cons, length_nil]
  have name : (Event.jobStart e).type.name.toList.length = "JOB_START".length := rfl
  rw [name]
  show _ + (writeNumbers (1 :: e.dispatchTime :: e.numbers)).length + _ + _ = _
  omega

def pairStart : LogJobStart :=
  { jobId := 1, dispatchTime := 2, nhosts := 2, cpusPerHost := 1, gpusPerHost := 0
    gpuModel := "", gpuAssigned := "", hosts := rowNames 2 }

theorem pairStart_fits :
    Typed (.jobStart pairStart) ∧ (writeEvent (.jobStart pairStart)).length < 4096 := by
  have hosts : (hostsText pairStart.hosts).toList.length = 127 := by
    rw [pairStart, toList_hostsText_row]
    decide +kernel
  constructor
  · refine ⟨by decide, by decide, ?_⟩
    intro field member
    simp only [Event.texts, LogJobStart.texts] at member
    rcases mem_cons.mp member with rfl | member
    · decide
    · rcases mem_cons.mp member with rfl | member
      · decide
      · rw [mem_singleton.mp member, hosts]
        decide
  · rw [length_writeEvent_start, hosts]
    decide

/-- A plan of two hosts comes back. -/
theorem plan_recovered_pair :
    ∃ turn e, startPlanned (rowConf 2) (rowState 2) 2 1 (rowJob 2) "normal" (rowNames 2) true 256 =
        some turn ∧ startLeft turn = some e ∧ e.hosts = rowNames 2 ∧
      Recovered (rowConf 2) e (rowJob 2) := by
  have two : 0 < 2 := by decide
  have recorded : (startPlanned (rowConf 2) (rowState 2) 2 1 (rowJob 2) "normal" (rowNames 2) true
      256).any (fun turn => (startLeft turn).any fun e =>
        decide ({ e with hosts := [] } = { pairStart with hosts := [] })) = true := by
    decide +kernel
  obtain ⟨turn, started⟩ := row_started two
  obtain ⟨e, manifest, hosts, exactly⟩ := plan_recovered (row_plainNames 2) (row_jobWf two)
    (row_waits two) (row_plan two (by decide)) started
  have left := startLeft_eq manifest
  simp only [started, left, Option.any_some, decide_eq_true_eq] at recorded
  have same : e = pairStart := calc
    e = { e with hosts := rowNames 2 } := by rw [← hosts]
    _ = pairStart :=
      congrArg (fun start : LogJobStart => { start with hosts := rowNames 2 }) recorded
  subst same
  obtain ⟨typed, short⟩ := pairStart_fits
  exact ⟨turn, _, started, left, rfl, (exactly typed).mpr ⟨short, Int.le_refl _⟩⟩

theorem length_hostsText_row : (hostsText (rowNames 64)).toList.length = 4095 := by
  have whole : ([' '].intercalate ((List.range 64).map fun i =>
      List.replicate i 'a' ++ List.replicate (63 - i) 'b')).length = 4095 := by
    decide +kernel
  rw [toList_hostsText_row, length_take, whole]
  rfl

/--
A plan of 64 hosts passes the test of 8192 bytes and is dispatched; its record has
more than 4095 bytes, and is not read back.
-/
theorem plan_not_recovered :
    PlainNames (rowConf 64) ∧ JobWf (rowConf 64) 1 (rowJob 64) ∧
      AwaitsStart (rowState 64) 1 (rowJob 64) "normal" (rowJob 64) ∧
      buildHostPlan (rowConf 64) (rowState 64) (rowJob 64) "normal" = some (rowNames 64) ∧
      ∃ turn e, startPlanned (rowConf 64) (rowState 64) 2 1 (rowJob 64) "normal" (rowNames 64) true
          256 = some turn ∧ startLeft turn = some e ∧ ¬ Recovered (rowConf 64) e (rowJob 64) := by
  have some_ : 0 < 64 := by decide
  have wf := row_jobWf some_
  have waits := row_waits some_
  have built := row_plan some_ (Nat.le_refl 64)
  refine ⟨row_plainNames 64, wf, waits, built, ?_⟩
  obtain ⟨turn, started⟩ := row_started some_
  obtain ⟨first, gpus, text, isFirst, planned, assigned, change⟩ :=
    startPlanned_sent wf waits.found waits.pending built started
  obtain ⟨e, record⟩ : ∃ e, eventJobStart (dispatchedJob (rowJob 64) (rowNames 64) text 2) =
      .jobStart e := ⟨_, rfl⟩
  obtain ⟨hosts, _, unbroken⟩ :=
    (row_plainNames 64).texts planned isFirst assigned waits.devices record
  rw [record] at change
  refine ⟨turn, e, started, startLeft_eq change.manifest, ?_⟩
  intro recovered
  have short := recovered.short unbroken
  have full := length_hostsText_row
  rw [← hosts] at full
  rw [length_writeEvent_start] at short
  omega

/-! ### A damaged line -/

open Kernel (anyStep)

/--
All records but the damaged one are applied, those behind it from their own lines: the
loop comes to the place where they begin.  Nothing else is read, and the replay goes on
to the end.
-/
structure Isolated (conf : Conf) (start : MbdState) (before : List Event) (damage : Damage)
    (after : List Event) : Prop where
  applied : ∃ between, between <+ damage.records ∧
    readManifest (damagedText before damage after) = before ++ between ++ after
  reached : after ≠ [] → Reaches (damagedText before damage after) (manifestText after)
  replayed : (replayEvents conf (readManifest (damagedText before damage after)) start).isSome = true

def ended (j : JobId) : Event :=
  .jobFinish j 1000 .done 0 100

/-- A comment in the middle of the manifest is passed when it looks like a header. -/
def comment : Damage :=
  .line "# 1 2 by hand".toList (by decide)

/-- The crash left the first 8 bytes of the record of job 2. -/
def cutFinish : Damage :=
  .cut (ended 2) 8 (by decide +kernel) (by decide) (by decide +kernel)

def handLine : Damage :=
  .line "by hand".toList (by decide)

/-- The crash left all but the last digit of the record, which is now one of job 1. -/
def cutPend : Damage :=
  .cut (.jobPend 12 4) 14 (by decide +kernel) (by decide) (by decide +kernel)

end LavaLite.Cluster
