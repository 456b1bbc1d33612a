import LavaLite.Mbd.Cycle

/-
Submission as a sequence of commits.  What `job_register` prepares is said by
`Prepared`, and what one `job_commit` does to the state by `Commit`; no other
handler puts a job into the table.
-/

namespace LavaLite.Mbd

open Base Batch Kernel List
open Function (update update_apply update_of_ne update_self)

/-- A job as the preparation loop hands it to `job_commit`. -/
structure Prepared (conf : Conf) (ws : WireJobSubmit) (job : JobData) : Prop where
  queue : ∃ q, conf.findQueue ws.queue = some q ∧ job.queue = some q.name
  priority : ∀ q, conf.findQueue ws.queue = some q → job.priority = q.priority
  state : job.state = if ws.flags.hold then .held else .pending
  list : job.listId = .pend
  pid : job.pid = 0
  forkTime : job.forkTime = 0
  dispatchTime : job.dispatchTime = 0
  endTime : job.endTime = 0
  exitStatus : job.exitStatus = 0
  runHosts : job.runHosts = []
  runNhosts : job.runNhosts = 0
  gpuAssigned : job.gpuAssigned = ""
  user : job.user = strlcpy 64 ws.username
  beginTime : job.beginTime = ws.beginTime
  termTime : job.termTime = ws.termTime
  project : job.project = strlcpy 256 ws.project
  name : job.name = strlcpy 64 ws.name
  flags : job.flags = ws.flags
  numCpus : job.res.numCpus = ws.numCpus
  numGpus : job.res.numGpus = ws.numGpus
  memMb : job.res.memMb = ws.memMb
  storageMb : job.res.storageMb = ws.storageMb
  gpuModel : job.res.gpuModel = strlcpy 256 ws.gpuModel
  machinesStr : job.res.machinesStr = strlcpy 4096 ws.machines
  machines : job.res.machines = machinesHashPopulate conf ws.machines
  numHosts : job.res.numHosts = reservedHosts (settledHosts job.res.machines ws.numHosts)
  tokens : ∃ junk, jobParseTokens conf junk ws.tokenpool = .ok job.res.tokens
  deps : ∃ resolve, jobDepsSet (some resolve) ws.dependCond = .ok (job.deps, job.dependCond)

/-- What `job_prepare` takes from the header of a request and from the table of jobs. -/
structure Issued (table : JobId → Option JobData) (uid gid : Nat) (job : JobData) : Prop where
  uid : job.uid = uid
  gid : job.gid = gid
  named : Resolved (fun d => (table d).isSome) job.deps

structure Submission (ws : WireJobSubmit) (table : JobId → Option JobData) (uid gid : Nat)
    (head : JobId) (jobs : List JobData) : Prop where
  issued : ∀ job ∈ jobs, Issued table uid gid job
  array : ∀ job ∈ jobs, job.arrayId = if ws.flags.array then head else 0
  ids : jobs.map JobData.jobId = (List.range jobs.length).map fun (i : Nat) => head + (i : Int)

structure Committable (conf : Conf) (ws : WireJobSubmit) (m : MbdState) (job : JobData) : Prop where
  prepared : Prepared conf ws job
  positive : 0 < job.jobId
  unsaved : m.seqFile < job.jobId
  counted : job.jobId ≤ m.jobIdSeq
  newest : ∀ {i found}, m.jobs i = some found → i < job.jobId
  named : Resolved (fun d => (m.jobs d).isSome) job.deps
  element : job.arrayId = 0 ∨ job.arrayId = job.jobId ∨ ∃ head, m.jobs job.arrayId = some head ∧
    head.arrayId = head.jobId ∧ head.uid = job.uid

structure Commit (conf : Conf) (ws : WireJobSubmit) (m m' : MbdState) (q : QueueName)
    (job : JobData) : Prop extends Committable conf ws m job where
  ofQueue : job.queue = some q
  fresh : m.jobs job.jobId = none
  jobs : m'.jobs = update m.jobs job.jobId (some job)
  pend : m'.pend = m.pend ++ [job.jobId]
  run : m'.run = m.run
  finish : m'.finish = m.finish
  hosts : m'.hosts = m.hosts
  queues : ∀ q', m'.queues q' = atQueue q (countCommitted job) q' (m.queues q')
  pools : m'.pools = m.pools
  manifest : m'.manifest = m.manifest ++ [eventJobNew job ws]
  outbox : m'.outbox = m.outbox
  jobIdSeq : m'.jobIdSeq = m.jobIdSeq
  seqFile : m'.seqFile = m.seqFile
  marks : m'.marks = m.marks
  holds : ∀ k, m'.depRefcnt k = (if k = job.jobId then 0 else m.depRefcnt k) +
    if (m'.jobs k).isSome then (namings job k : Int) else 0

variable {conf : Conf} {env : SubmitEnv} {uid gid fuel : Nat} {ws : WireJobSubmit}
  {id seq seq' head : JobId} {jobs table : JobId → Option JobData} {job : JobData}
  {text kept : String} {deps : List JobDep} {m : MbdState} {stride index : Int}
  {prepared front : List JobData}

theorem jobDepsSet_cases {resolve : Option (Int → Bool)}
    (set : jobDepsSet resolve text = .ok (deps, kept)) :
    (text = "" ∧ deps = [] ∧ kept = "") ∨
      (text ≠ "" ∧ depParse resolve text = .ok deps ∧ kept = strlcpy 4096 text) := by
  unfold jobDepsSet at set
  split at set
  next empty =>
    cases set
    exact Or.inl ⟨empty, rfl, rfl⟩
  next given =>
    cases parsed : depParse resolve text with
    | error e => simp [parsed, Except.map] at set
    | ok found =>
      simp only [parsed, Except.map] at set
      cases set
      exact Or.inr ⟨given, rfl, rfl⟩

theorem jobDepsSet_resolved {known : Int → Bool}
    (set : jobDepsSet (some known) text = .ok (deps, kept)) : Resolved known deps := by
  obtain ⟨_, rfl, _⟩ | ⟨_, parsed, _⟩ := jobDepsSet_cases set
  · exact forall_mem_nil _
  · exact depParse_resolved parsed

theorem jobPrepare_spec (done : jobPrepare conf env jobs id uid gid ws = .ok job) :
    job.jobId = id ∧ job.arrayId = 0 ∧ Issued jobs uid gid job ∧ Prepared conf ws job := by
  unfold jobPrepare jobAlloc at done
  cases known : conf.findQueue ws.queue with
  | none => simp [known] at done
  | some q =>
    simp only [known] at done
    split at done
    · cases done
    next allocated =>
      split at allocated
      · cases allocated
        split at done
        · split at done
          · cases done
          next tokens parsed =>
            split at done
            · cases done
            next deps dependCond set =>
              cases done
              refine ⟨rfl, rfl, ⟨rfl, rfl, jobDepsSet_resolved set⟩, ?_⟩
              refine ⟨⟨q, known, rfl⟩, fun _ same => ?_, rfl, rfl, rfl, rfl, rfl, rfl, rfl, rfl, rfl, rfl,
                rfl, rfl, rfl, rfl, rfl, rfl, rfl, rfl, rfl, rfl, rfl, rfl, by simp only [allocJob],
                by simp only [allocJob], ⟨_, parsed⟩, ⟨_, set⟩⟩
              cases known.symm.trans same
              rfl
        · cases done
      · cases allocated

theorem Prepared.setArrayFields (prepared : Prepared conf ws job) (arrayId : JobId)
    (index : Int) : Prepared conf ws (setArrayFields ws arrayId index job) := by
  unfold Mbd.setArrayFields
  split
  · exact { prepared with }
  · exact prepared

theorem jobId_setArrayFields (arrayId : JobId) (index : Int) :
    (setArrayFields ws arrayId index job).jobId = job.jobId := by
  unfold setArrayFields
  split <;> rfl

theorem lt_nextJobId (jobs : JobId → Option JobData) :
    ∀ (fuel : Nat) (seq : JobId), seq < nextJobId jobs fuel seq := by
  intro fuel
  induction fuel with
  | zero => exact fun seq => Int.lt_succ seq
  | succ fuel ih =>
    intro seq
    unfold nextJobId
    split
    · exact Int.lt_trans (Int.lt_succ seq) (ih (seq + 1))
    · exact Int.lt_succ seq

/-- A prepared job whose id lies above `base` and not above `seq`. -/
def PreparedWithin (conf : Conf) (ws : WireJobSubmit) (base seq : JobId) (job : JobData) : Prop :=
  Prepared conf ws job ∧ base < job.jobId ∧ job.jobId ≤ seq

theorem prepareLoop_induction {last : Int} {result : Except Status (List JobData)}
    (holds : Int → JobId → List JobData → Prop)
    (turn : ∀ {index : Int} {seq id : JobId} {prepared : List JobData} {job : JobData}, seq < id →
      jobPrepare conf env m.jobs id uid gid ws = .ok job → followsOn prepared id = true →
      holds index seq prepared → holds (index + stride) id
        (setArrayFields ws ((prepared.getLast?.map JobData.jobId).getD id) index job :: prepared))
    (start : holds index seq prepared)
    (done : prepareLoop conf env m uid gid ws last stride fuel index seq prepared =
      some (seq', result)) : seq ≤ seq' ∧ ∀ jobs, result = .ok jobs →
      ∃ index, last < index ∧ holds index seq' jobs.reverse := by
  induction fuel generalizing index seq prepared with
  | zero => cases done
  | succ fuel ih =>
    unfold prepareLoop at done
    split at done
    next past =>
      cases done
      refine ⟨Int.le_refl _, ?_⟩
      rintro _ ⟨⟩
      exact ⟨index, past, by rwa [reverse_reverse]⟩
    · simp only at done
      have grows := lt_nextJobId m.jobs (m.pend.length + m.run.length + m.finish.length) seq
      split at done
      · cases done
        exact ⟨Int.le_of_lt grows, nofun⟩
      next job made =>
        split at done
        next goesOn =>
          obtain ⟨grown, later⟩ := ih (turn grows made goesOn.1 start) done
          exact ⟨Int.le_trans (Int.le_of_lt grows) grown, later⟩
        · cases done

theorem Submission.first {rest : List JobData}
    (lot : Submission ws table uid gid head (job :: rest)) : job.jobId = head := by
  have ids := lot.ids
  rw [map_cons, length_cons, range_succ_eq_map, map_cons] at ids
  have same := (List.cons.inj ids).1
  simpa using same

theorem Submission.last (lot : Submission ws table uid gid head (front ++ [job])) :
    job.jobId = head + (front.length : Int) := by
  have ids := lot.ids
  rw [map_append, length_append, length_singleton, range_succ, map_append] at ids
  have same := append_inj_right' ids rfl
  simpa using same

theorem Submission.snoc (lot : Submission ws table uid gid head front)
    (issued : Issued table uid gid job) (array : job.arrayId = if ws.flags.array then head else 0)
    (next : job.jobId = head + (front.length : Int)) :
    Submission ws table uid gid head (front ++ [job]) where
  issued := by
    intro other member
    rcases mem_append.mp member with earlier | last
    · exact lot.issued other earlier
    · rw [mem_singleton.mp last]
      exact issued
  array := by
    intro other member
    rcases mem_append.mp member with earlier | last
    · exact lot.array other earlier
    · rw [mem_singleton.mp last]
      exact array
  ids := by
    rw [map_append, length_append, length_singleton, range_succ, map_append, lot.ids]
    simp [next]

theorem Issued.setArrayFields (issued : Issued table uid gid job) (arrayId : JobId) (index : Int) :
    Issued table uid gid (setArrayFields ws arrayId index job) := by
  unfold Mbd.setArrayFields
  split
  · exact { issued with }
  · exact issued

theorem arrayId_setArrayFields (single : job.arrayId = 0) (arrayId : JobId) (index : Int) :
    (setArrayFields ws arrayId index job).arrayId = if ws.flags.array then arrayId else 0 := by
  unfold setArrayFields
  split
  · rfl
  · exact single

theorem Submission.turn (lot : Submission ws table uid gid head prepared.reverse)
    (issued : Issued table uid gid job) (single : job.arrayId = 0)
    (follows : followsOn prepared job.jobId = true) (index : Int) :
    ∃ head, Submission ws table uid gid head
      (setArrayFields ws ((prepared.getLast?.map JobData.jobId).getD job.jobId) index job ::
        prepared).reverse := by
  cases prepared with
  | nil =>
    refine ⟨job.jobId, ?_⟩
    have none : Submission ws table uid gid job.jobId [] :=
      ⟨forall_mem_nil _, forall_mem_nil _, rfl⟩
    refine none.snoc (issued.setArrayFields _ _) (arrayId_setArrayFields single _ _) ?_
    rw [jobId_setArrayFields]
    exact (Int.add_zero _).symm
  | cons previous earlier =>
    refine ⟨head, ?_⟩
    have first : ((previous :: earlier).getLast?.map JobData.jobId).getD job.jobId = head := by
      rw [← head?_reverse]
      cases front : (previous :: earlier).reverse with
      | nil => simp at front
      | cons oldest rest =>
        rw [front] at lot
        exact lot.first
    rw [first, reverse_cons]
    refine lot.snoc (issued.setArrayFields _ _) (arrayId_setArrayFields single _ _) ?_
    rw [reverse_cons] at lot
    have after : job.jobId = previous.jobId + 1 := of_decide_eq_true follows
    rw [jobId_setArrayFields, after, lot.last]
    simp only [length_reverse]
    exact Int.add_assoc head _ 1

/-- The jobs prepared so far, latest first, above the id `base`. -/
def PreparedLot (conf : Conf) (ws : WireJobSubmit) (table : JobId → Option JobData) (uid gid : Nat)
    (base seq : JobId) (prepared : List JobData) : Prop :=
  base ≤ seq ∧ (∀ job ∈ prepared, PreparedWithin conf ws base seq job) ∧
    ∃ head, Submission ws table uid gid head prepared.reverse

theorem PreparedLot.turn {base : JobId} (so : PreparedLot conf ws table uid gid base seq prepared)
    (grows : seq < id) (made : jobPrepare conf env table id uid gid ws = .ok job)
    (follows : followsOn prepared id = true) (index : Int) :
    PreparedLot conf ws table uid gid base id
      (setArrayFields ws ((prepared.getLast?.map JobData.jobId).getD id) index job :: prepared) := by
  obtain ⟨low, ready, head, lot⟩ := so
  obtain ⟨rfl, single, issued, isPrepared⟩ := jobPrepare_spec made
  refine ⟨Int.le_trans low (Int.le_of_lt grows), ?_, lot.turn issued single follows index⟩
  intro other member
  rcases mem_cons.mp member with rfl | earlier
  · refine ⟨isPrepared.setArrayFields _ _, ?_, Int.le_of_eq (jobId_setArrayFields _ _)⟩
    rw [jobId_setArrayFields]
    exact Int.lt_of_le_of_lt low grows
  · obtain ⟨was, above, below⟩ := ready other earlier
    exact ⟨was, above, Int.le_trans below (Int.le_of_lt grows)⟩

theorem prepareLoop_spec {last : Int} {result : Except Status (List JobData)}
    (done : prepareLoop conf env m uid gid ws last stride fuel index seq [] = some (seq', result)) :
    seq ≤ seq' ∧ ∀ jobs, result = .ok jobs → (∀ job ∈ jobs, PreparedWithin conf ws seq seq' job) ∧
        ∃ head, Submission ws m.jobs uid gid head jobs := by
  obtain ⟨grown, ready⟩ := prepareLoop_induction
    (fun _ top prepared => PreparedLot conf ws m.jobs uid gid seq top prepared)
    (fun grows made follows so => so.turn grows made follows _)
    ⟨Int.le_refl seq, forall_mem_nil _, 0, forall_mem_nil _, forall_mem_nil _, rfl⟩ done
  refine ⟨grown, fun jobs isOk => ?_⟩
  obtain ⟨_, _, _, within, lot⟩ := ready jobs isOk
  rw [reverse_reverse] at lot
  exact ⟨fun job member => within job (mem_reverse.mpr member), lot⟩

/-! ### Commits -/

abbrev Commits (conf : Conf) (ws : WireJobSubmit) : MbdState → MbdState → Prop :=
  Relation.ReflTransGen fun m m' => ∃ q job, Commit conf ws m m' q job

section Commits

variable {request : WireJobSubmit} {m' : MbdState} {jobs : List JobData}
  {answer : Except Status JobId}

theorem jobCommit_spec {elements : Int} (ready : Committable conf ws m job)
    (done : jobCommit m ws elements job = some m') : (∃ q, Commit conf ws m m' q job) ∧
      m'.arrayElementCnt = update m.arrayElementCnt job.jobId elements := by
  unfold jobCommit at done
  split at done
  next q fresh ofQueue =>
    have placed : { job with listId := .pend } = job := by
      rw [← ready.prepared.list]
    simp only [placed] at done
    cases done
    refine ⟨⟨q, ready, ofQueue, fresh, rfl, rfl, rfl, rfl, rfl, fun q' => ?_, rfl, rfl, rfl, rfl,
      rfl, rfl, fun k => ?_⟩, rfl⟩
    · change update m.queues q (countCommitted job (m.queues q)) q' = _
      unfold atQueue
      by_cases same : q' = q
      · subst same
        rw [if_pos rfl, update_self]
      · rw [if_neg same, update_of_ne same]
    · refine (depRefcnt_jobDepsRefcnt _ job 1 k).trans ?_
      rw [Int.one_mul]
      refine congrArg (· + _) ?_
      exact update_apply m.depRefcnt job.jobId 0 k
  next => cases done

theorem jobCommitPrepared_adds {total : Nat} (done : jobCommitPrepared ws total jobs m = some m') :
    m'.manifest = m.manifest ++ jobs.map (eventJobNew · ws) ∧ m'.jobIdSeq = m.jobIdSeq ∧
      m'.hosts = m.hosts ∧ m'.marks = m.marks ∧
      ∀ j, (m'.jobs j).isSome = true → (m.jobs j).isSome = true ∨ ∃ job ∈ jobs, job.jobId = j := by
  induction jobs generalizing m m' with
  | nil =>
    cases done
    exact ⟨(append_nil _).symm, rfl, rfl, rfl, fun _ => Or.inl⟩
  | cons job rest ih =>
    unfold jobCommitPrepared at done
    split at done
    · cases done
    next m₁ committed =>
      unfold jobCommit at committed
      split at committed
      · cases committed
        obtain ⟨manifest, seq, hosts, marks, known⟩ := ih done
        refine ⟨?_, seq, hosts, marks, fun j found => ?_⟩
        · rw [manifest]
          exact append_assoc ..
        · by_cases same : job.jobId = j
          · exact .inr ⟨job, mem_cons_self, same⟩
          · rcases known j found with earlier | ⟨other, member, isJ⟩
            · refine .inl ?_
              rw [← earlier]
              exact congrArg Option.isSome (update_of_ne (Ne.symm same) _ _).symm
            · exact .inr ⟨other, mem_cons_of_mem job member, isJ⟩
      · cases committed

/-- The commit loop between two of its turns: `front` is committed, `rest` is not. -/
structure Halfway (conf : Conf) (ws : WireJobSubmit) (table : JobId → Option JobData)
    (uid gid : Nat) (head base seq : JobId) (front rest : List JobData) (m : MbdState) : Prop where
  lot : Submission ws table uid gid head (front ++ rest)
  ready : ∀ job ∈ front ++ rest, PreparedWithin conf ws base seq job
  old : ∀ {i found}, table i = some found → i ≤ base
  low : 0 ≤ base
  saved : m.seqFile ≤ base
  counted : m.jobIdSeq = seq
  known : ∀ {i found}, m.jobs i = some found →
    table i = some found ∨ (found ∈ front ∧ found.jobId = i)
  kept : ∀ {i found}, table i = some found → m.jobs i = some found
  placed : ∀ job ∈ front, m.jobs job.jobId = some job

theorem Submission.pairwise (lot : Submission ws table uid gid head jobs) :
    jobs.Pairwise fun a b => a.jobId < b.jobId := by
  have sorted : (jobs.map JobData.jobId).Pairwise (· < ·) := by
    rw [lot.ids, pairwise_map]
    exact pairwise_lt_range.imp fun before =>
      Int.add_lt_add_left (Int.ofNat_lt.mpr before) head
  exact pairwise_map.mp sorted

variable {base : JobId} {rest : List JobData}

theorem Halfway.committable (half : Halfway conf ws table uid gid head base seq front (job :: rest) m) :
    Committable conf ws m job := by
  have member : job ∈ front ++ job :: rest := by simp
  obtain ⟨prepared, above, below⟩ := half.ready job member
  have issued := half.lot.issued job member
  refine ⟨prepared, Int.lt_of_le_of_lt half.low above, Int.lt_of_le_of_lt half.saved above,
    half.counted ▸ below, ?_, ?_, ?_⟩
  · intro i found at'
    rcases half.known at' with before | ⟨inFront, id⟩
    · exact Int.lt_of_le_of_lt (half.old before) above
    · rw [← id]
      exact (pairwise_append.mp half.lot.pairwise).2.2 found inFront job mem_cons_self
  · intro d inDeps condition
    obtain ⟨target, found⟩ := Option.isSome_iff_exists.mp (issued.named d inDeps condition)
    exact Option.isSome_iff_exists.mpr ⟨target, half.kept found⟩
  · have array := half.lot.array job member
    by_cases isArray : ws.flags.array = true
    · rw [if_pos isArray] at array
      refine Or.inr ?_
      cases front with
      | nil => exact Or.inl (array.trans (half.lot.first).symm)
      | cons first earlier =>
        have isHead : first.jobId = head := half.lot.first
        have inLot : first ∈ first :: earlier ++ job :: rest := by simp
        refine Or.inr ⟨first, ?_, ?_, ?_⟩
        · rw [array, ← isHead]
          exact half.placed first mem_cons_self
        · rw [half.lot.array first inLot, if_pos isArray, isHead]
        · rw [(half.lot.issued first inLot).uid, issued.uid]
    · rw [if_neg isArray] at array
      exact Or.inl array

theorem Halfway.turn {q : QueueName}
    (half : Halfway conf ws table uid gid head base seq front (job :: rest) m)
    (commit : Commit conf ws m m' q job) :
    Halfway conf ws table uid gid head base seq (front ++ [job]) rest m' := by
  have regroup : front ++ job :: rest = (front ++ [job]) ++ rest := by simp
  refine ⟨regroup ▸ half.lot, regroup ▸ half.ready, half.old, half.low, ?_, ?_, ?_, ?_, ?_⟩
  · rw [commit.seqFile]
    exact half.saved
  · rw [commit.jobIdSeq]
    exact half.counted
  · intro i found at'
    rw [commit.jobs] at at'
    by_cases same : i = job.jobId
    · rw [same, update_self] at at'
      cases at'
      exact Or.inr ⟨by simp, same.symm⟩
    · rw [update_of_ne same] at at'
      rcases half.known at' with before | ⟨inFront, id⟩
      · exact Or.inl before
      · exact Or.inr ⟨mem_append_left _ inFront, id⟩
  · intro i found before
    have there := half.kept before
    rw [commit.jobs, update_of_ne (Int.ne_of_lt (commit.newest there))]
    exact there
  · intro other member
    rw [commit.jobs]
    rcases mem_append.mp member with inFront | last
    · have there := half.placed other inFront
      rw [update_of_ne (Int.ne_of_lt (commit.newest there))]
      exact there
    · rw [mem_singleton.mp last, update_self]

theorem Halfway.induction {total : Nat} (holds : List JobData → List JobData → MbdState → Prop)
    (turn : ∀ {m m' : MbdState} {q : QueueName} {job : JobData} {front rest : List JobData},
      Halfway conf ws table uid gid head base seq front (job :: rest) m →
      Commit conf ws m m' q job →
      m'.arrayElementCnt = update m.arrayElementCnt job.jobId (elementCount ws total job) →
      holds front (job :: rest) m → holds (front ++ [job]) rest m')
    (half : Halfway conf ws table uid gid head base seq front rest m) (start : holds front rest m)
    (done : jobCommitPrepared ws total rest m = some m') : holds (front ++ rest) [] m' := by
  induction rest generalizing front m m' with
  | nil =>
    cases done
    rw [append_nil]
    exact start
  | cons job rest ih =>
    unfold jobCommitPrepared at done
    split at done
    · cases done
    next m₁ committed =>
      obtain ⟨⟨q, commit⟩, counts⟩ := jobCommit_spec half.committable committed
      have later := ih (half.turn commit) (turn half commit counts start) done
      rwa [append_assoc, singleton_append] at later

theorem Halfway.commits {total : Nat} (half : Halfway conf ws table uid gid head base seq [] rest m)
    (done : jobCommitPrepared ws total rest m = some m') : Commits conf ws m m' := by
  refine Halfway.induction (fun _ _ between => Commits conf ws m between) ?_ half .refl done
  intro m₁ m₂ q job front rest _ commit _ before
  exact before.tail ⟨q, job, commit⟩

inductive Registers (conf : Conf) (ws : WireJobSubmit) (m m' : MbdState) : Prop where
  /-- Only the id sequence may have moved. -/
  | refused (framed : Frame m m')
  /-- Every prepared job is committed, then the sequence is saved. -/
  | accepted {m₁ m₂ : MbdState} {uid gid : Nat} {head base seq : JobId} {jobs : List JobData}
      (framed : Frame m m₁) (half : Halfway conf ws m.jobs uid gid head base seq [] jobs m₁)
      (committed : jobCommitPrepared ws jobs.length jobs m₁ = some m₂)
      (saves : m' = { m₂ with seqFile := m₂.jobIdSeq })

/-- No id is above the sequence, and neither is the sequence file. -/
structure IdsCounted (m : MbdState) : Prop where
  ids : ∀ {j job}, m.jobs j = some job → j ≤ m.jobIdSeq
  saved : 0 ≤ m.seqFile ∧ m.seqFile ≤ m.jobIdSeq

theorem Wf.idsCounted (wf : Wf conf m) : IdsCounted m :=
  ⟨fun found => (wf.ids found).2, wf.saved⟩

theorem prepareLoop_halfway {last first : Int} (counted : IdsCounted m)
    (loop : prepareLoop conf env m uid gid ws last stride fuel first m.jobIdSeq [] =
      some (seq, .ok jobs)) :
    ∃ head, Halfway conf ws m.jobs uid gid head m.jobIdSeq seq [] jobs { m with jobIdSeq := seq } := by
  obtain ⟨within, head, lot⟩ := (prepareLoop_spec loop).2 jobs rfl
  exact ⟨head, lot, within, counted.ids, Int.le_trans counted.saved.1 counted.saved.2,
    counted.saved.2, rfl, Or.inl, id, forall_mem_nil _⟩

/-- The range of indices `job_register` takes from a request that it does not refuse at once. -/
structure Spans (ws : WireJobSubmit) (first last stride : Int) : Prop where
  range : (if ws.flags.array then (ws.arrayStart, ws.arrayEnd, ws.arrayStride) else (0, 0, 1)) =
    (first, last, stride)
  forward : 0 < stride
  ordered : first ≤ last

theorem Spans.accepted {first last : Int} (spans : Spans ws first last stride) :
    ¬ (ws.flags.array = true ∧ (ws.arrayStride ≤ 0 ∨ ws.arrayEnd < ws.arrayStart)) := by
  rintro ⟨array, bad⟩
  obtain ⟨range, forward, ordered⟩ := spans
  rw [if_pos array] at range
  cases range
  omega

theorem jobRegister_loop {first last : Int}
    (spans : Spans (normalizeSubmit conf request) first last stride) :
    jobRegister conf env m uid gid request =
      match prepareLoop conf env m uid gid (normalizeSubmit conf request) last stride
          ((last - first).toNat + 2) first m.jobIdSeq [] with
      | none => none
      | some (seq, .error e) => some ({ m with jobIdSeq := seq }, .error e)
      | some (seq, .ok prepared) =>
        if env.replyOk then
          match jobCommitPrepared (normalizeSubmit conf request) prepared.length prepared
              { m with jobIdSeq := seq } with
          | none => none
          | some m =>
            some ({ m with seqFile := m.jobIdSeq }, .ok ((prepared.head?.map JobData.jobId).getD 0))
        else some ({ m with jobIdSeq := seq }, .error .eio) := by
  unfold jobRegister
  simp only [spans.range]
  refine (if_neg spans.accepted).trans ?_
  cases prepareLoop conf env m uid gid (normalizeSubmit conf request) last stride
    ((last - first).toNat + 2) first m.jobIdSeq [] <;> rfl

theorem spans_or_refused (conf : Conf) (request : WireJobSubmit) : (request.flags.array = true ∧
        (request.arrayStride ≤ 0 ∨ request.arrayEnd < request.arrayStart)) ∨
      ∃ first last stride, Spans (normalizeSubmit conf request) first last stride := by
  by_cases array : request.flags.array = true
  · by_cases bad : request.arrayStride ≤ 0 ∨ request.arrayEnd < request.arrayStart
    · exact Or.inl ⟨array, bad⟩
    · exact Or.inr ⟨_, _, _, if_pos array, show 0 < request.arrayStride by omega,
        show request.arrayStart ≤ request.arrayEnd by omega⟩
  · exact Or.inr ⟨_, _, _, if_neg array, Int.one_pos, Int.le_refl _⟩

/-- A request is refused before any of its jobs is visible, or all of them are committed. -/
theorem jobRegister_inversion
    (done : jobRegister conf env m uid gid request = some (m', answer)) :
    (∃ seq e, m.jobIdSeq ≤ seq ∧ m' = { m with jobIdSeq := seq } ∧ answer = .error e) ∨
      ∃ first last stride seq jobs m₂, Spans (normalizeSubmit conf request) first last stride ∧
        prepareLoop conf env m uid gid (normalizeSubmit conf request) last stride
          ((last - first).toNat + 2) first m.jobIdSeq [] = some (seq, .ok jobs) ∧
        env.replyOk = true ∧ jobCommitPrepared (normalizeSubmit conf request) jobs.length jobs
          { m with jobIdSeq := seq } = some m₂ ∧ m' = { m₂ with seqFile := m₂.jobIdSeq } ∧
        answer = .ok ((jobs.head?.map JobData.jobId).getD 0) := by
  rcases spans_or_refused conf request with ⟨array, bad⟩ | ⟨first, last, stride, spans⟩
  · cases done.symm.trans (if_pos ⟨array, bad⟩)
    exact Or.inl ⟨m.jobIdSeq, _, Int.le_refl _, rfl, rfl⟩
  · rw [jobRegister_loop spans] at done
    split at done
    · cases done
    next seq e failed =>
      cases done
      exact Or.inl ⟨seq, e, (prepareLoop_spec failed).1, rfl, rfl⟩
    next seq jobs prepared =>
      split at done
      next reply =>
        split at done
        · cases done
        next m₂ committed =>
          cases done
          exact Or.inr ⟨first, last, stride, seq, jobs, m₂, spans, prepared, reply, committed,
            rfl, rfl⟩
      · cases done
        exact Or.inl ⟨seq, _, (prepareLoop_spec prepared).1, rfl, rfl⟩

theorem jobRegister_cases (counted : IdsCounted m)
    (done : jobRegister conf env m uid gid request = some (m', answer)) :
    Frame m m' ∨ ∃ m₁ m₂ head seq jobs, Frame m m₁ ∧
      Halfway conf (normalizeSubmit conf request) m.jobs uid gid head m.jobIdSeq seq [] jobs m₁ ∧
      jobCommitPrepared (normalizeSubmit conf request) jobs.length jobs m₁ = some m₂ ∧
      m' = { m₂ with seqFile := m₂.jobIdSeq } := by
  have frame : ∀ {seq : JobId}, m.jobIdSeq ≤ seq → Frame m { m with jobIdSeq := seq } :=
    fun grown => { Frame.refl m with jobIdSeq := grown }
  rcases jobRegister_inversion done with ⟨seq, _, grown, rfl, _⟩ |
    ⟨_, _, _, seq, jobs, m₂, _, loop, _, committed, rfl, _⟩
  · exact Or.inl (frame grown)
  · obtain ⟨head, half⟩ := prepareLoop_halfway counted loop
    exact Or.inr ⟨_, m₂, head, seq, jobs, frame (prepareLoop_spec loop).1, half,
      committed, rfl⟩

theorem jobRegister_spec (counted : IdsCounted m)
    (done : jobRegister conf env m uid gid request = some (m', answer)) :
    Registers conf (normalizeSubmit conf request) m m' := by
  rcases jobRegister_cases counted done with
    framed | ⟨_, _, _, _, _, framed, half, committed, saves⟩
  · exact .refused framed
  · exact .accepted framed half committed saves

theorem jobRegister_issued {j : JobId} (wf : Wf conf m)
    (done : jobRegister conf env m uid gid request = some (m', answer)) (fresh : m.jobs j = none)
    (created : m'.jobs j = some job) :
    job.uid = uid ∧ job.gid = gid ∧ job.user = strlcpy 64 request.username ∧ m.seqFile < j ∧
      j ≤ m'.seqFile := by
  rcases jobRegister_cases wf.idsCounted done with
    framed | ⟨m₁, m₂, _, _, jobs, framed, half, committed, rfl⟩
  · rw [framed.jobs, fresh] at created
    cases created
  · have whole := Halfway.induction (Halfway conf _ m.jobs uid gid _ _ _)
      (fun half commit _ _ => half.turn commit) half half committed
    rcases whole.known created with before | ⟨member, rfl⟩
    · rw [fresh] at before
      cases before
    · have member := mem_append_left [] member
      obtain ⟨prepared, above, below⟩ := whole.ready job member
      have issued := whole.lot.issued job member
      refine ⟨issued.uid, issued.gid, prepared.user, ?_, whole.counted ▸ below⟩
      exact Int.lt_of_le_of_lt (framed.seqFile ▸ half.saved) above

theorem Registers.keeps (holds : MbdState → Prop)
    (framed : ∀ {m m' : MbdState}, holds m → Frame m m' → holds m')
    (committed : ∀ {m m' : MbdState} {q : QueueName} {job : JobData}, holds m →
      Commit conf ws m m' q job → holds m')
    (saved : ∀ {m : MbdState}, holds m → holds { m with seqFile := m.jobIdSeq })
    (start : holds m) (registers : Registers conf ws m m') : holds m' := by
  cases registers with
  | refused frame => exact framed start frame
  | accepted frame half loop saves =>
    subst saves
    apply saved
    have between := framed start frame
    have commits := half.commits loop
    clear start frame half loop
    induction commits with
    | refl => exact between
    | tail _ last ih =>
      obtain ⟨q, job, commit⟩ := last
      exact committed ih commit

end Commits

/-! ### Every commit keeps a sound state sound -/

variable {m' : MbdState} {q : QueueName} {found : JobData} {j : JobId}
  {resolve : Option (Int → Bool)}

theorem Commit.jobs_cases (commit : Commit conf ws m m' q job) (at' : m'.jobs j = some found) :
    (j = job.jobId ∧ found = job) ∨ m.jobs j = some found := by
  rw [commit.jobs] at at'
  by_cases same : j = job.jobId
  · subst same
    rw [update_self] at at'
    exact Or.inl ⟨rfl, (Option.some.inj at').symm⟩
  · rw [update_of_ne same] at at'
    exact Or.inr at'

theorem Commit.jobs_of_some (commit : Commit conf ws m m' q job) (before : m.jobs j = some found) :
    m'.jobs j = some found := by
  have other : j ≠ job.jobId := by
    intro same
    rw [same, commit.fresh] at before
    cases before
  rw [commit.jobs, update_of_ne other]
  exact before

theorem Commit.jobs_self (commit : Commit conf ws m m' q job) : m'.jobs job.jobId = some job := by
  rw [commit.jobs, update_self]

theorem reservedHosts_of_pos {n : Int} (positive : 0 < n) : reservedHosts n = n := by
  unfold reservedHosts
  rw [if_neg (by omega)]

theorem reservedHosts_pos (n : Int) : 0 < reservedHosts n := by
  unfold reservedHosts
  split <;> omega

theorem nodup_insertKey {keys : List String} (distinct : keys.Nodup) (key : String) :
    (insertKey keys key).Nodup := by
  unfold insertKey
  split
  · exact distinct
  next absent =>
    rw [contains_iff_mem] at absent
    rw [← concat_eq_append]
    exact distinct.concat absent

theorem nodup_foldl_insertKey : ∀ (members keys : List String), keys.Nodup →
    (members.foldl insertKey keys).Nodup := by
  intro members
  induction members with
  | nil => exact fun keys distinct => distinct
  | cons name rest ih => exact fun keys distinct => ih _ (nodup_insertKey distinct name)

theorem nodup_machinesHashPopulate (conf : Conf) (machines : String) :
    (machinesHashPopulate conf machines).Nodup := by
  unfold machinesHashPopulate
  generalize machineTokens machines = tokens
  suffices looped : ∀ keys : List String, keys.Nodup →
      (machinesHashTokens conf keys tokens).Nodup from looped [] nodup_nil
  induction tokens with
  | nil => exact fun keys distinct => distinct
  | cons tok rest ih =>
    intro keys distinct
    have inserted := nodup_foldl_insertKey (tokenMachines conf tok) _ distinct
    unfold machinesHashTokens
    split
    · exact inserted
    · exact ih _ inserted

theorem jobDepsSet_forget (set : jobDepsSet resolve text = .ok (deps, kept)) :
    jobDepsSet none text = .ok (deps, kept) := by
  obtain ⟨rfl, rfl, rfl⟩ | ⟨given, parsed, rfl⟩ := jobDepsSet_cases set
  · rfl
  · rw [jobDepsSet, if_neg given, depParse_forget parsed]
    rfl

theorem jobDepsSet_fits (set : jobDepsSet resolve text = .ok (deps, kept)) :
    kept.toList.length < 4096 := by
  obtain ⟨_, _, rfl⟩ | ⟨_, _, rfl⟩ := jobDepsSet_cases set
  · decide
  · exact length_strlcpy_lt text (by decide)

theorem jobDepsSet_again (fits : text.toList.length < 4096)
    (set : jobDepsSet resolve text = .ok (deps, kept)) :
    jobDepsSet none kept = .ok (deps, kept) := by
  have forgotten := jobDepsSet_forget set
  obtain ⟨_, rfl, rfl⟩ | ⟨_, _, rfl⟩ := jobDepsSet_cases set
  · rfl
  · rw [strlcpy_of_fits fits] at forgotten ⊢
    exact forgotten

theorem Prepared.jobWf (prepared : Prepared conf ws job) : JobWf conf job.jobId job where
  id := rfl
  queue := by
    obtain ⟨q, known, ofQueue⟩ := prepared.queue
    exact ⟨q.name, ofQueue, by rw [Conf.findQueue_name known, known]; rfl⟩
  user := by
    rw [prepared.user]
    exact length_strlcpy_lt ws.username (by decide)
  hostCount := by
    rw [prepared.numHosts]
    exact Int.le_of_lt (reservedHosts_pos _)
  machines := by
    rw [prepared.machines]
    exact nodup_machinesHashPopulate conf ws.machines
  machineCount := by
    intro asked
    have count := length_pos_of_ne_nil asked
    rw [prepared.numHosts]
    unfold settledHosts
    rw [if_pos count]
    exact reservedHosts_of_pos (Int.natCast_pos.mpr count)
  deps := by
    obtain ⟨resolve, set⟩ := prepared.deps
    exact jobDepsSet_again ws.dependCond_fits set
  waiting := by
    intro _
    refine ⟨?_, prepared.pid, prepared.forkTime, prepared.dispatchTime, prepared.endTime,
      prepared.exitStatus⟩
    rw [prepared.state]
    split <;> rfl
  running := by
    intro on
    rw [prepared.list] at on
    cases on
  finished := by
    intro on
    rw [prepared.list] at on
    cases on

theorem Commit.lists (commit : Commit conf ws m m' q job) (id : ListId) :
    m'.list id = if id = job.listId then m.list id ++ [job.jobId] else m.list id := by
  rw [commit.prepared.list]
  cases id with
  | pend => exact commit.pend
  | run => exact commit.run
  | finish => exact commit.finish

theorem Commit.wf (commit : Commit conf ws m m' q job) (wf : Wf conf m) : Wf conf m' where
  toListed := wf.toListed.added commit.fresh commit.jobs commit.lists
  job := by
    intro j found at'
    rcases commit.jobs_cases at' with ⟨rfl, rfl⟩ | before
    · exact commit.prepared.jobWf
    · exact wf.job before
  ids := by
    intro j found at'
    rw [commit.jobIdSeq]
    rcases commit.jobs_cases at' with ⟨rfl, rfl⟩ | before
    · exact ⟨commit.positive, commit.counted⟩
    · exact wf.ids before
  saved := by
    rw [commit.seqFile, commit.jobIdSeq]
    exact wf.saved

theorem Wf.save (wf : Wf conf m) : Wf conf { m with seqFile := m.jobIdSeq } where
  toListed := wf.toListed.congr rfl fun id => by cases id <;> rfl
  job := wf.job
  ids := wf.ids
  saved := ⟨Int.le_trans wf.saved.1 wf.saved.2, Int.le_refl _⟩

theorem Registers.outbox (registers : Registers conf ws m m') : m'.outbox = m.outbox :=
  registers.keeps (fun m' => m'.outbox = m.outbox) (fun same framed => framed.outbox.trans same)
    (fun same commit => commit.outbox.trans same) id rfl

theorem Registers.wf (registers : Registers conf ws m m') (wf : Wf conf m) : Wf conf m' :=
  registers.keeps (Wf conf) (fun wf framed => framed.wf wf) (fun wf commit => commit.wf wf)
    Wf.save wf

theorem Registers.keeps_of_wf (holds : MbdState → Prop)
    (framed : ∀ {m m' : MbdState}, Wf conf m → holds m → Frame m m' → holds m')
    (committed : ∀ {m m' : MbdState} {q : QueueName} {job : JobData}, Wf conf m → holds m →
      Commit conf ws m m' q job → holds m')
    (saved : ∀ {m : MbdState}, Wf conf m → holds m → holds { m with seqFile := m.jobIdSeq })
    (wf : Wf conf m) (start : holds m) (registers : Registers conf ws m m') : holds m' := by
  have both : Wf conf m' ∧ holds m' :=
    registers.keeps (fun m => Wf conf m ∧ holds m)
      (fun sound frame => ⟨frame.wf sound.1, framed sound.1 sound.2 frame⟩)
      (fun sound commit => ⟨commit.wf sound.1, committed sound.1 sound.2 commit⟩)
      (fun sound => ⟨sound.1.save, saved sound.1 sound.2⟩) ⟨wf, start⟩
  exact both.2

/-! ### What every job asked for -/

def EveryJob (asks : Request → Prop) (m : MbdState) : Prop :=
  ∀ (j : JobId) (job : JobData), m.jobs j = some job → asks job.request

variable {permits : Permit} {asks : Request → Prop}

theorem Change.known {job' : JobData} {onHost : HostChange} {onQueue : QueueChange}
    {pools : PoolName → Int} {records : List Event} {sent : Outbox}
    (change : Change m m' j job job' onHost onQueue pools records sent) :
    m'.seqFile = m.seqFile ∧ ∀ i found, m'.jobs i = some found →
      ∃ before, m.jobs i = some before ∧ found.request = before.request := by
  refine ⟨change.seqFile, fun i found at' => ?_⟩
  rcases change.jobs_cases at' with ⟨rfl, rfl⟩ | ⟨_, before⟩
  · exact ⟨job, change.found, change.request⟩
  · exact ⟨found, before, rfl⟩

theorem Effect.known (effect : Effect conf permits m m') :
    m'.seqFile = m.seqFile ∧ ∀ j found, m'.jobs j = some found →
      ∃ before, m.jobs j = some before ∧ found.request = before.request := by
  cases effect with
  | frame framed =>
    refine ⟨framed.seqFile, fun j job found => ⟨job, ?_, rfl⟩⟩
    rw [framed.jobs] at found
    exact found
  | ackReply _ _ sends | ackFinish _ _ sends =>
    subst sends
    exact ⟨rfl, fun _ job found => ⟨job, found, rfl⟩⟩
  | note _ change | stranded _ _ _ _ _ change | dispatch _ _ _ _ _ _ _ _ change
  | signalSent _ _ change | hold _ _ _ change | unhold _ _ _ change | kill _ _ _ _ change
  | move _ _ _ _ _ change | priority _ _ change | fork _ _ _ _ _ change
  | release _ _ _ _ _ _ _ change | finish _ _ _ _ _ _ _ change | stopped _ _ _ change
  | continued _ _ _ change =>
    exact change.known
  | compact _ compacted =>
    refine ⟨?_, fun _ job found => ⟨job, (compact_jobs compacted found).1, rfl⟩⟩
    obtain ⟨_, _, result⟩ := manifestRebuild_spec compacted
    rw [result]

theorem Effect.everyJob (each : EveryJob asks m) (effect : Effect conf permits m m') :
    EveryJob asks m' := by
  intro j job found
  obtain ⟨before, was, same⟩ := effect.known.2 j job found
  rw [same]
  exact each j before was

theorem Frame.everyJob (framed : Frame m m') (each : EveryJob asks m) : EveryJob asks m' := by
  intro j job found
  rw [framed.jobs] at found
  exact each j job found

theorem Commit.everyJob (commit : Commit conf ws m m' q job) (new : asks job.request)
    (each : EveryJob asks m) : EveryJob asks m' := by
  intro j found at'
  rcases commit.jobs_cases at' with ⟨rfl, rfl⟩ | before
  · exact new
  · exact each j found before

theorem Registers.everyJob (registers : Registers conf ws m m')
    (new : ∀ {m m' : MbdState} {q : QueueName} {job : JobData}, Commit conf ws m m' q job →
      asks job.request) (each : EveryJob asks m) : EveryJob asks m' :=
  registers.keeps (EveryJob asks) (fun each framed => framed.everyJob each)
    (fun each commit => commit.everyJob (new commit) each) id each

def IdsSaved (m : MbdState) : Prop :=
  ∀ {j : JobId} {job : JobData}, m.jobs j = some job → j ≤ m.seqFile

theorem Effect.idsSaved (saved : IdsSaved m) (effect : Effect conf permits m m') : IdsSaved m' := by
  intro j job found
  obtain ⟨seqFile, known⟩ := effect.known
  obtain ⟨before, was, _⟩ := known j job found
  rw [seqFile]
  exact saved was

theorem Registers.idsSaved (registers : Registers conf ws m m') (wf : Wf conf m)
    (saved : IdsSaved m) : IdsSaved m' := by
  intro j job found
  have sound := registers.wf wf
  cases registers with
  | refused framed =>
    rw [framed.jobs] at found
    rw [framed.seqFile]
    exact saved found
  | accepted framed half loop saves =>
    subst saves
    exact (sound.ids found).2

end LavaLite.Mbd
