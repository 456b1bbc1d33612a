import LavaLite.Mbd.Holds

/-
The queries of `dispatch.c`, and what the request of one user does to the jobs of others: it
changes the count of an array only, and an array has one owner.  A move keeps the priority
of a job, whatever that of the queue is.
-/

namespace LavaLite.Mbd

open Base Batch Kernel

section

open List Option

/-- `struct wire_job_info`; the host of the submission and the comment are never filled in. -/
structure WireJobInfo where
  jobId : JobId
  arrayId : JobId
  arrayIndex : Int
  uid : Nat
  pid : Int
  state : JobState
  exitStatus : Int
  priority : Int
  pendReason : PendReason
  submitTime : Time
  dispatchTime : Time
  endTime : Time
  suspTime : Time
  name : String
  queue : QueueName
  runHosts : String
  deriving DecidableEq, Repr

/-- `struct wire_job_query`; the uid in it is not read. -/
structure WireJobQuery where
  jobId : JobId
  arrayId : JobId
  arrayIndex : Int
  flags : Nat
  deriving DecidableEq, Repr

inductive JobsReply where
  | jobs (infos : List WireJobInfo)
  | refused (status : Status)
  deriving DecidableEq, Repr

/-- `RUNNING` and `SUSPENDED` are reported as `UNKNOWN` while the first host is away. -/
def reportedState (m : MbdState) (job : JobData) : Option JobState :=
  if job.state = .running ∨ job.state = .suspended then
    job.runHosts.head?.map fun h => if (m.hosts h).sbdChan < 0 then .unknown else job.state
  else some job.state

def runHostsText (job : JobData) : String :=
  (job.hosts.foldl
    (fun (text, i) h =>
      let text := if 0 < i then strlcat 4096 text " " else text
      (strlcat 4096 text (toString job.res.numCpus ++ "@" ++ h), i + 1))
    ("", 0)).1

/-- `job_data_to_wire`; `none` is a null dereference. -/
def jobDataToWire (m : MbdState) (job : JobData) : Option WireJobInfo := do
  let state ← reportedState m job
  let queue ← job.queue
  some
    { jobId := job.jobId
      arrayId := job.arrayId
      arrayIndex := job.arrayIndex
      uid := job.uid
      pid := job.pid
      state := state
      exitStatus := job.exitStatus
      priority := job.priority
      pendReason := job.pendReason
      submitTime := job.submitTime
      dispatchTime := job.dispatchTime
      endTime := job.endTime
      -- no code of mbd sets `susp_time`
      suspTime := 0
      name := strlcpy 64 job.name
      queue := strlcpy 64 queue
      runHosts := runHostsText job }

def hidden (conf : Conf) (uid : Nat) (job : JobData) : Bool :=
  !conf.isManager uid && job.uid ≠ uid

def collectList (conf : Conf) (m : MbdState) (uid : Nat) : List JobId → Option (List WireJobInfo)
  | [] => some []
  | j :: rest => do
      let job ← m.jobs j
      if hidden conf uid job then collectList conf m uid rest
      else do
        let info ← jobDataToWire m job
        let others ← collectList conf m uid rest
        some (info :: others)

/-- The loop of `maybe_collect_array`, which passes over ids that are gone. -/
def collectElements (conf : Conf) (m : MbdState) (uid : Nat) (ids : List JobId) :
    Option (List WireJobInfo) :=
  collectList conf m uid (ids.filter fun j => (m.jobs j).isSome)

def maybeCollectArray (conf : Conf) (m : MbdState) (uid : Nat) (arrayId : JobId) :
    Option (List WireJobInfo) :=
  match m.jobs arrayId with
  | none => some []
  | some head =>
    if head.arrayId ≠ head.jobId then some [] else collectElements conf m uid (arrayIds head)

def jobInfo (conf : Conf) (m : MbdState) (uid : Nat) : Option JobId → Option JobsReply
  | none => some (.refused .esrch)
  | some j =>
    match m.jobs j with
    | none => some (.refused .esrch)
    | some job =>
      if hidden conf uid job then some (.refused .eperm)
      else (jobDataToWire m job).map fun info => .jobs [info]

def jobsInfoRef (conf : Conf) (m : MbdState) (uid : Nat) (query : WireJobQuery) :
    Option JobsReply :=
  if query.arrayId ≠ 0 then
    jobInfo conf m uid (jobFindArray m query.arrayId query.arrayIndex)
  else do
    let elements ← maybeCollectArray conf m uid query.jobId
    if elements.isEmpty then jobInfo conf m uid (some query.jobId) else some (.jobs elements)

/-- The bits of `LLB_JOB_DONE`, `LLB_JOB_PEND` and `LLB_JOB_RUN`. -/
def llbJobDone : Nat := 0

def llbJobPend : Nat := 1

def llbJobRun : Nat := 3

def collectAsked (conf : Conf) (m : MbdState) (uid : Nat) (asked : Bool) (ids : List JobId) :
    Option (List WireJobInfo) :=
  if asked then collectList conf m uid ids else some []

def jobsInfoList (conf : Conf) (m : MbdState) (uid : Nat) (query : WireJobQuery) :
    Option JobsReply := do
  let pend ← collectAsked conf m uid (query.flags = 0 || query.flags.testBit llbJobPend) m.pend
  let run ← collectAsked conf m uid (query.flags = 0 || query.flags.testBit llbJobRun) m.run
  let finish ← collectAsked conf m uid (query.flags.testBit llbJobDone) m.finish
  some (.jobs (pend ++ run ++ finish))

def jobsInfo (conf : Conf) (m : MbdState) (uid : Nat) (query : WireJobQuery) : Option JobsReply :=
  if query.jobId ≠ -1 ∨ query.arrayId ≠ 0 then jobsInfoRef conf m uid query
  else jobsInfoList conf m uid query

/-! ### What a reply shows -/

def Shows (conf : Conf) (m : MbdState) (uid : Nat) (info : WireJobInfo) : Prop :=
  ∃ j job, m.jobs j = some job ∧ hidden conf uid job = false ∧ jobDataToWire m job = some info

variable {conf : Conf} {m : MbdState} {uid : Nat} {query : WireJobQuery} {ids : List JobId}
  {infos : List WireJobInfo}

theorem collectList_shows (collected : collectList conf m uid ids = some infos) :
    ∀ info ∈ infos, Shows conf m uid info := by
  induction ids generalizing infos with
  | nil =>
    cases collected
    exact fun info member => absurd member not_mem_nil
  | cons j rest ih =>
    rw [collectList] at collected
    obtain ⟨job, found, collected⟩ := bind_eq_some_iff.mp collected
    split at collected
    · exact ih collected
    next seen =>
      obtain ⟨first, wired, collected⟩ := bind_eq_some_iff.mp collected
      obtain ⟨others, later, same⟩ := bind_eq_some_iff.mp collected
      cases same
      intro info member
      rcases mem_cons.mp member with rfl | behind
      · exact ⟨j, job, found, Bool.not_eq_true _ ▸ seen, wired⟩
      · exact ih later info behind

theorem maybeCollectArray_shows {arrayId : JobId}
    (collected : maybeCollectArray conf m uid arrayId = some infos) :
    ∀ info ∈ infos, Shows conf m uid info := by
  have empty : ∀ info ∈ ([] : List WireJobInfo), Shows conf m uid info :=
    fun info member => absurd member not_mem_nil
  unfold maybeCollectArray at collected
  split at collected
  · cases collected
    exact empty
  · split at collected
    · cases collected
      exact empty
    · exact collectList_shows collected

theorem jobInfo_shows {reference : Option JobId}
    (answered : jobInfo conf m uid reference = some (.jobs infos)) :
    ∀ info ∈ infos, Shows conf m uid info := by
  cases reference with
  | none => cases answered
  | some j =>
    rw [jobInfo] at answered
    split at answered
    · cases answered
    next job found =>
      split at answered
      · cases answered
      next seen =>
        obtain ⟨info, wired, same⟩ := map_eq_some_iff.mp answered
        cases same
        intro other member
        rw [mem_singleton.mp member]
        exact ⟨j, job, found, Bool.not_eq_true _ ▸ seen, wired⟩

theorem jobsInfoRef_shows (answered : jobsInfoRef conf m uid query = some (.jobs infos)) :
    ∀ info ∈ infos, Shows conf m uid info := by
  unfold jobsInfoRef at answered
  split at answered
  · exact jobInfo_shows answered
  · obtain ⟨elements, collected, answered⟩ := bind_eq_some_iff.mp answered
    split at answered
    · exact jobInfo_shows answered
    · cases answered
      exact maybeCollectArray_shows collected

theorem collectAsked_shows {asked : Bool}
    (collected : collectAsked conf m uid asked ids = some infos) :
    ∀ info ∈ infos, Shows conf m uid info := by
  unfold collectAsked at collected
  split at collected
  · exact collectList_shows collected
  · cases collected
    exact fun info member => absurd member not_mem_nil

theorem jobsInfoList_shows (answered : jobsInfoList conf m uid query = some (.jobs infos)) :
    ∀ info ∈ infos, Shows conf m uid info := by
  obtain ⟨pend, first, answered⟩ := bind_eq_some_iff.mp answered
  obtain ⟨run, second, answered⟩ := bind_eq_some_iff.mp answered
  obtain ⟨finish, third, same⟩ := bind_eq_some_iff.mp answered
  cases same
  intro info member
  rcases mem_append.mp member with early | late
  · rcases mem_append.mp early with waiting | running
    · exact collectAsked_shows first info waiting
    · exact collectAsked_shows second info running
  · exact collectAsked_shows third info late

theorem jobsInfo_shows (answered : jobsInfo conf m uid query = some (.jobs infos)) :
    ∀ info ∈ infos, Shows conf m uid info := by
  unfold jobsInfo at answered
  split at answered
  · exact jobsInfoRef_shows answered
  · exact jobsInfoList_shows answered

theorem Shows.own {info : WireJobInfo} (shows : Shows conf m uid info)
    (user : conf.isManager uid = false) : info.uid = uid := by
  obtain ⟨j, job, _, seen, wired⟩ := shows
  obtain ⟨state, _, wired⟩ := bind_eq_some_iff.mp wired
  obtain ⟨queue, _, same⟩ := bind_eq_some_iff.mp wired
  cases same
  simpa [hidden, user] using seen

end

/-! ### Other requests -/

/-- The elements of an array and its head have one owner. -/
def OwnArrays (m : MbdState) : Prop :=
  ∀ j job head, m.jobs j = some job → job.arrayId ≠ 0 → m.jobs job.arrayId = some head →
    head.uid = job.uid

/-- The jobs of others are as they were, apart from their `dep_refcnt`. -/
def Spares (uid : Nat) (m m' : MbdState) : Prop :=
  ∀ i other, m.jobs i = some other → other.uid ≠ uid →
    m'.jobs i = some other ∧ m'.arrayElementCnt i = m.arrayElementCnt i

/-- A request about a job, the elements of an array, or (a signal to id 0) every job. -/
inductive JobRequest where
  | signal (jobId : JobId) (arrayIndex sig : Int) (sendOk : JobId → Bool)
  | move (jobId : JobId) (toQueue : QueueName)
  | priority (jobId : JobId) (value : Int)

def JobRequest.handle (conf : Conf) (m : MbdState) (now : Time) (uid : Nat) :
    JobRequest → Option (MbdState × Status)
  | .signal jobId arrayIndex sig sendOk => jobsSignal conf m now uid jobId arrayIndex sig sendOk
  | .move jobId toQueue => jobMove conf m now uid jobId toQueue
  | .priority jobId value => jobPriority conf m now uid jobId value

variable {conf : Conf} {permits : Permit} {m m' : MbdState} {ws : WireJobSubmit} {uid : Nat}

theorem Spares.trans {mid : MbdState} (first : Spares uid m mid) (second : Spares uid mid m') :
    Spares uid m m' := by
  intro i other found foreign
  obtain ⟨between, sameCount⟩ := first i other found foreign
  obtain ⟨after, finalCount⟩ := second i other between foreign
  exact ⟨after, finalCount.trans sameCount⟩

/-! ### One owner for each array -/

theorem Effect.ownArrays (own : OwnArrays m) (effect : Effect conf permits m m') :
    OwnArrays m' := by
  intro i found head at' element headAt
  cases effect.relists with
  | none same =>
    rw [same.jobs] at at' headAt
    exact own i found head at' element headAt
  | compacts compacted =>
    exact own i found head (compact_jobs compacted at').1 element (compact_jobs compacted headAt).1
  | @one j job job' _ _ _ _ _ change _ _ =>
    -- the change leaves the owner of its job and the array it is in
    have before : ∀ {k : JobId} {now : JobData}, m'.jobs k = some now →
        ∃ old, m.jobs k = some old ∧ now.uid = old.uid ∧ now.arrayId = old.arrayId := by
      intro k now present
      rcases change.jobs_cases present with ⟨rfl, rfl⟩ | ⟨_, kept⟩
      · exact ⟨job, change.found, congrArg Request.uid change.request,
          congrArg Request.arrayId change.request⟩
      · exact ⟨now, kept, rfl, rfl⟩
    obtain ⟨old, oldAt, owner, array⟩ := before at'
    obtain ⟨oldHead, oldHeadAt, headOwner, _⟩ := before headAt
    rw [array] at element oldHeadAt
    rw [headOwner, owner]
    exact own i old oldHead oldAt element oldHeadAt

theorem Commit.ownArrays {q : QueueName} {job : JobData} (commit : Commit conf ws m m' q job)
    (wf : Wf conf m) (earlier : EveryJob JoinsEarlier m) (own : OwnArrays m) : OwnArrays m' := by
  intro i found head at' element headAt
  rcases commit.jobs_cases at' with ⟨rfl, rfl⟩ | old
  · rcases commit.jobs_cases headAt with ⟨_, rfl⟩ | headOld
    · rfl
    · rcases commit.element with single | itself | ⟨first, there, _, owner⟩
      · exact absurd single element
      · rw [itself, commit.fresh] at headOld
        cases headOld
      · rw [there] at headOld
        cases headOld
        exact owner
  · rcases commit.jobs_cases headAt with ⟨joins, rfl⟩ | headOld
    · -- an older job cannot have joined the array of a new one
      have before : found.arrayId ≤ found.jobId := earlier i found old
      have newer : found.jobId < head.jobId := (wf.job old).id ▸ commit.newest old
      rw [joins] at before
      exact absurd newer (Int.not_lt.mpr before)
    · exact own i found head old element headOld

theorem Registers.ownArrays (registers : Registers conf ws m m') (wf : Wf conf m)
    (earlier : EveryJob JoinsEarlier m) (own : OwnArrays m) :
    EveryJob JoinsEarlier m' ∧ OwnArrays m' := by
  refine registers.keeps_of_wf (fun m => EveryJob JoinsEarlier m ∧ OwnArrays m) ?framed ?committed
    (fun _ both => both) wf ⟨earlier, own⟩
  case framed =>
    intro m m' _ both framed
    unfold EveryJob OwnArrays
    rw [framed.jobs]
    exact both
  case committed =>
    intro m m' q job wf both commit
    exact ⟨commit.everyJob commit.joinsEarlier both.1, commit.ownArrays wf both.1 both.2⟩

theorem Restored.ownArrays (restored : Restored conf m m') (own : OwnArrays m) : OwnArrays m' := by
  intro i replayed head found element headAt
  obtain ⟨job, live, mirrored⟩ := restored.mirror found
  obtain ⟨liveHead, headLive, headMirrored⟩ := restored.mirror headAt
  have array : replayed.arrayId = job.arrayId := congrArg Core.arrayId mirrored.core
  have owner : replayed.uid = job.uid := congrArg Core.uid mirrored.core
  have headOwner : head.uid = liveHead.uid := congrArg Core.uid headMirrored.core
  rw [array] at element headLive
  rw [owner, headOwner]
  exact own i job liveHead live element headLive

/-! ### Requests -/

theorem Requested.spares {j : JobId} (own : OwnArrays m) (user : conf.isManager uid = false)
    (requested : Requested conf permits uid j m m') : Spares uid m m' := by
  obtain _ | @⟨_, job, job', _, _, _, _, owned, change, _, _⟩ := requested
  · exact fun i other found _ => ⟨found, rfl⟩
  have mine : job.uid = uid := by
    rcases owned with mine | manager
    · exact mine
    · rw [user] at manager
      cases manager
  intro i other found foreign
  have different : i ≠ j := by
    rintro rfl
    rw [change.found] at found
    cases found
    exact foreign mine
  have untouched : finishedElements m job job' i = 0 := by
    apply if_neg
    rintro ⟨_, _, element, array, _⟩
    have owner := own j job other change.found element (array ▸ found)
    exact foreign (owner.trans mine)
  refine ⟨(change.jobs_of_ne different).trans found, ?_⟩
  rw [change.elements, untouched, Int.sub_zero]

theorem Requests.spares (own : OwnArrays m) (user : conf.isManager uid = false)
    (requests : Requests conf permits uid m m') : Spares uid m m' := by
  have both : OwnArrays m' ∧ Spares uid m m' := by
    induction requests with
    | refl => exact ⟨own, fun i other found _ => ⟨found, rfl⟩⟩
    | tail _ last ih =>
      obtain ⟨j, requested⟩ := last
      obtain ⟨between, spared⟩ := ih
      exact ⟨requested.effects.keeps OwnArrays (fun own effect => effect.ownArrays own) between,
        spared.trans (requested.spares between user)⟩
  exact both.2

theorem JobRequest.requests {request : JobRequest} {now : Time} {status : Status}
    (clock : 0 < now) (wf : Wf conf m) (done : request.handle conf m now uid = some (m', status)) :
    Requests conf anyReport uid m m' := by
  cases request with
  | signal => exact jobsSignal_requests clock wf done
  | move => exact .single ⟨_, jobMove_requested wf (fun _ _ => trivial) done⟩
  | priority => exact .single ⟨_, jobPriority_requested wf (fun _ _ => trivial) done⟩

/-! ### Priorities -/

def BelowCeiling (conf : Conf) (m : MbdState) : Prop :=
  ∀ j job queue q, m.jobs j = some job → job.queue = some queue → conf.findQueue queue = some q →
    job.priority ≤ q.priority

/-- No manager sets a priority, and no job is moved below its own. -/
def ranksKept (conf : Conf) : Permit
  | _, job, .moved target => ∀ q ∈ conf.findQueue target, job.priority ≤ q.priority
  | _, _, .ranked uid => conf.isManager uid = false
  | _, _, _ => True

instance decidableRanksKept (conf : Conf) (m : MbdState) (job : JobData) :
    ∀ report, Decidable (ranksKept conf m job report)
  | .moved target =>
    inferInstanceAs (Decidable (∀ q ∈ conf.findQueue target, job.priority ≤ q.priority))
  | .ranked uid => inferInstanceAs (Decidable (conf.isManager uid = false))
  | .forked | .stopped _ | .continued _ | .released | .finished | .unsent | .compacted =>
    isTrue trivial

theorem Change.belowCeiling {j : JobId} {job job' : JobData}
    {onHost : HostChange} {onQueue : QueueChange} {pools : PoolName → Int} {records : List Event}
    {sent : Outbox} (change : Change m m' j job job' onHost onQueue pools records sent)
    (below : BelowCeiling conf m)
    (here : ∀ queue q, job'.queue = some queue → conf.findQueue queue = some q →
      job'.priority ≤ q.priority) : BelowCeiling conf m' := by
  intro i found queue q at' ofQueue known
  rcases change.jobs_cases at' with ⟨rfl, rfl⟩ | ⟨_, before⟩
  · exact here queue q ofQueue known
  · exact below i found queue q before ofQueue known

theorem exceedsQueue_spec {uid : Nat} {job : JobData} {value : Int}
    (checked : exceedsQueue conf uid job value = some false) (user : conf.isManager uid = false)
    {queue : QueueName} {q : QueueConf} (ofQueue : job.queue = some queue)
    (known : conf.findQueue queue = some q) : value ≤ q.priority := by
  rw [exceedsQueue, user, ofQueue] at checked
  simp only [Bool.false_eq_true, if_false, Option.bind_eq_bind, Option.bind_some, known,
    Option.some.injEq, decide_eq_false_iff_not] at checked
  exact Int.not_lt.mp checked

theorem Effect.belowCeiling (below : BelowCeiling conf m)
    (effect : Effect conf (ranksKept conf) m m') : BelowCeiling conf m' := by
  -- most effects leave the queue and the priority of their job
  have kept : ∀ {j job job' onHost onQueue pools records sent},
      Change m m' j job job' onHost onQueue pools records sent → job'.queue = job.queue →
      job'.priority = job.priority → BelowCeiling conf m' := by
    intro j job job' _ _ _ _ _ change queue priority
    apply change.belowCeiling below
    rw [queue, priority]
    exact fun queue q => below j job queue q change.found
  have same : m'.jobs = m.jobs → BelowCeiling conf m' := by
    intro jobs
    unfold BelowCeiling
    rw [jobs]
    exact below
  cases effect with
  | frame framed => exact same framed.jobs
  | ackReply _ _ sends | ackFinish _ _ sends => exact same (by rw [sends]; rfl)
  | compact _ compacted =>
    exact fun j job queue q found => below j job queue q (compact_jobs compacted found).1
  | move _ _ _ _ permitted change =>
    apply change.belowCeiling below
    intro queue q ofQueue known
    cases ofQueue
    exact permitted q known
  | priority within permitted change =>
    apply change.belowCeiling below
    exact fun queue q => exceedsQueue_spec within permitted
  | release _ _ _ _ result _ _ change => rcases result with rfl | rfl <;> exact kept change rfl rfl
  | note _ change | signalSent _ _ change | hold _ _ _ change | unhold _ _ _ change
  | kill _ _ _ _ change | stopped _ _ _ change | continued _ _ _ change
  | stranded _ _ _ _ _ change | fork _ _ _ _ _ change | finish _ _ _ _ _ _ _ change
  | dispatch _ _ _ _ _ _ _ _ change => exact kept change rfl rfl

theorem Registers.belowCeiling {ws : WireJobSubmit} (registers : Registers conf ws m m')
    (below : BelowCeiling conf m) : BelowCeiling conf m' := by
  refine registers.keeps (BelowCeiling conf) ?framed ?committed (fun below => below) below
  case framed =>
    intro m m' below framed
    unfold BelowCeiling
    rw [framed.jobs]
    exact below
  case committed =>
    intro m m' queue job below commit j found name q at' ofQueue known
    rcases commit.jobs_cases at' with ⟨rfl, rfl⟩ | before
    · obtain ⟨target, asked, placed⟩ := commit.prepared.queue
      rw [placed] at ofQueue
      cases ofQueue
      rw [Conf.findQueue_name asked, asked] at known
      cases known
      exact Int.le_of_eq (commit.prepared.priority q asked)
    · exact below j found name q before ofQueue known

theorem Restored.belowCeiling (restored : Restored conf m m') (below : BelowCeiling conf m) :
    BelowCeiling conf m' := by
  intro j replayed queue q found ofQueue known
  obtain ⟨job, live, mirrored⟩ := restored.mirror found
  have priority : replayed.priority = job.priority := congrArg Core.priority mirrored.core
  have name : replayed.queue = job.queue := congrArg Core.queue mirrored.core
  rw [priority]
  exact below j job queue q live (name ▸ ofQueue) known

end LavaLite.Mbd
