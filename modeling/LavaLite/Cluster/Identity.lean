import LavaLite.Cluster.Journal

/-
Whose job it is, from the submission to the process.  The uid and the gid are those
of the authenticated header, but the name is the one the client wrote: it decides
which queues take the job and which groups the process gets.
-/

namespace LavaLite.Cluster

open Base Batch Mbd Sbd Kernel Option

structure Identity where
  uid : Nat
  gid : Nat
  user : String
  deriving DecidableEq, Repr

def jobIdentity (job : JobData) : Identity :=
  { uid := job.uid, gid := job.gid, user := job.user }

def startIdentity (start : WireJobStart) : Identity :=
  { uid := start.uid, gid := start.gid, user := start.username }

/-! ### In mbd -/

/-- The job is known, and was handed out, under one identity. -/
structure Carried (who : Identity) (j : JobId) (m : MbdState) : Prop where
  known : ∀ job, m.jobs j = some job → jobIdentity job = who
  saved : j ≤ m.seqFile
  queued : ∀ h start, (h, .newJob start) ∈ m.outbox → start.jobId = j → startIdentity start = who

variable {conf : Conf} {permits : Permit} {who : Identity} {j : JobId} {m m' : MbdState}

theorem Carried.effect (carried : Carried who j m) (wf : Wf conf m)
    (effect : Effect conf permits m m') : Carried who j m' := by
  have known : ∀ job, m'.jobs j = some job → jobIdentity job = who := by
    intro job found
    obtain ⟨before, there, same⟩ := effect.known.2 j job found
    rw [← carried.known before there]
    exact congrArg (fun r : Request => Identity.mk r.uid r.gid r.user) same
  obtain ⟨sent, outbox, starts⟩ := Effect.sends wf effect
  refine ⟨known, effect.known.1 ▸ carried.saved, fun h start member about => ?_⟩
  rw [outbox] at member
  rcases List.mem_append.mp member with old | new
  · exact carried.queued h start old about
  · obtain ⟨job, found, uid, gid, user⟩ := starts _ new start rfl
    rw [about] at found
    rw [← known job found, startIdentity, uid, gid, user]
    rfl

theorem Carried.registers {ws : WireJobSubmit} (carried : Carried who j m) (wf : Wf conf m)
    (registers : Registers conf ws m m') : Carried who j m' := by
  refine registers.keeps_of_wf (Carried who j) ?framed ?committed ?saved wf carried
  case framed =>
    intro m m' _ carried framed
    refine ⟨?_, framed.seqFile ▸ carried.saved, framed.outbox ▸ carried.queued⟩
    rw [framed.jobs]
    exact carried.known
  case committed =>
    intro m m' q job _ carried commit
    refine ⟨fun found at' => ?_, commit.seqFile ▸ carried.saved, commit.outbox ▸ carried.queued⟩
    rcases commit.jobs_cases at' with ⟨rfl, _⟩ | before
    · -- a saved id is not given again
      exact absurd commit.unsaved (Int.not_lt.mpr carried.saved)
    · exact carried.known found before
  case saved =>
    intro m wf carried
    exact ⟨carried.known, Int.le_trans carried.saved wf.saved.2, carried.queued⟩

theorem Carried.restored (carried : Carried who j m) (restored : Restored conf m m') :
    Carried who j m' := by
  refine ⟨fun replayed found => ?_, restored.seqFile ▸ carried.saved, fun h start member => ?_⟩
  · obtain ⟨job, live, mirrored⟩ := restored.mirror found
    rw [← carried.known job live]
    exact congrArg (fun c : Core => Identity.mk c.uid c.gid c.user) mirrored.core
  · rw [restored.outbox] at member
    cases member

/-! ### In the cluster -/

structure CarriedOver (who : Identity) (j : JobId) (s : System) : Prop where
  carried : Carried who j s.mbd
  onWay : ∀ h start, .newJob start ∈ (s.links h).toSbd → start.jobId = j → startIdentity start = who

variable {s s' : System} {label : Label}

theorem CarriedOver.afterMbd {links : HostName → Link} (isOver : CarriedOver who j s)
    (shown : ∀ h, (links h).toSbd = (s.links h).toSbd) (carried : Carried who j m) :
    CarriedOver who j (afterMbd { s with links := links } m) := by
  refine ⟨⟨carried.known, carried.saved, fun h start member => absurd member List.not_mem_nil⟩,
    fun h start member about => ?_⟩
  rcases mem_deliverAll member with old | new
  · exact isOver.onWay h start (shown h ▸ old) about
  · exact carried.queued h start new about

theorem CarriedOver.step (isOver : CarriedOver who j s) (sound : Sound conf s)
    (sound' : Sound conf s') (legible : label.Rereads s)
    (taken : Cluster.step conf s label = some s') : CarriedOver who j s' := by
  have wf := sound.wf
  have along : ∀ {permits : Permit} {m : MbdState}, Effects conf permits s.mbd m →
      Carried who j m := fun effects =>
    effects.keeps_of_wf (Carried who j) (fun wf carried effect => carried.effect wf effect) wf
      isOver.carried
  cases sound.moves legible taken with
  | acts shown _ effects => exact isOver.afterMbd shown (along effects)
  | compacts _ effects compacted =>
    have last : Effect conf anyReport _ _ := Effect.compact (fun _ => trivial) compacted
    have wfMid := effects.keeps (Wf conf) Effect.wf wf
    exact isOver.afterMbd (fun _ => rfl) ((along effects).effect wfMid last)
  | registers submitted =>
    exact isOver.afterMbd (fun _ => rfl) (isOver.carried.registers wf submitted)
  | restarts _ restored =>
    refine ⟨isOver.carried.restored restored, fun h start member => ?_⟩
    exact isOver.onWay h start ((toSbd_mbdGone _ _).subset member)
  | settles jobs _ seqFile settled =>
    refine ⟨⟨?_, seqFile ▸ isOver.carried.saved, fun h start member => ?_⟩, fun h start member => ?_⟩
    · rw [jobs]
      exact isOver.carried.known
    · rw [sound'.idle] at member
      cases member
    · exact isOver.onWay h start ((settled h j).orders start member)

structure Submitted (conf : Conf) (uid gid : Nat) (request : WireJobSubmit) (j : JobId)
    (s : System) : Prop where
  made : ∃ before env after, Reachable conf (Legibly anyStep) before ∧
    step conf before (.submit env uid gid request) = some after ∧ before.mbd.jobs j = none ∧
    (after.mbd.jobs j).isSome = true ∧ Leads conf (Legibly anyStep) after s

variable {uid gid : Nat} {request : WireJobSubmit}

theorem Submitted.sound (submitted : Submitted conf uid gid request j s) : Sound conf s := by
  obtain ⟨before, env, after, reached, taken, _, _, later⟩ := submitted.made
  have legible : Label.Rereads before (.submit env uid gid request) := trivial
  exact (reached.sound.step legible taken).steps later

theorem Submitted.carriedOver (submitted : Submitted conf uid gid request j s) :
    CarriedOver ⟨uid, gid, strlcpy 64 request.username⟩ j s := by
  obtain ⟨before, env, after, reached, taken, fresh, created, later⟩ := submitted.made
  have sound := reached.sound
  have legible : Label.Rereads before (.submit env uid gid request) := trivial
  have sound' := sound.step legible taken
  obtain ⟨job, found⟩ := isSome_iff_exists.mp created
  have start : CarriedOver ⟨uid, gid, strlcpy 64 request.username⟩ j after := by
    obtain ⟨_, taken⟩ := ite_none_right_eq_some.mp taken
    obtain ⟨⟨m, answer⟩, done, rfl⟩ := map_eq_some_iff.mp taken
    obtain ⟨owner, group, name, above, saved⟩ := jobRegister_issued sound.wf done fresh found
    refine ⟨⟨fun other there => ?_, saved, fun h start member => absurd member List.not_mem_nil⟩,
      fun h start member about => ?_⟩
    · have same : other = job := Option.some.inj (there.symm.trans found)
      rw [same, jobIdentity, owner, group, name]
    · -- nothing spoke of the job before it was there
      have silent : m.outbox = [] := (jobRegister_spec sound.wf.idsCounted done).outbox.trans sound.idle
      change .newJob start ∈ (deliverAll before.links m.outbox h).toSbd at member
      rw [silent] at member
      have mentioned : Mentions (before.links h) (before.sbds h) j :=
        Or.inr (Or.inr ⟨_, member, Or.inl (by simp [asks, starts, about])⟩)
      exact absurd above (Int.not_lt.mpr (((sound.linked h).job j).saved mentioned))
  exact Steps.invariant_over (Sound conf) (CarriedOver _ j) (fun run => sound'.steps run) start
    (fun sound isOver may taken => isOver.step sound (sound.step may.2 taken) may.2 taken) later

/-! ### What the name decides -/

/-- The queue is open to everybody, or has both names, or neither. -/
def SameRights (q : QueueConf) (a b : String) : Prop :=
  q.users = [] ∨ (a ∈ q.users ↔ b ∈ q.users)

variable {q : QueueConf} {a b : String}

theorem queueUserAllowed_eq_iff :
    queueUserAllowed q a = queueUserAllowed q b ↔ SameRights q a b := by
  unfold queueUserAllowed SameRights
  cases users : q.users with
  | nil => simp
  | cons user others =>
    rw [Bool.eq_iff_iff]
    simp

def admitted (conf : Conf) (now : Time) (id : JobId) (uid gid : Nat) (request : WireJobSubmit) :
    Bool :=
  (jobAlloc conf now id uid gid (normalizeSubmit conf request)).isOk

theorem admitted_eq (now : Time) (id : JobId) (uid gid : Nat) (request : WireJobSubmit) :
    admitted conf now id uid gid request =
      (conf.findQueue (normalizeSubmit conf request).queue).any fun q =>
        queueUserAllowed q (strlcpy 64 request.username) := by
  unfold admitted jobAlloc
  cases known : conf.findQueue (normalizeSubmit conf request).queue with
  | none => rfl
  | some q =>
    have name : (normalizeSubmit conf request).username = request.username := rfl
    rw [any_some, ← name]
    simp only
    cases queueUserAllowed q (strlcpy 64 (normalizeSubmit conf request).username) <;> rfl

theorem jobMove_status {now : Time} {job : JobData} {toQueue : QueueName} (wf : Wf conf m)
    (found : m.jobs j = some job) (waiting : job.state.isWaiting = true) (owner : job.uid = uid)
    (known : conf.findQueue toQueue = some q) : (jobMove conf m now uid j toQueue).map Prod.snd =
      some (if queueUserAllowed q job.user then .ok else .eperm) := by
  obtain ⟨source, ofQueue, _⟩ := (wf.job found).queue
  simp only [jobMove, found, known, if_pos waiting]
  rw [if_neg fun foreign => foreign.1 owner]
  cases queueUserAllowed q job.user with
  | false => rfl
  | true =>
    rw [ofQueue]
    rfl

variable {other : String}

/--
Two submissions with the same header that differ in the name only.  The queue they
name takes both or neither exactly when it makes no difference between the names;
the same holds for every queue the jobs are moved to; and the processes get the
same groups on a host exactly when its database gives both names the same ones.
-/
theorem same_treatment_iff (initgroups : String → Nat → Option (List Nat)) :
    (∀ (now : Time) (id : JobId), admitted conf now id uid gid request =
          admitted conf now id uid gid { request with username := other } ↔
        ∀ q, conf.findQueue (normalizeSubmit conf request).queue = some q →
          SameRights q (strlcpy 64 request.username) (strlcpy 64 other)) ∧
    ∀ (s s' : System) (j j' : JobId), Submitted conf uid gid request j s →
      Submitted conf uid gid { request with username := other } j' s' →
      (∀ (job job' : JobData) (now : Time) (toQueue : QueueName) (q : QueueConf),
        s.mbd.jobs j = some job → s'.mbd.jobs j' = some job' → job.state.isWaiting = true →
        job'.state.isWaiting = true → conf.findQueue toQueue = some q →
        ((jobMove conf s.mbd now uid j toQueue).map Prod.snd =
            (jobMove conf s'.mbd now uid j' toQueue).map Prod.snd ↔
          SameRights q (strlcpy 64 request.username) (strlcpy 64 other))) ∧
      ∀ (h : HostName) (start start' : WireJobStart), .newJob start ∈ (s.links h).toSbd →
        .newJob start' ∈ (s'.links h).toSbd → start.jobId = j → start'.jobId = j' →
        ((setUserId initgroups start).map Credentials.groups =
            (setUserId initgroups start').map Credentials.groups ↔
          initgroups (strlcpy 64 request.username) gid = initgroups (strlcpy 64 other) gid) := by
  refine ⟨fun now id => ?_, fun s s' j j' first second => ⟨?_, ?_⟩⟩
  · rw [admitted_eq, admitted_eq]
    change (conf.findQueue (normalizeSubmit conf request).queue).any _ =
      (conf.findQueue (normalizeSubmit conf request).queue).any _ ↔ _
    cases conf.findQueue (normalizeSubmit conf request).queue with
    | none => simp
    | some q =>
      rw [any_some, any_some, queueUserAllowed_eq_iff]
      exact ⟨fun same q' here => Option.some.inj here ▸ same, fun same => same q rfl⟩
  · intro job job' now toQueue q found found' waiting waiting' known
    have here := first.carriedOver.carried.known job found
    have there := second.carriedOver.carried.known job' found'
    have user : job.user = strlcpy 64 request.username := congrArg Identity.user here
    have user' : job'.user = strlcpy 64 other := congrArg Identity.user there
    rw [jobMove_status first.sound.wf found waiting (congrArg Identity.uid here) known,
      jobMove_status second.sound.wf found' waiting' (congrArg Identity.uid there) known,
      user, user', ← queueUserAllowed_eq_iff]
    cases queueUserAllowed q (strlcpy 64 request.username) <;>
      cases queueUserAllowed q (strlcpy 64 other) <;> simp
  · intro h start start' member member' about about'
    have here := first.carriedOver.onWay h start member about
    have there := second.carriedOver.onWay h start' member' about'
    have groups : ∀ {start : WireJobStart} {name : String},
        startIdentity start = ⟨uid, gid, strlcpy 64 name⟩ →
        (setUserId initgroups start).map Credentials.groups = initgroups (strlcpy 64 name) gid := by
      intro start name same
      have user : start.username = strlcpy 64 name := congrArg Identity.user same
      have group : start.gid = gid := congrArg Identity.gid same
      rw [setUserId, user, group, strlcpy_strlcpy, Nat.min_self]
      cases initgroups (strlcpy 64 name) gid <;> rfl
    rw [groups here, groups there]

def submittedRun (conf : Conf) (front : List Label) (env : SubmitEnv) (uid gid : Nat)
    (request : WireJobSubmit) (j : JobId) (back : List Label) : Option System := do
  let before ← runOf conf (rereading fun _ _ => true) front
  let after ← step conf before (.submit env uid gid request)
  if before.mbd.jobs j = none ∧ (after.mbd.jobs j).isSome = true then
    execute (step conf) (rereading fun _ _ => true) after back
  else none

theorem submitted_of_submittedRun {front back : List Label} {env : SubmitEnv}
    (ran : submittedRun conf front env uid gid request j back = some s) :
    Submitted conf uid gid request j s := by
  rw [submittedRun] at ran
  obtain ⟨before, executed, ran⟩ := bind_eq_some_iff.mp ran
  obtain ⟨after, taken, ran⟩ := bind_eq_some_iff.mp ran
  split at ran
  next made =>
    have later : Leads conf (Legibly anyStep) after s :=
      steps_of_execute (fun _ _ _ => legibly_of_rereading fun _ => trivial) ran
    exact ⟨before, env, after, legibly_of_runOf executed, taken, made.1, made.2, later⟩
  next => cases ran

def startedAs (name : String) : Option System :=
  submittedRun smallConf (join "h1" 5)
    { now := 1, filesOk := fun _ => true, replyOk := true, junk := fun _ => 0 } 1 1
    { plainRequest with username := name } 1 [.timer 2 fun _ => true]

def waitingStart (s : System) : Option WireJobStart :=
  match (s.links "h1").toSbd with
  | [.newJob start] => some start
  | _ => none

theorem mem_of_waitingStart {start : WireJobStart} (waiting : waitingStart s = some start) :
    .newJob start ∈ (s.links "h1").toSbd := by
  unfold waitingStart at waiting
  split at waiting
  next found =>
    cases waiting
    rw [found]
    exact List.mem_cons_self
  next => cases waiting

/-- A database in which the second name is in one more group. -/
def twoNames (user : String) (gid : Nat) : Option (List Nat) :=
  some (if user = "bob" then [gid, 50] else [gid])

theorem same_treatment_iff_startedAs :
    ∃ s s' start start', Submitted smallConf 1 1 { plainRequest with username := "alice" } 1 s ∧
      Submitted smallConf 1 1 { plainRequest with username := "carol" } 1 s' ∧
      waitingStart s = some start ∧ waitingStart s' = some start' ∧
      (setUserId twoNames start).map Credentials.groups =
        (setUserId twoNames start').map Credentials.groups := by
  have started : ∀ name ∈ ["alice", "carol"], ∃ s ∈ startedAs name, ∃ start ∈ waitingStart s,
      start.jobId = 1 := by decide +kernel
  obtain ⟨s, ran, start, here, id⟩ := started "alice" (by simp)
  obtain ⟨s', ran', start', there, id'⟩ := started "carol" (by simp)
  have first := submitted_of_submittedRun ran
  have second := submitted_of_submittedRun ran'
  have groups := ((same_treatment_iff twoNames).2 s s' 1 1 first second).2 "h1" start start'
    (mem_of_waitingStart here) (mem_of_waitingStart there) id id'
  exact ⟨s, s', start, start', first, second, here, there, groups.mpr (by decide +kernel)⟩

def guardedConf : Conf :=
  { smallConf with
    queues := [{ name := "normal", priority := 1, hosts := ["h1", "h2"], users := ["alice"] }]
    queues_nodup := by decide
    queue_hosts := by decide
    queue_names_fit := by decide }

theorem not_same_treatment :
    ["alice", "bob"].map (fun name =>
        (admitted guardedConf 1 1 1 1 { plainRequest with username := name },
          ((startedAs name).bind waitingStart).bind fun start =>
            (setUserId twoNames start).map Credentials.groups)) =
      [(true, some [1]), (false, some [1, 50])] ∧
    (¬ ∀ (conf : Conf) (now : Time) (id : JobId) (uid gid : Nat) (request : WireJobSubmit)
        (other : String), admitted conf now id uid gid request =
          admitted conf now id uid gid { request with username := other }) ∧
    ¬ ∀ (conf : Conf) (initgroups : String → Nat → Option (List Nat)) (uid gid : Nat)
        (request : WireJobSubmit) (other : String) (s s' : System) (j j' : JobId) (h : HostName)
        (start start' : WireJobStart), Submitted conf uid gid request j s →
        Submitted conf uid gid { request with username := other } j' s' →
        .newJob start ∈ (s.links h).toSbd → .newJob start' ∈ (s'.links h).toSbd →
        start.jobId = j → start'.jobId = j' → (setUserId initgroups start).map Credentials.groups =
            (setUserId initgroups start').map Credentials.groups := by
  refine ⟨by decide +kernel, fun always => ?_, fun always => ?_⟩
  · have same := always guardedConf 1 1 1 1 { plainRequest with username := "alice" } "bob"
    exact absurd same (by decide +kernel)
  · obtain ⟨s, ran, s', ran', start, here, start', there, id, id', differ⟩ :
        ∃ s ∈ startedAs "alice", ∃ s' ∈ startedAs "bob", ∃ start ∈ waitingStart s,
          ∃ start' ∈ waitingStart s', start.jobId = 1 ∧ start'.jobId = 1 ∧
            (setUserId twoNames start).map Credentials.groups ≠
              (setUserId twoNames start').map Credentials.groups := by
      decide +kernel
    exact differ (always smallConf twoNames 1 1 { plainRequest with username := "alice" } "bob" s s'
      1 1 "h1" start start' (submitted_of_submittedRun ran) (submitted_of_submittedRun ran')
      (mem_of_waitingStart here) (mem_of_waitingStart there) id id')

end LavaLite.Cluster
