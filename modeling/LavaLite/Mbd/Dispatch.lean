import LavaLite.Mbd.Placement

/-
The failure exits of `mbd_dispatch_job`, none of which takes the marks of the devices back,
and the send list of a channel: `enqueue_payload` and `enqueue_header` append a buffer
(`sbd_enqueue_payload` has the same steps) and `dowrite` takes it off.  The last step of an
enqueue can fail with the buffer on the list, and frees it there.
-/

namespace LavaLite.Mbd

open Base Batch Kernel Function Option

/-- The steps of `enqueue_payload` that can fail, in their order. -/
inductive EnqueueStep where
  | allocBuf
  | encodeMsg
  | enqueue
  | setWriteInterest
  deriving DecidableEq, Repr

/-- Where `mbd_dispatch_job` gives up. -/
inductive DispatchFailure where
  | signHeader
  | enqueuePayload (step : EnqueueStep)
  deriving DecidableEq, Repr

/-- An entry of the send queue of a channel: a message, or a buffer that was freed there. -/
inductive SendEntry where
  | message (msg : MbdMsg)
  | freed
  deriving DecidableEq, Repr

/-- `enqueue_payload` on a send queue: the queue it leaves, and whether it succeeds. -/
def enqueuePayload (queue : List SendEntry) (msg : MbdMsg) :
    Option EnqueueStep → List SendEntry × Bool
  | none => (queue ++ [.message msg], true)
  | some .allocBuf => (queue, false)
  | some .encodeMsg => (queue, false)
  | some .enqueue => (queue, false)
  | some .setWriteInterest => (queue ++ [.freed], false)

/-- mbd together with the send queues of the channels to the sbds. -/
structure Sending where
  mbd : MbdState
  queued : HostName → List SendEntry

def Sending.setQueue (s : Sending) (h : HostName) (queue : List SendEntry) : Sending :=
  { s with queued := update s.queued h queue }

/-- `mbd_dispatch_job`, with the step that fails if one does. -/
def dispatchJob (s : Sending) (now : Time) (j : JobId) (job : JobData) (queue : QueueName)
    (failure : Option DispatchFailure) : Option (Sending × Option JobData) := do
  let h ← job.runHosts.head?
  if (s.mbd.hosts h).sbdChan ≤ 0 then none
  else
    let (m, job) ← assignDevices s.mbd j job h
    let s := { s with mbd := m }
    let msg := MbdMsg.newJob (wireJobStart job queue)
    match failure with
    | some .signHeader => some (s, none)
    | some (.enqueuePayload step) =>
      some (s.setQueue h (enqueuePayload (s.queued h) msg (some step)).1, none)
    | none =>
      let s := s.setQueue h (enqueuePayload (s.queued h) msg none).1
      let m := s.mbd.send h msg
      let job := { job with
        dispatchTime := now
        state := .running }
      let m := m.log (eventJobStart job)
      some ({ s with mbd := m.jobMoveList j job .pend .run }, some { job with listId := .run })

/-- Everything a dispatch works on but the texts of the job is as it was. -/
structure Untraced (s s' : Sending) : Prop where
  hosts : s'.mbd.hosts = s.mbd.hosts
  queues : s'.mbd.queues = s.mbd.queues
  pools : s'.mbd.pools = s.mbd.pools
  depRefcnt : s'.mbd.depRefcnt = s.mbd.depRefcnt
  elements : s'.mbd.arrayElementCnt = s.mbd.arrayElementCnt
  pend : s'.mbd.pend = s.mbd.pend
  run : s'.mbd.run = s.mbd.run
  finish : s'.mbd.finish = s.mbd.finish
  manifest : s'.mbd.manifest = s.mbd.manifest
  queued : s'.queued = s.queued

variable {s s' : Sending} {now : Time} {j : JobId} {job : JobData} {queue : QueueName}
  {h : HostName} {failure : DispatchFailure}

theorem dispatchJob_mbd (s : Sending) (now : Time) (j : JobId) (job : JobData) (queue : QueueName)
    (failure : Option DispatchFailure) :
    (dispatchJob s now j job queue failure).map (fun r => (r.1.mbd, r.2)) =
      mbdDispatchJob s.mbd now j job queue failure.isNone := by
  unfold dispatchJob mbdDispatchJob
  cases job.runHosts.head? with
  | none => rfl
  | some h =>
    simp only [bind_eq_bind, bind_some]
    split
    · rfl
    · cases assignDevices s.mbd j job h with
      | none => rfl
      | some result =>
        cases failure with
        | none => rfl
        | some failure => cases failure <;> rfl

theorem assignGpus_eq_self_iff (n : Nat) (gpus : List GpuId) :
    (assignGpus (n + 1) gpus).1 = gpus ↔ ∀ g ∈ gpus, g.inUse = true := by
  induction gpus with
  | nil => simp [assignGpus]
  | cons g gpus ih =>
    rw [assignGpus, List.forall_mem_cons]
    cases used : g.inUse with
    | true => simp [ih]
    | false =>
      simp only [Bool.false_eq_true, if_false, List.cons.injEq, false_and, iff_false, not_and]
      intro same
      rw [← same] at used
      cases used

theorem dispatchJob_failed (first : job.runHosts.head? = some h)
    (done : dispatchJob s now j job queue (some failure) = some (s', none)) :
    ∃ m job', assignDevices s.mbd j job h = some (m, job') ∧ s'.mbd = m ∧
      s'.queued = if failure = .enqueuePayload .setWriteInterest then
        update s.queued h (s.queued h ++ [.freed]) else s.queued := by
  unfold dispatchJob at done
  rw [first, bind_eq_bind, bind_some] at done
  split at done
  · cases done
  · obtain ⟨⟨m, job'⟩, assigned, done⟩ := bind_eq_some_iff.mp done
    refine ⟨m, job', assigned, ?_⟩
    cases failure with
    | signHeader =>
      cases done
      exact ⟨rfl, rfl⟩
    | enqueuePayload step =>
      cases step with
      | setWriteInterest =>
        cases done
        exact ⟨rfl, rfl⟩
      | _ =>
        cases done
        exact ⟨rfl, update_eq_self h s.queued⟩

theorem assignDevices_frame {m m' : MbdState} {job' : JobData}
    (assigned : assignDevices m j job h = some (m', job')) :
    m'.queues = m.queues ∧ m'.pools = m.pools ∧ m'.depRefcnt = m.depRefcnt ∧
      m'.arrayElementCnt = m.arrayElementCnt ∧ m'.pend = m.pend ∧ m'.run = m.run ∧
      m'.finish = m.finish ∧ m'.manifest = m.manifest ∧
      (m'.hosts = m.hosts ↔ (0 < job.res.numGpus → ∀ g ∈ (m.hosts h).gpus, g.inUse = true)) := by
  unfold assignDevices at assigned
  split at assigned
  next asks =>
    obtain ⟨⟨gpus, text⟩, built, assigned⟩ := bind_eq_some_iff.mp assigned
    cases assigned
    refine ⟨rfl, rfl, rfl, rfl, rfl, rfl, rfl, rfl, ?_⟩
    unfold buildGpuAssignedStr at built
    split at built
    · cases built
      obtain ⟨n, count⟩ := Nat.exists_eq_succ_of_ne_zero
        (show job.res.numGpus.toNat ≠ 0 by omega)
      rw [imp_iff_right asks, ← assignGpus_eq_self_iff n, count]
      change update m.hosts h _ = m.hosts ↔ _
      rw [update_eq_self_iff]
      constructor
      · intro same
        exact congrArg HostData.gpus same
      · intro same
        rw [same]
    · cases built
  next none =>
    cases assigned
    exact ⟨rfl, rfl, rfl, rfl, rfl, rfl, rfl, rfl, fun _ asks => absurd asks none, fun _ => rfl⟩

theorem untraced_iff (first : job.runHosts.head? = some h)
    (done : dispatchJob s now j job queue (some failure) = some (s', none)) :
    Untraced s s' ↔ failure ≠ .enqueuePayload .setWriteInterest ∧
      (0 < job.res.numGpus → ∀ g ∈ (s.mbd.hosts h).gpus, g.inUse = true) := by
  obtain ⟨m, job', assigned, rfl, queued⟩ := dispatchJob_failed first done
  obtain ⟨queues, pools, refs, elements, pend, run, finish, manifest, hosts⟩ :=
    assignDevices_frame assigned
  constructor
  · intro untraced
    refine ⟨fun interest => ?_, hosts.mp untraced.hosts⟩
    rw [if_pos interest] at queued
    have same := congrFun (queued.symm.trans untraced.queued) h
    rw [update_self] at same
    exact absurd (congrArg List.length same) (by simp)
  · rintro ⟨other, used⟩
    rw [if_neg other] at queued
    exact ⟨hosts.mpr used, queues, pools, refs, elements, pend, run, finish, manifest, queued⟩

/-! ### Cycles in which every dispatch fails -/

/-- What the jobs of later cycles can use, and all else a failed cycle must keep. -/
structure SameSupply (m m' : MbdState) : Prop where
  hosts : ∀ h, { m'.hosts h with candidate := false } = { m.hosts h with candidate := false }
  queues : m'.queues = m.queues
  pools : m'.pools = m.pools
  depRefcnt : m'.depRefcnt = m.depRefcnt
  elements : m'.arrayElementCnt = m.arrayElementCnt
  pend : m'.pend.Perm m.pend
  run : m'.run = m.run
  finish : m'.finish = m.finish
  manifest : m'.manifest = m.manifest
  requests : ∀ j, (m'.jobs j).map JobData.res = (m.jobs j).map JobData.res

/-- Cycles one after the other, at any times, in which no message can be queued. -/
abbrev FailedCycles (conf : Conf) : MbdState → MbdState → Prop :=
  Relation.ReflTransGen fun m m' => ∃ now, schedule conf m now (fun _ => false) = some m'

def NoDevices (m : MbdState) (jobs : List JobId) : Prop :=
  ∀ j ∈ jobs, ∀ job, m.jobs j = some job → job.res.numGpus ≤ 0

variable {conf : Conf} {m m' m'' : MbdState}

theorem SameSupply.refl (m : MbdState) : SameSupply m m :=
  ⟨fun _ => rfl, rfl, rfl, rfl, rfl, .refl _, rfl, rfl, rfl, fun _ => rfl⟩

theorem SameSupply.trans (first : SameSupply m m') (second : SameSupply m' m'') :
    SameSupply m m'' where
  hosts := fun h => (second.hosts h).trans (first.hosts h)
  queues := second.queues.trans first.queues
  pools := second.pools.trans first.pools
  depRefcnt := second.depRefcnt.trans first.depRefcnt
  elements := second.elements.trans first.elements
  pend := second.pend.trans first.pend
  run := second.run.trans first.run
  finish := second.finish.trans first.finish
  manifest := second.manifest.trans first.manifest
  requests := fun j => (second.requests j).trans (first.requests j)

theorem SameSupply.noDevices (same : SameSupply m m') {jobs : List JobId}
    (none : NoDevices m jobs) : NoDevices m' jobs := by
  intro j member job' found
  have kept := same.requests j
  rw [found, map_some] at kept
  obtain ⟨job, before, res⟩ := map_eq_some_iff.mp kept.symm
  rw [← res]
  exact none j member job before

theorem sameSupply_setJob {job' : JobData} (found : m.jobs j = some job)
    (res : job'.res = job.res) : SameSupply m (m.setJob j job') := by
  refine ⟨fun _ => rfl, rfl, rfl, rfl, rfl, .refl _, rfl, rfl, rfl, fun i => ?_⟩
  change (update m.jobs j (some job') i).map JobData.res = _
  by_cases same : i = j
  · subst same
    rw [update_self, found, map_some, map_some, res]
  · rw [update_of_ne same]

theorem scheduleJob_sameSupply {turn : Turn} {free : Int}
    (done : scheduleJob conf now (fun _ => false) m j free = some turn)
    (plain : ∀ job, m.jobs j = some job → job.res.numGpus ≤ 0) : SameSupply m turn.state := by
  obtain ⟨job, found, ⟨reason, rfl, _⟩ | ⟨queue, plan, _, _, started⟩⟩ := scheduleJob_cases done
  · exact sameSupply_setJob found rfl
  · unfold startPlanned at started
    obtain ⟨⟨m₁, sent⟩, dispatched, started⟩ := bind_eq_some_iff.mp started
    unfold mbdDispatchJob at dispatched
    obtain ⟨h, _, dispatched⟩ := bind_eq_some_iff.mp dispatched
    split at dispatched
    · cases dispatched
    · have none : ¬job.res.numGpus > 0 := Int.not_lt.mpr (plain job found)
      rw [assignDevices, if_neg none] at dispatched
      cases dispatched
      cases started
      exact sameSupply_setJob found rfl

theorem scheduleLoop_sameSupply {jobs : List JobId} {free : Int}
    (done : scheduleLoop conf now (fun _ => false) jobs m free = some m') (plain : NoDevices m jobs) :
    SameSupply m m' := by
  induction jobs generalizing m m' free with
  | nil =>
    cases done
    exact .refl _
  | cons j rest ih =>
    obtain ⟨turn, first, done⟩ := bind_eq_some_iff.mp done
    have same := scheduleJob_sameSupply first (plain j List.mem_cons_self)
    split at done
    · cases done
      exact same
    · have others : NoDevices m rest := fun i member => plain i (List.mem_cons_of_mem _ member)
      exact same.trans (ih done (same.noDevices others))

theorem schedule_sameSupply (done : schedule conf m now (fun _ => false) = some m')
    (plain : NoDevices m m.pend) : SameSupply m m' := by
  have marked : SameSupply m (markCandidates conf m).1 :=
    ⟨fun _ => rfl, rfl, rfl, rfl, rfl, .refl _, rfl, rfl, rfl, fun _ => rfl⟩
  unfold schedule at done
  split at done
  · cases done
    exact .refl _
  · dsimp only at done
    split at done
    · cases done
      exact marked
    · split at done
      · cases done
      · have sorted := conf.qsort_perm (pendJobCmp conf (markCandidates conf m).1) m.pend
        have arranged : SameSupply m { (markCandidates conf m).1 with
            pend := conf.qsort (pendJobCmp conf (markCandidates conf m).1) m.pend } :=
          { marked with pend := sorted }
        apply arranged.trans (scheduleLoop_sameSupply done _)
        intro j member
        exact plain j (sorted.mem_iff.mp member)

theorem FailedCycles.sameSupply (cycles : FailedCycles conf m m') (plain : NoDevices m m.pend) :
    SameSupply m m' := by
  induction cycles with
  | refl => exact .refl _
  | tail _ last ih =>
    obtain ⟨now, done⟩ := last
    have there : NoDevices _ _ := ih.noDevices plain
    exact ih.trans (schedule_sameSupply done fun j member => there j (ih.pend.mem_iff.mp member))

/-! ### The bytes of a channel -/

open List

/-- A buffer of the send list, with the number of the call that allocated it. -/
structure SendBuffer where
  data : List UInt8
  pos : Nat
  call : Nat
  freed : Bool
  deriving DecidableEq

/-- The send list, the bytes on the socket, and for each call the message it accepted. -/
structure SendSide where
  send : List SendBuffer
  written : List UInt8
  calls : List (Option (List UInt8))
  deriving DecidableEq

def SendSide.start : SendSide :=
  ⟨[], [], []⟩

/-- `ll_list_append`; `none` where it writes to a buffer that was freed. -/
def appendBuffer (send : List SendBuffer) (b : SendBuffer) : Option (List SendBuffer) :=
  if send.getLast?.any (·.freed) then none else some (send ++ [b])

/-- A call that is to send a message, with the step that fails if one does. -/
def SendSide.enqueue (s : SendSide) (message : List UInt8) :
    Option EnqueueStep → Option SendSide
  | none => do
    let send ← appendBuffer s.send ⟨message, 0, s.calls.length, false⟩
    some ⟨send, s.written, s.calls ++ [some message]⟩
  | some .setWriteInterest => do
    let send ← appendBuffer s.send ⟨message, 0, s.calls.length, true⟩
    some ⟨send, s.written, s.calls ++ [none]⟩
  | some _ => some ⟨s.send, s.written, s.calls ++ [none]⟩

/-- What the kernel makes of a `write`. -/
inductive Writing where
  /-- `EAGAIN`, `EWOULDBLOCK` or `EINTR`. -/
  | again
  /-- Another error. -/
  | failed
  /-- At most `n` bytes of those that were given. -/
  | bytes (n : Nat)
  deriving DecidableEq

/-- `dowrite`; `none` where it uses a buffer that was freed. -/
def SendSide.dowrite (s : SendSide) (writing : Writing) : Option SendSide :=
  match s.send with
  | [] => some s
  | sendbuf :: rest =>
    if sendbuf.freed then none
    else
      match writing with
      | .again => some s
      | .failed => some s
      | .bytes n =>
        let chunk := (sendbuf.data.drop sendbuf.pos).take n
        let sendbuf := { sendbuf with pos := sendbuf.pos + chunk.length }
        if sendbuf.pos = sendbuf.data.length then
          if rest.head?.any (·.freed) then none else some { s with
            send := rest
            written := s.written ++ chunk }
        else some { s with
          send := sendbuf :: rest
          written := s.written ++ chunk }

inductive SendEvent where
  | enqueue (message : List UInt8) (failure : Option EnqueueStep)
  | write (writing : Writing)
  deriving DecidableEq

def SendSide.step (s : SendSide) : SendEvent → Option SendSide
  | .enqueue message failure => s.enqueue message failure
  | .write writing => s.dowrite writing

def SendSide.run (s : SendSide) (events : List SendEvent) : Option SendSide :=
  events.foldlM SendSide.step s

def SendSide.accepted (s : SendSide) : List (List UInt8) :=
  s.calls.filterMap id

/--
The socket has a prefix of the accepted messages, and every buffer on the list is that of
a call that reported success.
-/
structure SendSide.Intact (s : SendSide) : Prop where
  written : s.written <+: s.accepted.flatten
  send : ∀ b ∈ s.send, ∃ message, s.calls[b.call]? = some (some message)

def unsent (send : List SendBuffer) : List UInt8 :=
  send.flatMap fun b => b.data.drop b.pos

/-- Nothing is lost between the accepted messages and the socket. -/
structure SendSide.Whole (s : SendSide) : Prop where
  bytes : s.written ++ unsent s.send = s.accepted.flatten
  live : ∀ b ∈ s.send, b.freed = false
  called : ∀ b ∈ s.send, ∃ message, s.calls[b.call]? = some (some message)

variable {s : SendSide}

theorem SendSide.Whole.intact (whole : s.Whole) : s.Intact where
  written := ⟨unsent s.send, whole.bytes⟩
  send := whole.called

theorem SendSide.whole_start : SendSide.start.Whole where
  bytes := rfl
  live := nofun
  called := nofun

theorem called_append {calls : List (Option (List UInt8))} {i : Nat} (last : Option (List UInt8))
    (called : ∃ message, calls[i]? = some (some message)) :
    ∃ message, (calls ++ [last])[i]? = some (some message) := by
  obtain ⟨message, found⟩ := called
  obtain ⟨inside, -⟩ := List.getElem?_eq_some_iff.mp found
  exact ⟨message, by rw [getElem?_append_left inside]; exact found⟩

theorem appendBuffer_live {send : List SendBuffer} (live : ∀ b ∈ send, b.freed = false)
    (b : SendBuffer) : appendBuffer send b = some (send ++ [b]) := by
  refine if_neg fun freed => ?_
  obtain ⟨last, isLast, gone⟩ := (Option.any_eq_true _ _).mp freed
  exact Bool.false_ne_true ((live last (mem_of_getLast? isLast)).symm.trans gone)

theorem SendSide.Whole.refuse (whole : s.Whole) :
    SendSide.Whole ⟨s.send, s.written, s.calls ++ [none]⟩ where
  bytes := by
    have accepted : (s.calls ++ [none]).filterMap id = s.accepted :=
      filterMap_append.trans (append_nil _)
    exact whole.bytes.trans (congrArg List.flatten accepted.symm)
  live := whole.live
  called := fun b member => called_append none (whole.called b member)

theorem SendSide.Whole.accept (whole : s.Whole) (message : List UInt8) :
    SendSide.Whole ⟨s.send ++ [⟨message, 0, s.calls.length, false⟩], s.written,
      s.calls ++ [some message]⟩ where
  bytes := by
    have bytes := whole.bytes
    simp only [accepted, unsent] at bytes ⊢
    rw [filterMap_append, flatMap_append, ← append_assoc, bytes]
    simp
  live := by
    intro b member
    rcases mem_append.mp member with old | new
    · exact whole.live b old
    · rw [mem_singleton.mp new]
  called := by
    intro b member
    rcases mem_append.mp member with old | new
    · exact called_append _ (whole.called b old)
    · rw [mem_singleton.mp new]
      exact ⟨message, getElem?_concat_length⟩

theorem SendSide.Whole.enqueue (whole : s.Whole) (message : List UInt8)
    {failure : Option EnqueueStep} (other : failure ≠ some .setWriteInterest) :
    ∃ s', s.enqueue message failure = some s' ∧ s'.Whole := by
  cases failure with
  | none =>
    refine ⟨_, ?_, whole.accept message⟩
    rw [SendSide.enqueue, appendBuffer_live whole.live]
    rfl
  | some failed =>
    cases failed with
    | allocBuf | encodeMsg | enqueue => exact ⟨_, rfl, whole.refuse⟩
    | setWriteInterest => exact absurd rfl other

theorem SendSide.Whole.dowrite (whole : s.Whole) (writing : Writing) :
    ∃ s', s.dowrite writing = some s' ∧ s'.Whole := by
  obtain ⟨send, out, calls⟩ := s
  cases send with
  | nil => exact ⟨_, rfl, whole⟩
  | cons sendbuf rest =>
    obtain ⟨first, live⟩ := forall_mem_cons.mp whole.live
    obtain ⟨firstCalled, called⟩ := forall_mem_cons.mp whole.called
    dsimp only [SendSide.dowrite]
    rw [if_neg (Bool.eq_false_iff.mp first)]
    cases writing with
    | again | failed => exact ⟨_, rfl, whole⟩
    | bytes n =>
      have bytes := whole.bytes
      -- what the kernel took, and what is left of the buffer
      have parts := take_append_drop n (sendbuf.data.drop sendbuf.pos)
      rw [drop_drop] at parts
      simp only [unsent, flatMap_cons, accepted] at bytes
      dsimp only
      split
      next finished =>
        rw [if_neg (by
          intro freed
          obtain ⟨next, isNext, gone⟩ := (Option.any_eq_true _ _).mp freed
          exact Bool.false_ne_true ((live next (mem_of_head? isNext)).symm.trans gone))]
        refine ⟨_, rfl, ?_, live, called⟩
        have all : (sendbuf.data.drop sendbuf.pos).take n = sendbuf.data.drop sendbuf.pos := by
          refine take_of_length_le ?_
          rw [length_take, length_drop] at finished
          rw [length_drop]
          omega
        rw [all, unsent, append_assoc]
        exact bytes
      next unfinished =>
        refine ⟨_, rfl, ?_, forall_mem_cons.mpr ⟨first, live⟩,
          forall_mem_cons.mpr ⟨firstCalled, called⟩⟩
        have left : sendbuf.data.drop
            (sendbuf.pos + ((sendbuf.data.drop sendbuf.pos).take n).length) =
              sendbuf.data.drop (sendbuf.pos + n) := by
          rw [length_take, length_drop]
          rcases Nat.le_total n (sendbuf.data.length - sendbuf.pos) with short | long
          · rw [Nat.min_eq_left short]
          · rw [Nat.min_eq_right long, drop_eq_nil_of_le (by omega), drop_eq_nil_of_le (by omega)]
        simp only [unsent, flatMap_cons, left]
        rw [append_assoc, ← append_assoc (List.take _ _), parts]
        exact bytes

theorem SendSide.Whole.run (whole : s.Whole) {events : List SendEvent}
    (kept : ∀ message, .enqueue message (some .setWriteInterest) ∉ events) :
    ∃ s', s.run events = some s' ∧ s'.Whole := by
  induction events generalizing s with
  | nil => exact ⟨s, rfl, whole⟩
  | cons e rest ih =>
    have stepped : ∃ s', s.step e = some s' ∧ s'.Whole := by
      cases e with
      | enqueue message failure =>
        exact whole.enqueue message fun same => kept message (same ▸ mem_cons_self)
      | write writing => exact whole.dowrite writing
    obtain ⟨s', taken, whole'⟩ := stepped
    obtain ⟨last, ran, result⟩ :=
      ih whole' fun message later => kept message (mem_cons_of_mem _ later)
    refine ⟨last, ?_, result⟩
    rw [SendSide.run, foldlM_cons, taken]
    exact ran

theorem SendSide.not_intact {s' : SendSide} {message : List UInt8}
    (failed : s.enqueue message (some .setWriteInterest) = some s') : ¬ s'.Intact := by
  rw [SendSide.enqueue, Option.bind_eq_bind, Option.bind_eq_some_iff] at failed
  obtain ⟨send, appended, result⟩ := failed
  cases result
  rw [appendBuffer, Option.ite_none_left_eq_some] at appended
  obtain ⟨-, same⟩ := appended
  cases same
  intro intact
  obtain ⟨_, called⟩ := intact.send _ (mem_append_right _ mem_cons_self)
  rw [getElem?_concat_length] at called
  cases called

/--
The stream and the list are as they should be after every event of a run exactly if no
call of the run fails at its last step.
-/
theorem outbound_intact_iff (events : List SendEvent) :
    (∀ before, before <+: events → ∃ s, SendSide.start.run before = some s ∧ s.Intact) ↔
      ∀ message, .enqueue message (some .setWriteInterest) ∉ events := by
  constructor
  · intro intact message member
    obtain ⟨before, after, split⟩ := append_of_mem member
    obtain ⟨s, ran, -⟩ := intact before ⟨_, split.symm⟩
    obtain ⟨s', ran', intact'⟩ := intact
      (before ++ [.enqueue message (some .setWriteInterest)]) ⟨after, by simp [split]⟩
    rw [SendSide.run] at ran ran'
    rw [foldlM_append, ran] at ran'
    have failed : s.enqueue message (some .setWriteInterest) = some s' := by
      simpa [SendSide.step] using ran'
    exact SendSide.not_intact failed intact'
  · intro kept before early
    obtain ⟨s, ran, whole⟩ := SendSide.whole_start.run
      fun message member => kept message (early.subset member)
    exact ⟨s, ran, whole.intact⟩

/-- A call that reports failure, and its message is on the list. -/
theorem refused_message_queued :
    ∃ s ∈ SendSide.start.run [.enqueue [1, 2] (some .setWriteInterest)],
      s.calls = [none] ∧ s.send = [⟨[1, 2], 0, 0, true⟩] ∧
        ∀ writing, s.dowrite writing = none :=
  ⟨_, rfl, rfl, rfl, fun _ => rfl⟩

end LavaLite.Mbd
