import LavaLite.Mbd.Story

/-
The replay of a manifest under another configuration than the one it was written
under.  Queues, hosts and devices may be gone: the replay marks a job whose queue or
whose hosts it does not find, goes on, and meets the later records of that job.
-/

namespace LavaLite.Mbd

open Base Batch Kernel List Option

/--
What the replay needs to know of a job besides its story: the queue the job is left
with, the size of its host array, and whether it was marked as orphaned or broken.
-/
structure Standing where
  queue : Option QueueName
  room : Int
  marked : Bool
  deriving DecidableEq, Repr

/-- After the `JOB_NEW` record, unless `replay_alloc` drops it. -/
def Standing.first (conf : Conf) (e : LogJobNew) : Option Standing :=
  let room := (newDetail conf e).res.numHosts
  if room < 0 then none
  else
    some
      { queue := (conf.findQueue e.queue).map QueueConf.name
        room := room
        marked := (conf.findQueue e.queue).isNone }

def Standing.reaches (conf : Conf) (st : Standing) (h : HostName) : Bool :=
  match st.queue with
  | some q => conf.queueHasHost q h
  | none => false

/-- One more record; `none` where the replay cannot take it. -/
def Standing.next (conf : Conf) (st : Standing) : Event → Option Standing
  | .jobNew _ => none
  | .jobStart e =>
    if st.marked then some st
    else if ((e.hosts.takeWhile (st.reaches conf)).length : Int) ≤ st.room then
      some { st with marked := !e.hosts.all (st.reaches conf) }
    else none
  | .jobPend _ _ | .jobPendSusp _ _ | .jobPendResume _ _ => if st.marked then none else some st
  | .jobMove _ _ _ toQueue =>
    match conf.findQueue toQueue with
    | none => some { st with marked := true }
    | some q => some { st with queue := some q.name }
  | .jobFork _ _ _ | .jobSignal _ _ _ _ | .jobFinish _ _ _ _ _ | .jobSusp _ _
  | .jobPriority _ _ _ _ => some st

def follow (conf : Conf) (current : Option Standing) (e : Event) : Option (Option Standing) :=
  match current, e with
  | none, .jobNew e => (Standing.first conf e).map some
  | none, _ => none
  | some st, e => (st.next conf e).map some

def standingOf (conf : Conf) (manifest : List Event) (j : JobId) : Option (Option Standing) :=
  along recordJob (follow conf) j manifest none

def Lost (job : JobData) : Prop :=
  job.listId = .pend ∧ (job.state = .orphan ∨ job.state = .broken)

structure Story.Rebuilt (s : Story) (job : JobData) : Prop where
  listId : job.listId = s.listId
  queue : job.queue = some s.queue
  waiting : s.listId = .pend → job.state = s.state
  running : s.listId = .run → job.state = .running ∧ job.hosts = s.hosts

/-- A job of the replay, by its story and its standing. -/
structure Standing.Stands (st : Standing) (s : Story) (job : JobData) : Prop where
  queue : job.queue = st.queue
  room : job.res.numHosts = st.room ∧ 0 ≤ st.room
  numGpus : job.res.numGpus = s.numGpus
  rebuilt : st.marked = false → s.Rebuilt job
  unplaced : st.marked = false → s.listId = .pend → job.runNhosts = 0 ∧ job.state ≠ .orphan
  ended : s.listId = .finish → job.listId = .finish ∧ job.state ≠ .orphan ∧ job.state ≠ .broken
  orphan : st.marked = true → s.listId = .pend → job.listId = .pend ∧ job.state = .orphan
  broken : st.marked = true → s.listId = .run → Lost job

section Hosts

variable (conf : Conf) {queue : QueueName} {nhosts : Int}

theorem replaySetRunHosts_partial {hosts : List HostName} {job : JobData}
    (ofQueue : job.queue = some queue) (room : (job.runNhosts : Int) ≤ job.res.numHosts)
    (count : (job.runNhosts : Int) + hosts.length = nhosts)
    (left : hosts.all (conf.queueHasHost queue) = false) :
    if (job.runNhosts : Int) + (hosts.takeWhile (conf.queueHasHost queue)).length ≤
        job.res.numHosts then
      ∃ job', replaySetRunHosts conf nhosts hosts job = some (.unknownHost job')
    else replaySetRunHosts conf nhosts hosts job = none := by
  induction hosts generalizing job with
  | nil => cases left
  | cons h rest ih =>
    rw [replaySetRunHosts]
    simp only [ofQueue]
    cases there : conf.queueHasHost queue h with
    | false =>
      rw [takeWhile_cons_of_neg (by rw [there]; decide)]
      rw [if_pos (by simpa using room)]
      exact ⟨job, rfl⟩
    | true =>
      rw [takeWhile_cons_of_pos there]
      rw [all_cons, there, Bool.true_and] at left
      simp only [length_cons] at count ⊢
      have more : ¬ nhosts ≤ (job.runNhosts : Int) := by omega
      simp only [if_true, if_neg more]
      by_cases fits : (job.runNhosts : Int) < job.res.numHosts
      · simp only [if_pos fits]
        have later := @ih { job with
            queue := some queue
            runHosts := job.runHosts.take job.runNhosts ++
              h :: job.runHosts.drop (job.runNhosts + 1)
            runNhosts := job.runNhosts + 1 } rfl (by simp only; omega)
            (by simp only; omega) left
        simp only at later
        have same : ((job.runNhosts + 1 : Nat) : Int) +
            (rest.takeWhile (conf.queueHasHost queue)).length = job.runNhosts +
              ((rest.takeWhile (conf.queueHasHost queue)).length + 1 : Nat) := by
          omega
        rw [same] at later
        exact later
      · have past : ¬ (job.runNhosts : Int) +
            ((rest.takeWhile (conf.queueHasHost queue)).length + 1 : Nat) ≤ job.res.numHosts := by
          omega
        rw [if_neg fits, if_neg past]

theorem hosts_withRunHosts {job : JobData} (unplaced : job.runNhosts = 0) (hosts : List HostName) :
    (withRunHosts job hosts).hosts = hosts := by
  simp only [JobData.hosts, withRunHosts, unplaced, take_zero, nil_append, Nat.zero_add]
  rw [take_append_of_le_length (Nat.le_refl _), take_length]

end Hosts

/-! ### One record -/

/-- The record takes the job along with its standing, or stops the replay as it stops that. -/
inductive Stays (s : Story) : Option Standing → Option JobData → Prop where
  | stops : Stays s none none
  | goes {st : Standing} {job : JobData} (stands : st.Stands s job) : Stays s (some st) (some job)

variable {conf : Conf} {st : Standing} {s s' : Story} {job job' : JobData} {e : Event}
  {state : JobState}

theorem Standing.Stands.reaches (stands : st.Stands s job) (clean : st.marked = false) :
    st.reaches conf = conf.queueHasHost s.queue := by
  funext h
  rw [Standing.reaches, ← stands.queue, (stands.rebuilt clean).queue]

theorem Standing.Stands.start {e : LogJobStart} (stands : st.Stands s job)
    (clean : st.marked = false) (pending : s.listId = .pend)
    (whole : (e.hosts.length : Int) = e.nhosts) :
    Stays { s with listId := .run, state := .running, hosts := e.hosts }
      (st.next conf (.jobStart e)) (startJob conf e job) := by
  have rebuilt := stands.rebuilt clean
  obtain ⟨unplaced, known⟩ := stands.unplaced clean pending
  obtain ⟨numHosts, room⟩ := stands.room
  have total : (job.runNhosts : Int) + e.hosts.length = e.nhosts := by
    rw [unplaced]
    omega
  simp only [Standing.next, clean, Bool.false_eq_true, if_false, stands.reaches clean]
  cases all : e.hosts.all (conf.queueHasHost s.queue) with
  | true =>
    have members := List.all_eq_true.mp all
    rw [takeWhile_eq_self_iff.mpr members, whole]
    split
    next fits =>
      have set : replaySetRunHosts conf e.nhosts e.hosts job = _ :=
        replaySetRunHosts_all rebuilt.queue members total (by omega) fun _ => numHosts ▸ fits
      rw [startJob, if_neg known, set]
      refine .goes ⟨stands.queue, stands.room, stands.numGpus, fun _ => ?_, ?_, ?_, ?_, ?_⟩
      · exact ⟨rfl, rebuilt.queue, ListId.noConfusion,
          fun _ => ⟨rfl, hosts_withRunHosts unplaced e.hosts⟩⟩
      all_goals simp
    next small =>
      cases set : replaySetRunHosts conf e.nhosts e.hosts job with
      | none =>
        rw [startJob, if_neg known, set]
        exact .stops
      | some result =>
        have nonempty : e.hosts ≠ [] := by
          intro empty
          rw [empty, length_nil] at whole
          omega
        have fits := replaySetRunHosts_room rebuilt.queue members total set nonempty
        exact absurd (numHosts ▸ fits) small
  | false =>
    have loop := replaySetRunHosts_partial conf rebuilt.queue (by omega) total all
    rw [unplaced, numHosts, Int.natCast_zero, Int.zero_add] at loop
    split
    next fits =>
      rw [if_pos fits] at loop
      obtain ⟨job', stops⟩ := loop
      obtain ⟨runHosts, n, rfl⟩ := replaySetRunHosts_frame (Or.inr stops)
      rw [startJob, if_neg known, stops]
      refine .goes ⟨stands.queue, stands.room, stands.numGpus, ?_, ?_, ?_, ?_, fun _ _ => ?_⟩
      case refine_5 => exact ⟨rebuilt.listId.trans pending, .inr rfl⟩
      all_goals simp
    next small =>
      rw [if_neg small] at loop
      rw [startJob, if_neg known, loop]
      exact .stops

theorem Standing.Stands.aside (stands : st.Stands s job) (queue : job'.queue = job.queue)
    (res : job'.res = job.res) (listId : job'.listId = job.listId) (state : job'.state = job.state)
    (runNhosts : job'.runNhosts = job.runNhosts) (hosts : job'.hosts = job.hosts) :
    st.Stands s job' := by
  refine ⟨queue.trans stands.queue, res ▸ stands.room, res ▸ stands.numGpus, fun clean => ?_,
    ?_, ?_, ?_, ?_⟩
  · have rebuilt := stands.rebuilt clean
    exact ⟨listId.trans rebuilt.listId, queue.trans rebuilt.queue, state ▸ rebuilt.waiting,
      state ▸ hosts ▸ rebuilt.running⟩
  · exact runNhosts ▸ state ▸ stands.unplaced
  · exact listId ▸ state ▸ stands.ended
  · exact listId ▸ state ▸ stands.orphan
  · unfold Lost
    exact listId ▸ state ▸ stands.broken

theorem Standing.Stands.restate (stands : st.Stands s job) (clean : st.marked = false)
    (pending : s.listId = .pend) (known : state ≠ .orphan) :
    st.Stands { s with state := state } { job with state := state } := by
  have rebuilt := stands.rebuilt clean
  refine ⟨stands.queue, stands.room, stands.numGpus, fun _ => ?_, fun _ _ => ?_, ?_, ?_, ?_⟩
  · exact ⟨rebuilt.listId, rebuilt.queue, fun _ => rfl,
      fun on => absurd (pending.symm.trans on) (by decide)⟩
  · exact ⟨(stands.unplaced clean pending).1, known⟩
  all_goals simp [pending, clean]

theorem Standing.Stands.switch {was : JobState} (stands : st.Stands s job)
    (pending : s.listId = .pend) (same : s.state = was) (notOrphan : was ≠ .orphan)
    (known : state ≠ .orphan) :
    Stays { s with state := state } (if st.marked then none else some st)
      (if job.state = was then some { job with state := state } else none) := by
  cases marked : st.marked with
  | false =>
    rw [if_neg Bool.false_ne_true, if_pos (((stands.rebuilt marked).waiting pending).trans same)]
    exact .goes (stands.restate marked pending known)
  | true =>
    have orphan := (stands.orphan marked pending).2
    rw [if_pos rfl, if_neg (orphan ▸ notOrphan.symm)]
    exact .stops

theorem Standing.Stands.finish (stands : st.Stands s job)
    (isOver : job'.listId = .finish ∧ job'.state ≠ .orphan ∧ job'.state ≠ .broken)
    (queue : job'.queue = job.queue) (res : job'.res = job.res) :
    st.Stands { s with listId := .finish, state := state } job' := by
  refine ⟨queue.trans stands.queue, res ▸ stands.room, res ▸ stands.numGpus, fun clean => ?_,
    fun _ => ListId.noConfusion, fun _ => isOver, fun _ => ListId.noConfusion,
    fun _ => ListId.noConfusion⟩
  exact ⟨isOver.1, queue.trans (stands.rebuilt clean).queue, ListId.noConfusion, ListId.noConfusion⟩

theorem Standing.Stands.pending (stands : st.Stands s job) (pending : s.listId = .pend) :
    job.listId = .pend := by
  cases marked : st.marked with
  | false => exact (stands.rebuilt marked).listId.trans pending
  | true => exact (stands.orphan marked pending).1

theorem Standing.Stands.orderly (stands : st.Stands s job) (told : s.next e = some s') :
    Orderly job e := by
  cases e with
  | jobStart e =>
    obtain ⟨⟨pending, _⟩, _⟩ := ite_none_right_eq_some.mp told
    exact stands.pending pending
  | jobFinish j uid state exitStatus endTime =>
    obtain ⟨⟨unfinished, _⟩, _⟩ := ite_none_right_eq_some.mp told
    intro isOver
    cases marked : st.marked with
    | false => exact unfinished ((stands.rebuilt marked).listId.symm.trans isOver)
    | true =>
      cases list : s.listId with
      | pend => exact absurd ((stands.pending list).symm.trans isOver) (by decide)
      | run => exact absurd ((stands.broken marked list).1.symm.trans isOver) (by decide)
      | finish => exact unfinished list
  | _ => trivial

theorem Standing.Stands.record (conf : Conf) (stands : st.Stands s job) (told : s.next e = some s') :
    Stays s' (st.next conf e) (replayRecord conf job e) := by
  cases e with
  | jobNew | jobSusp => cases told
  | jobFork | jobSignal | jobPriority =>
    cases told
    exact .goes (stands.aside rfl rfl rfl rfl rfl rfl)
  | jobFinish j uid state exitStatus endTime =>
    obtain ⟨⟨_, known⟩, told⟩ := ite_none_right_eq_some.mp told
    cases told
    exact .goes (stands.finish ⟨rfl, known⟩ rfl rfl)
  | jobStart e =>
    obtain ⟨⟨pending, whole⟩, told⟩ := ite_none_right_eq_some.mp told
    cases told
    cases marked : st.marked with
    | false => exact stands.start marked pending whole
    | true =>
      -- the start of an orphan is skipped
      obtain ⟨listId, orphan⟩ := stands.orphan marked pending
      simp only [Standing.next, marked, if_true, replayRecord, startJob, orphan]
      refine .goes ⟨stands.queue, stands.room, stands.numGpus, ?_, ?_, ?_, ?_, ?_⟩
      all_goals simp [marked, Lost, listId, orphan]
  | jobPend =>
    obtain ⟨running, told⟩ := ite_none_right_eq_some.mp told
    cases told
    simp only [Standing.next, replayRecord]
    cases marked : st.marked with
    | false =>
      have rebuilt := stands.rebuilt marked
      rw [if_neg Bool.false_ne_true, if_pos (rebuilt.listId.trans running)]
      refine .goes ⟨stands.queue, stands.room, stands.numGpus, fun _ => ?_, ?_, ?_, ?_, ?_⟩
      · exact ⟨rfl, rebuilt.queue, fun _ => rfl, ListId.noConfusion⟩
      all_goals simp [marked]
    | true =>
      have listId := (stands.broken marked running).1
      simp only [if_true, listId, reduceCtorEq, if_false]
      exact .stops
  | jobPendSusp | jobPendResume =>
    obtain ⟨⟨pending, was⟩, told⟩ := ite_none_right_eq_some.mp told
    cases told
    exact stands.switch pending was JobState.noConfusion JobState.noConfusion
  | jobMove j time fromQueue toQueue =>
    obtain ⟨pending, told⟩ := ite_none_right_eq_some.mp told
    cases told
    have listId := stands.pending pending
    simp only [Standing.next, replayRecord]
    cases known : conf.findQueue toQueue with
    | none =>
      refine .goes ⟨stands.queue, stands.room, stands.numGpus, ?_, ?_, ?_, ?_, ?_⟩
      all_goals simp [pending, listId]
    | some q =>
      refine .goes ⟨rfl, stands.room, stands.numGpus, fun clean => ?_, stands.unplaced,
        stands.ended, stands.orphan, stands.broken⟩
      have rebuilt := stands.rebuilt clean
      exact ⟨rebuilt.listId, congrArg some (Conf.findQueue_name known), rebuilt.waiting,
        rebuilt.running⟩

theorem replayAlloc_stays (conf : Conf) {e : LogJobNew} (known : e.state ≠ .orphan) :
    Stays (Story.first e) (Standing.first conf e) (replayAlloc conf e) := by
  simp only [Standing.first]
  split
  next small =>
    simp only [newDetail] at small
    simp only [replayAlloc, if_pos small]
    exact .stops
  next room =>
    obtain ⟨job, alloc⟩ := replayAlloc_isSome (Int.not_lt.mp room)
    have numHosts : job.res.numHosts = (newDetail conf e).res.numHosts :=
      congrArg (fun d : Detail => d.res.numHosts) (replayAlloc_detail alloc)
    have numGpus : job.res.numGpus = e.numGpus :=
      congrArg (fun d : Detail => d.res.numGpus) (replayAlloc_detail alloc)
    obtain ⟨-, -, queue, state, listId, unplaced, -⟩ := replayAlloc_made alloc
    have enough := Int.not_lt.mp room
    rw [alloc]
    generalize (newDetail conf e).res.numHosts = size at numHosts enough ⊢
    refine .goes ⟨queue, ⟨numHosts, enough⟩, numGpus, ?_, ?_,
      ListId.noConfusion, ?_, fun _ => ListId.noConfusion⟩
    · intro clean
      obtain ⟨q, found⟩ := isSome_iff_exists.mp (isNone_eq_false_iff.mp clean)
      rw [found] at queue state
      exact ⟨listId, queue.trans (congrArg some (Conf.findQueue_name found)), fun _ => state,
        ListId.noConfusion⟩
    · intro clean _
      obtain ⟨q, found⟩ := isSome_iff_exists.mp (isNone_eq_false_iff.mp clean)
      rw [found] at state
      exact ⟨unplaced, state ▸ known⟩
    · intro marked _
      rw [isNone_iff_eq_none.mp marked] at state
      exact ⟨listId, state⟩

/-! ### All the records of a job -/

inductive Follows : Option Story → Option Standing → Option JobData → Prop where
  | absent : Follows none none none
  | known {s : Story} {st : Standing} {job : JobData} (stands : st.Stands s job) :
      Follows (some s) (some st) (some job)

/-- What one record makes of the three; the replay may drop a `JOB_NEW` record. -/
inductive FollowsOn (told : Option Story) : Option (Option Standing) →
    Option (Option JobData) → Prop where
  | goes {standing : Option Standing} {entry : Option JobData}
      (follows : Follows told standing entry) : FollowsOn told (some standing) (some entry)
  | stops : FollowsOn told none none
  | dropped (known : told ≠ none) : FollowsOn told none (some none)

variable {j : JobId} {records : List Event} {told current : Option Story} {entry : Option JobData}

theorem tell_known (next : tell (some s) e = some told) :
    (∀ new, e ≠ .jobNew new) ∧ ∃ s', s.next e = some s' ∧ told = some s' := by
  obtain ⟨s', further, rfl⟩ := map_eq_some_iff.mp next
  refine ⟨?_, s', further, rfl⟩
  rintro new rfl
  cases further

theorem Follows.step (conf : Conf) {standing : Option Standing}
    (follows : Follows current standing entry) (next : tell current e = some told) :
    FollowsOn told (follow conf standing e) (replayJob conf entry e) := by
  cases follows with
  | absent =>
    cases e with
    | jobNew new =>
      obtain ⟨known, next⟩ := ite_none_left_eq_some.mp next
      cases next
      have stays := replayAlloc_stays conf known
      simp only [follow, replayJob]
      generalize replayAlloc conf new = alloc at stays ⊢
      generalize Standing.first conf new = first at stays ⊢
      cases stays with
      | stops => exact .dropped (some_ne_none _)
      | goes stands => exact .goes (.known stands)
    | _ => cases next
  | @known s st job stands =>
    obtain ⟨old, s', told, rfl⟩ := tell_known next
    have stays := stands.record conf told
    rw [replayJob_some old]
    simp only [follow]
    generalize replayRecord conf job e = recorded at stays ⊢
    generalize st.next conf e = further at stays ⊢
    cases stays with
    | stops => exact .stops
    | goes stands' => exact .goes (.known stands')

theorem tell_stays (toldAll : along recordJob tell j records (some s) = some told) :
    told ≠ none := by
  refine along_invariant (fun current => current ≠ none) (fun e _ _ current next told begun => ?_)
    (some_ne_none s) toldAll
  obtain ⟨s, rfl⟩ := ne_none_iff_exists'.mp begun
  obtain ⟨_, s', _, rfl⟩ := tell_known told
  exact some_ne_none s'

theorem replayJobs_dropped (toldAll : along recordJob tell j records (some s) = some told) :
    replayJobs conf j records none = some none := by
  induction records generalizing s told with
  | nil => rfl
  | cons e rest ih =>
    rw [along] at toldAll
    rw [replayJobs]
    split at toldAll
    next same =>
      obtain ⟨_, next, toldAll⟩ := bind_eq_some_iff.mp toldAll
      obtain ⟨old, s', _, rfl⟩ := tell_known next
      rw [if_pos same, replayJob_none old]
      exact ih toldAll
    next other =>
      rw [if_neg other]
      exact ih toldAll

theorem Follows.replayJobs (conf : Conf) {standing : Option Standing}
    (follows : Follows current standing entry)
    (toldAll : along recordJob tell j records current = some told) :
    FollowsOn told (along recordJob (follow conf) j records standing)
      (replayJobs conf j records entry) := by
  induction records generalizing current told standing entry with
  | nil =>
    cases toldAll
    exact .goes follows
  | cons e rest ih =>
    rw [along] at toldAll
    rw [along, Mbd.replayJobs]
    split at toldAll
    next same =>
      rw [if_pos same, if_pos same]
      obtain ⟨_, next, toldAll⟩ := bind_eq_some_iff.mp toldAll
      have step := follows.step conf next
      generalize replayJob conf entry e = replayed at step ⊢
      generalize follow conf standing e = further at step ⊢
      cases step with
      | goes follows' => exact ih follows' toldAll
      | stops => exact .stops
      | dropped known =>
        obtain ⟨s, rfl⟩ := ne_none_iff_exists'.mp known
        change FollowsOn told none (Mbd.replayJobs conf j rest none)
        rw [replayJobs_dropped toldAll]
        exact .dropped (tell_stays toldAll)
    next other =>
      rw [if_neg other, if_neg other]
      exact ih follows toldAll

theorem Follows.proper {standing standing' : Option Standing}
    (follows : Follows current standing entry)
    (toldAll : along recordJob tell j records current = some told)
    (followed : along recordJob (follow conf) j records standing = some standing') :
    Proper conf entry (records.filter fun e => recordJob e = j) := by
  induction records generalizing current told standing standing' entry with
  | nil => exact trivial
  | cons e rest ih =>
    rw [along] at toldAll followed
    split at toldAll
    next same =>
      rw [if_pos same] at followed
      rw [filter_cons_of_pos (by simpa using same)]
      obtain ⟨_, next, toldAll⟩ := bind_eq_some_iff.mp toldAll
      obtain ⟨_, further, followed⟩ := bind_eq_some_iff.mp followed
      constructor
      · rintro job rfl
        cases follows with
        | known stands =>
          obtain ⟨_, _, recorded, _⟩ := tell_known next
          exact stands.orderly recorded
      · intro entry' replayed
        have step := follows.step conf next
        rw [further, replayed] at step
        cases step with
        | goes follows' => exact ih follows' toldAll followed
    next other =>
      rw [if_neg other] at followed
      rw [filter_cons_of_neg (by simpa using other)]
      exact ih follows toldAll followed

theorem not_mem_of_untold (untold : along recordJob tell j records none = some none) :
    j ∉ records.map recordJob := by
  induction records with
  | nil => exact not_mem_nil
  | cons e rest ih =>
    intro member
    rw [along] at untold
    split at untold
    · obtain ⟨current, next, untold⟩ := bind_eq_some_iff.mp untold
      have begun : ∃ s, current = some s := by
        cases e with
        | jobNew new =>
          obtain ⟨_, next⟩ := ite_none_left_eq_some.mp next
          exact ⟨_, (Option.some.inj next).symm⟩
        | _ => cases next
      obtain ⟨s, rfl⟩ := begun
      exact tell_stays untold rfl
    next other =>
      rw [map_cons, mem_cons] at member
      exact member.elim (fun same => other same.symm) (ih untold)

/-! ### The whole start -/

/-- The story of a job and where it is left, if the replay gets there. -/
def fate (conf : Conf) (manifest : List Event) (j : JobId) : Option (Story × Standing) :=
  match storyOf manifest j, standingOf conf manifest j with
  | some (some s), some (some st) => some (s, st)
  | _, _ => none

def Charges (fate : Story × Standing) : Prop :=
  fate.1.listId = .run ∧ fate.2.marked = false ∧ 0 < fate.1.numGpus

instance decidableCharges (fate : Story × Standing) : Decidable (Charges fate) :=
  inferInstanceAs (Decidable (_ ∧ _ ∧ _))

/-- No two jobs that keep their hosts ask for devices of one, nor one for more than there are. -/
structure GpusLeft (conf : Conf) (manifest : List Event) : Prop where
  enough : ∀ j ∈ manifest.map recordJob, ∀ fated ∈ fate conf manifest j, Charges fated →
    ∀ h ∈ fated.1.hosts, fated.1.numGpus.toNat ≤ (conf.hostConf h).gpuIds.length
  alone : ∀ i ∈ manifest.map recordJob, ∀ j ∈ manifest.map recordJob,
    ∀ fated ∈ fate conf manifest i, ∀ other ∈ fate conf manifest j, Charges fated →
      Charges other → ∀ h ∈ fated.1.hosts, h ∈ other.1.hosts → i = j

/--
What a configuration has to leave of a manifest: the records of every job can be taken
one after the other, a job that has not finished has a queue, and the devices are there.
-/
structure Withstands (conf : Conf) (manifest : List Event) : Prop extends
    GpusLeft conf manifest where
  followed : ∀ j ∈ manifest.map recordJob, ∃ fated ∈ fate conf manifest j,
    fated.1.listId = .finish ∨ fated.2.queue ≠ none

def Story.Tolerated (s : Story) (job : JobData) : Prop :=
  s.Rebuilt job ∨ Lost job ∨ s.listId = .finish ∧ job.listId = .finish

variable {manifest : List Event} {m r : MbdState} {stories : JobId → Option Story}
  {standings : JobId → Option Standing}

theorem Standing.Stands.tolerated (stands : st.Stands s job) : s.Tolerated job := by
  cases marked : st.marked with
  | false => exact .inl (stands.rebuilt marked)
  | true =>
    cases list : s.listId with
    | pend =>
      obtain ⟨listId, orphan⟩ := stands.orphan marked list
      exact .inr (.inl ⟨listId, .inl orphan⟩)
    | run => exact .inr (.inl (stands.broken marked list))
    | finish => exact .inr (.inr ⟨list, (stands.ended list).1⟩)

theorem Standing.Stands.lost (stands : st.Stands s job)
    (state : job.state = .orphan ∨ job.state = .broken) : Lost job := by
  have unmarked : ∀ {other : JobState}, job.state = other → other ≠ .orphan → other ≠ .broken → False :=
    fun same notOrphan notBroken =>
      state.elim (fun is => notOrphan (same.symm.trans is)) fun is => notBroken (same.symm.trans is)
  cases list : s.listId with
  | finish =>
    obtain ⟨_, notOrphan, notBroken⟩ := stands.ended list
    exact (unmarked rfl notOrphan notBroken).elim
  | run =>
    cases marked : st.marked with
    | false =>
      have running := ((stands.rebuilt marked).running list).1
      exact (unmarked running (by decide) (by decide)).elim
    | true => exact stands.broken marked list
  | pend => exact ⟨stands.pending list, state⟩

theorem Standing.Stands.running_iff (stands : st.Stands s job) :
    job.listId = .run ↔ s.listId = .run ∧ st.marked = false := by
  constructor
  · intro on
    cases marked : st.marked with
    | false => exact ⟨(stands.rebuilt marked).listId.symm.trans on, rfl⟩
    | true =>
      cases list : s.listId with
      | pend => exact absurd ((stands.pending list).symm.trans on) (by decide)
      | run => exact absurd ((stands.broken marked list).1.symm.trans on) (by decide)
      | finish => exact absurd ((stands.ended list).1.symm.trans on) (by decide)
  · exact fun ⟨running, clean⟩ => (stands.rebuilt clean).listId.trans running

theorem Follows.of_job {standing : Option Standing} (follows : Follows current standing (some job))
    : ∃ s st, current = some s ∧ standing = some st ∧ st.Stands s job := by
  cases follows with
  | known stands => exact ⟨_, _, rfl, rfl, stands⟩

theorem Follows.of_story {standing : Option Standing} (follows : Follows (some s) standing entry) :
    ∃ st job, standing = some st ∧ entry = some job ∧ st.Stands s job := by
  cases follows with
  | known stands => exact ⟨_, _, rfl, rfl, stands⟩

structure Retold (conf : Conf) (manifest : List Event) (stories : JobId → Option Story)
    (standings : JobId → Option Standing) (r : MbdState) : Prop extends Listed r where
  told : ∀ j, storyOf manifest j = some (stories j)
  followed : ∀ j, standingOf conf manifest j = some (standings j)
  follows : ∀ j, Follows (stories j) (standings j) (r.jobs j)
  fresh : ∀ h, (r.hosts h).gpus = freshGpus conf h

theorem retold_of_followed (marks : ClosedMarks) (seqFile n : JobId)
    (told : ∀ j, storyOf manifest j = some (stories j))
    (followed : ∀ j, standingOf conf manifest j = some (standings j)) :
    ∃ r, replayEvents conf manifest (initialState conf marks manifest seqFile) = some r ∧
      Retold conf manifest stories standings { r with jobIdSeq := n } := by
  have blank := initialState_blank conf marks manifest seqFile
  have each : ∀ j, ∃ entry, replayJobs conf j manifest none = some entry ∧
      Follows (stories j) (standings j) entry := by
    intro j
    have replayed := Follows.absent.replayJobs conf (told j)
    rw [← standingOf, followed] at replayed
    generalize replayJobs conf j manifest none = entry at replayed ⊢
    cases replayed with
    | goes follows => exact ⟨_, rfl, follows⟩
  obtain ⟨r, done⟩ :
      ∃ r, replayEvents conf manifest (initialState conf marks manifest seqFile) = some r :=
    replayEvents_isSome fun j => (each j).imp fun _ found => found.1
  obtain ⟨jobs, untouched⟩ := replayEvents_spec done
  have listed : Listed r :=
    replayEvents_listed (fun j => Follows.absent.proper (told j) (followed j)) blank.listed done
  refine ⟨r, done, listed.congr rfl fun id => by cases id <;> rfl, told, followed, fun j => ?_,
    fun h => ?_⟩
  · obtain ⟨entry, replayed, follows⟩ := each j
    have same := (jobs j).symm.trans replayed
    exact Option.some.inj same ▸ follows
  · change (r.hosts h).gpus = _
    rw [untouched.hosts]
    rfl

theorem Retold.rebuildable (retold : Retold conf manifest stories standings r)
    (settled : ∀ j s, stories j = some s → s.Settled)
    (queued : ∀ j job, r.jobs j = some job → job.listId = .pend → ∃ q, job.queue = some q) :
    Rebuildable r where
  toListed := retold.toListed
  pending := by
    intro j job found on
    refine ⟨queued j job found on, ?_⟩
    obtain ⟨s, st, isStory, _, stands⟩ := (found ▸ retold.follows j).of_job
    rcases stands.tolerated with rebuilt | lost | isOver
    · have waits : s.listId = .pend := rebuilt.listId.symm.trans on
      rw [rebuilt.waiting waits]
      exact .inl ((settled j s isStory).waiting waits)
    · exact .inr lost.2
    · exact absurd (isOver.2.symm.trans on) (by decide)
  running := by
    intro j job found on
    obtain ⟨s, st, isStory, _, stands⟩ := (found ▸ retold.follows j).of_job
    obtain ⟨running, clean⟩ := stands.running_iff.mp on
    have rebuilt := stands.rebuilt clean
    obtain ⟨state, hosts⟩ := rebuilt.running running
    exact ⟨⟨s.queue, rebuilt.queue⟩, state ▸ rfl, hosts ▸ (settled j s isStory).distinct running⟩

theorem mem_fate : (s, st) ∈ fate conf manifest j ↔
      storyOf manifest j = some (some s) ∧ standingOf conf manifest j = some (some st) := by
  unfold fate
  split
  next s' st' told followed =>
    rw [told, followed]
    simp only [mem_def, Option.some.injEq, Prod.mk.injEq]
  next unknown =>
    constructor
    · intro member
      cases member
    · intro ⟨told, followed⟩
      exact (unknown s st told followed).elim

theorem mem_of_told (told : storyOf manifest j = some (some s)) : j ∈ manifest.map recordJob := by
  by_contra absent
  have untold : storyOf manifest j = some none :=
    along_of_ne (fun e member same => absent (List.mem_map.mpr ⟨e, member, same⟩)) none
  rw [untold] at told
  cases told

theorem Retold.charges_iff (retold : Retold conf manifest stories standings r) {h : HostName}
    {n : Int} : (∃ job, GpuJobOn r h j job ∧ job.res.numGpus = n) ↔
      ∃ fated ∈ fate conf manifest j, Charges fated ∧ h ∈ fated.1.hosts ∧ fated.1.numGpus = n := by
  constructor
  · rintro ⟨job, ⟨found, on, uses, asked⟩, rfl⟩
    obtain ⟨s, st, isStory, isStanding, stands⟩ := (found ▸ retold.follows j).of_job
    obtain ⟨running, clean⟩ := stands.running_iff.mp on
    have hosts := ((stands.rebuilt clean).running running).2
    refine ⟨(s, st), mem_fate.mpr ⟨?_, ?_⟩, ⟨running, clean, ?_⟩, hosts ▸ uses, ?_⟩
    · rw [retold.told, isStory]
    · rw [retold.followed, isStanding]
    · exact stands.numGpus ▸ asked
    · exact stands.numGpus.symm
  · rintro ⟨⟨s, st⟩, member, ⟨running, clean, asked⟩, uses, rfl⟩
    obtain ⟨story, standing⟩ := mem_fate.mp member
    rw [retold.told, Option.some.injEq] at story
    rw [retold.followed, Option.some.injEq] at standing
    have known := retold.follows j
    rw [story, standing] at known
    generalize found : r.jobs j = entry at known
    cases known with
    | @known _ _ job stands =>
      have hosts := ((stands.rebuilt clean).running running).2
      exact ⟨job, ⟨found, stands.running_iff.mpr ⟨running, clean⟩, hosts.symm ▸ uses,
        stands.numGpus.symm ▸ asked⟩, stands.numGpus⟩

theorem Retold.oneGpuJob_iff (retold : Retold conf manifest stories standings r) :
    OneGpuJob conf r ↔ GpusLeft conf manifest := by
  have listed := retold.toListed
  have charges := fun {j h n} => retold.charges_iff (j := j) (h := h) (n := n)
  constructor
  · intro single
    constructor
    · intro j _ fated member asks h uses
      obtain ⟨job, there, same⟩ := charges.mpr ⟨fated, member, asks, uses, rfl⟩
      rw [← same]
      exact single.devices listed there
    · intro i _ j _ fated member other member' asks asks' h uses shares
      obtain ⟨_, there, _⟩ := charges.mpr ⟨fated, member, asks, uses, rfl⟩
      obtain ⟨_, there', _⟩ := charges.mpr ⟨other, member', asks', shares, rfl⟩
      exact single.same listed there there'
  · intro left
    have known : ∀ {j fated}, fated ∈ fate conf manifest j → j ∈ manifest.map recordJob :=
      fun member => mem_of_told (mem_fate.mp member).1
    have there : ∀ {j h job}, j ∈ r.run → r.jobs j = some job → 0 < job.res.numGpus →
        h ∈ job.hosts → GpuJobOn r h j job := by
      intro j h job member found asked uses
      exact ⟨found, (listed.mem_iff found .run).mp member, uses, asked⟩
    constructor
    · intro j member job found asked h uses
      obtain ⟨fated, told, asks, at', same⟩ :=
        charges.mp ⟨job, there member found asked uses, rfl⟩
      rw [← same]
      exact left.enough j (known told) fated told asks h at'
    · intro i member j member' job found other found' asked asked' h uses shares
      obtain ⟨fated, told, asks, at', _⟩ := charges.mp ⟨job, there member found asked uses, rfl⟩
      obtain ⟨fated', told', asks', shared, _⟩ :=
        charges.mp ⟨other, there member' found' asked' shares, rfl⟩
      exact left.alone i (known told) j (known told') fated told fated' told' asks asks' h at' shared

theorem followed_of_replayed (told : ∀ j, storyOf manifest j = some (stories j))
    (done : replayEvents conf manifest (initialState conf marks manifest seqFile) = some r)
    (found : ∀ j s, stories j = some s → r.jobs j ≠ none) (j : JobId) :
    ∃ standing, standingOf conf manifest j = some standing := by
  cases isStory : stories j with
  | none =>
    have untold := told j
    rw [isStory] at untold
    refine ⟨none, along_of_ne (fun e member same => ?_) none⟩
    exact not_mem_of_untold untold (List.mem_map.mpr ⟨e, member, same⟩)
  | some s =>
    cases stuck : standingOf conf manifest j with
    | some standing => exact ⟨standing, rfl⟩
    | none =>
      obtain ⟨job, known⟩ := ne_none_iff_exists'.mp (found j s isStory)
      have replayed : replayJobs conf j manifest none = _ := (replayEvents_spec done).1 j
      have follows := Follows.absent.replayJobs conf (told j)
      rw [← standingOf, stuck, replayed, known] at follows
      cases follows

theorem Withstands.standing (withstands : Withstands conf manifest) (j : JobId) :
    ∃ standing, standingOf conf manifest j = some standing := by
  by_cases member : j ∈ manifest.map recordJob
  · obtain ⟨⟨s, st⟩, fated, _⟩ := withstands.followed j member
    exact ⟨some st, (mem_fate.mp fated).2⟩
  · exact ⟨none, along_of_ne
      (fun e there same => member (List.mem_map.mpr ⟨e, there, same⟩)) none⟩

theorem Withstands.queued (withstands : Withstands conf manifest)
    (retold : Retold conf manifest stories standings r) (j : JobId) (job : JobData)
    (found : r.jobs j = some job) (on : job.listId = .pend) : ∃ q, job.queue = some q := by
  obtain ⟨s, st, isStory, standing, stands⟩ := (found ▸ retold.follows j).of_job
  have own : storyOf manifest j = some (some s) := (retold.told j).trans (congrArg some isStory)
  obtain ⟨⟨s', st'⟩, fated, unfinished⟩ := withstands.followed j (mem_of_told own)
  obtain ⟨own', standing'⟩ := mem_fate.mp fated
  rw [own] at own'
  rw [retold.followed, standing] at standing'
  cases own'
  cases standing'
  rw [stands.queue]
  refine ne_none_iff_exists'.mp (unfinished.resolve_left fun isOver => ?_)
  exact absurd ((stands.ended isOver).1.symm.trans on) (by decide)

/-- The start finds every job of the manifest as its records say, or has marked it. -/
def StartsOver (conf : Conf) (marks : ClosedMarks) (manifest : List Event) (seqFile : JobId) :
    Prop :=
  ∃ m', jobsReplay conf marks manifest seqFile = some m' ∧
    ∀ j s, storyOf manifest j = some (some s) → ∃ job, m'.jobs j = some job ∧ s.Tolerated job

variable {marks : ClosedMarks} {seqFile : JobId}

theorem Withstands.startsOver (withstands : Withstands conf manifest)
    (legible : ∀ e ∈ manifest, Plain e) (told : ∀ j, storyOf manifest j = some (stories j))
    (settled : ∀ j s, stories j = some s → s.Settled) : StartsOver conf marks manifest seqFile := by
  choose standings followed using withstands.standing
  obtain ⟨r, events, retold⟩ :=
    retold_of_followed marks seqFile (max (maxId manifest) seqFile) told followed
  obtain ⟨m', rebuilt⟩ := replayRebuildCounters_isSome
    (retold.rebuildable settled (withstands.queued retold))
    (retold.oneGpuJob_iff.mpr withstands.toGpusLeft) retold.fresh
  refine ⟨m', ?_, fun j s isStory => ?_⟩
  · rw [jobsReplay, readManifest_manifestText legible, replayRecords, events]
    exact rebuilt
  · rw [told, Option.some.injEq] at isStory
    obtain ⟨st, job, _, known, stands⟩ := (isStory ▸ retold.follows j).of_story
    refine ⟨job, ?_, stands.tolerated⟩
    obtain ⟨_, _, _, _, _, _, _, rfl⟩ := replayRebuildCounters_spec rebuilt
    exact known

theorem StartsOver.withstands (starts : StartsOver conf marks manifest seqFile)
    (legible : ∀ e ∈ manifest, Plain e) (told : ∀ j, storyOf manifest j = some (stories j))
    (settled : ∀ j s, stories j = some s → s.Settled) : Withstands conf manifest := by
  obtain ⟨m', replayed, found⟩ := starts
  rw [jobsReplay, readManifest_manifestText legible] at replayed
  obtain ⟨r, events, rebuilt⟩ := bind_eq_some_iff.mp replayed
  obtain ⟨_, _, _, _, _, _, loops, rfl⟩ := replayRebuildCounters_spec rebuilt
  choose standings followed using followed_of_replayed told events fun j s isStory absent => by
    obtain ⟨job, known, _⟩ := found j s ((told j).trans (congrArg some isStory))
    exact absurd (known.symm.trans absent) (some_ne_none _)
  obtain ⟨r', events', retold⟩ :=
    retold_of_followed marks seqFile (max (maxId manifest) seqFile) told followed
  rw [events] at events'
  cases events'
  have queued : ∀ j job, r.jobs j = some job → job.listId = .pend → ∃ q, job.queue = some q := by
    intro j job known on
    obtain ⟨_, q, known', ofQueue⟩ :=
      rebuildPending_queue loops.pended j ((retold.mem_iff known .pend).mpr on)
    cases known.symm.trans known'
    exact ⟨q, ofQueue⟩
  refine ⟨retold.oneGpuJob_iff.mp
    (oneGpuJob_of_rebuilt (retold.rebuildable settled queued) retold.fresh rebuilt), ?_⟩
  intro j member
  obtain ⟨s, isStory⟩ : ∃ s, stories j = some s := by
    apply ne_none_iff_exists'.mp
    exact fun untold => not_mem_of_untold ((told j).trans (congrArg some untold)) member
  obtain ⟨st, job, standing, known, stands⟩ := (isStory ▸ retold.follows j).of_story
  refine ⟨(s, st), mem_fate.mpr ⟨?_, ?_⟩, ?_⟩
  · rw [told, isStory]
  · rw [followed, standing]
  · rw [← stands.queue]
    rcases stands.tolerated with rebuilt | lost | isOver
    · rw [rebuilt.queue]
      exact .inr (some_ne_none _)
    · obtain ⟨q, ofQueue⟩ := queued j job known lost.1
      rw [ofQueue]
      exact .inr (some_ne_none _)
    · exact .inl isOver.1

end LavaLite.Mbd
