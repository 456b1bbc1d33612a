import LavaLite.Mbd.Register
import LavaLite.Cluster.System

/-
What mbd, one sbd and the connection between them agree on about each job.  A
job that an sbd holds, or that a message speaks of, is where the message expects
it to be; whatever is said about a job is said once.
-/

namespace LavaLite.Cluster

open Base Batch Mbd Sbd Kernel Function List

/-! ### Who speaks of a job -/

def Held (sbd : SbdState) (j : JobId) : Prop :=
  ∃ job ∈ sbd.jobs, job.jobId = j

def starts (j : JobId) : MbdMsg → Bool
  | .newJob start => start.jobId = j
  | _ => false

def lists (j : JobId) : MbdMsg → Bool
  | .registerAck jobs => jobs.any fun entry => entry.1 = j
  | _ => false

def asks (j : JobId) (msg : MbdMsg) : Bool :=
  starts j msg || lists j msg

def releases (j : JobId) : MbdMsg → Bool
  | .jobFinishAck i => i = j
  | _ => false

def isRegisterAck : MbdMsg → Bool
  | .registerAck _ => true
  | _ => false

/-- The message says that the sbd had the job when it was sent. -/
def answers (j : JobId) : SbdMsg → Bool
  | .newJobReply i _ => i = j
  | .jobFinish i _ _ => i = j
  | .signalReply i _ ok => ok && decide (i = j)
  | _ => false

def finishes (j : JobId) : SbdMsg → Bool
  | .jobFinish i _ _ => i = j
  | _ => false

def refuses (j : JobId) : SbdMsg → Bool
  | .newJobReject i => i = j
  | .jobMissing i => i = j
  | _ => false

def Link.reports (link : Link) : List SbdMsg :=
  link.fromSbd ++ link.queued

def Over (m : MbdState) (j : JobId) : Prop :=
  ∀ job, m.jobs j = some job → job.listId = .finish ∧ 0 < job.forkTime

def Mentions (link : Link) (sbd : SbdState) (j : JobId) : Prop :=
  Held sbd j ∨ (∃ msg ∈ link.reports, answers j msg = true ∨ refuses j msg = true) ∨
    ∃ msg ∈ link.toSbd, asks j msg = true ∨ releases j msg = true

/-! ### The agreement -/

/-- What mbd, the sbd of host `h` and their connection agree on about one job. -/
structure JobLink (m : MbdState) (h : HostName) (link : Link) (sbd : SbdState) (j : JobId) : Prop
    where
  saved : Mentions link sbd j → j ≤ m.seqFile
  held : Held sbd j → AtHost m h j
  acked : ∀ job ∈ sbd.jobs, job.jobId = j → job.pidAcked = true ∨ job.savedAcked = true → Forked m j
  answered : ∀ msg ∈ link.reports, answers j msg = true → Held sbd j ∨ Over m j
  finished : ∀ msg ∈ link.reports, finishes j msg = true → Forked m j
  refused : ∀ msg ∈ link.reports, refuses j msg = true → RunsAt m h j ∧ ¬ Held sbd j
  started : ∀ msg ∈ link.toSbd, starts j msg = true → RunsAt m h j ∧ ¬ Held sbd j
  listed : ∀ msg ∈ link.toSbd, lists j msg = true → ¬ Held sbd j → RunsAt m h j
  past : ∀ msg ∈ link.toSbd, releases j msg = true → Over m j
  acks : ∀ before after, link.toSbd = before ++ .newJobReplyAck j :: after →
    Held sbd j ∨ (∃ msg ∈ before, starts j msg = true) → Forked m j
  once : link.toSbd.countP (asks j) + link.reports.countP (refuses j) ≤ 1

/-- What mbd, the sbd of host `h` and their connection agree on. -/
structure HostLink (m : MbdState) (h : HostName) (link : Link) (sbd : SbdState) : Prop where
  job : ∀ j, JobLink m h link sbd j
  distinct : (sbd.jobs.map SbdJob.jobId).Nodup
  listsOnce : ∀ jobs, .registerAck jobs ∈ link.toSbd → (jobs.map Prod.fst).Nodup
  registerFirst : ∀ msg ∈ link.toSbd.tail, isRegisterAck msg = false
  fresh : link.side = .fresh → link.toSbd = []
  queued : ∀ j, ∀ msg ∈ link.queued, refuses j msg = false

/-! ### Jobs nobody speaks of -/

variable {m m' : MbdState} {h : HostName} {link : Link} {sbd : SbdState} {j : JobId} {job : JobData}

theorem JobLink.of_silent (silent : ¬ Mentions link sbd j) : JobLink m h link sbd j := by
  have notHeld : ¬ Held sbd j := fun held => silent (Or.inl held)
  have noReport : ∀ msg ∈ link.reports, answers j msg = false ∧ refuses j msg = false := by
    intro msg member
    rw [← Bool.not_eq_true, ← Bool.not_eq_true, ← not_or]
    exact fun about => silent (Or.inr (Or.inl ⟨msg, member, about⟩))
  have noOrder : ∀ msg ∈ link.toSbd, asks j msg = false ∧ releases j msg = false := by
    intro msg member
    rw [← Bool.not_eq_true, ← Bool.not_eq_true, ← not_or]
    exact fun about => silent (Or.inr (Or.inr ⟨msg, member, about⟩))
  have noStart : ∀ msg ∈ link.toSbd, starts j msg = false := fun msg member =>
    (Bool.or_eq_false_iff.mp (noOrder msg member).1).1
  have noList : ∀ msg ∈ link.toSbd, lists j msg = false := fun msg member =>
    (Bool.or_eq_false_iff.mp (noOrder msg member).1).2
  have noFinish : ∀ msg ∈ link.reports, finishes j msg = false := by
    intro msg member
    have none := (noReport msg member).1
    cases msg <;> first | rfl | exact none
  constructor
  · exact fun about => absurd about silent
  · exact fun held => absurd held notHeld
  · exact fun job member id => absurd ⟨job, member, id⟩ notHeld
  · exact fun msg member about => absurd about (by rw [(noReport msg member).1]; decide)
  · exact fun msg member about => absurd about (by rw [noFinish msg member]; decide)
  · exact fun msg member about => absurd about (by rw [(noReport msg member).2]; decide)
  · exact fun msg member about => absurd about (by rw [noStart msg member]; decide)
  · exact fun msg member about => absurd about (by rw [noList msg member]; decide)
  · exact fun msg member about => absurd about (by rw [(noOrder msg member).2]; decide)
  · rintro before after split (held | ⟨msg, member, about⟩)
    · exact absurd held notHeld
    · rw [noStart msg (by rw [split]; exact mem_append_left _ member)] at about
      cases about
  · have none : link.toSbd.countP (asks j) = 0 :=
      countP_eq_zero.mpr fun msg member => by rw [(noOrder msg member).1]; decide
    have none' : link.reports.countP (refuses j) = 0 :=
      countP_eq_zero.mpr fun msg member => by rw [(noReport msg member).2]; decide
    omega

theorem JobLink.silent_of_elsewhere (linked : JobLink m h link sbd j) (found : m.jobs j = some job)
    (elsewhere : ¬ (job.listId = .run ∧ job.runHosts.head? = some h))
    (open_ : job.listId ≠ .finish) : ¬ Mentions link sbd j := by
  have notHeld : ¬ Held sbd j := fun held =>
    (linked.held held job found).elim elsewhere fun final => open_ final.1
  have notOver : ¬ Over m j := fun past => open_ (past job found).1
  have notHere : ¬ RunsAt m h j := fun runs => elsewhere (runs job found)
  rintro (held | ⟨msg, member, about | about⟩ | ⟨msg, member, about | about⟩)
  · exact notHeld held
  · exact (linked.answered msg member about).elim notHeld notOver
  · exact notHere (linked.refused msg member about).1
  · rcases Bool.or_eq_true_iff.mp about with starting | listing
    · exact notHere (linked.started msg member starting).1
    · exact notHere (linked.listed msg member listing notHeld)
  · exact notOver (linked.past msg member about)

theorem JobLink.silent_of_unclaimed (linked : JobLink m h link sbd j)
    (found : m.jobs j = some job) (running : job.listId = .run) (notHeld : ¬ Held sbd j)
    (unclaimed : link.toSbd.countP (asks j) + link.reports.countP (refuses j) = 0) :
    ¬ Mentions link sbd j := by
  have notOver : ¬ Over m j := fun past =>
    absurd (running.symm.trans (past job found).1) (by decide)
  have noAsk := countP_eq_zero.mp (show link.toSbd.countP (asks j) = 0 by omega)
  have noRefusal := countP_eq_zero.mp (show link.reports.countP (refuses j) = 0 by omega)
  rintro (held | ⟨msg, member, about | about⟩ | ⟨msg, member, about | about⟩)
  · exact notHeld held
  · exact (linked.answered msg member about).elim notHeld notOver
  · exact noRefusal msg member about
  · exact noAsk msg member about
  · exact notOver (linked.past msg member about)

/-! ### Steps of mbd, seen from one host -/

/-- mbd may forget the job or learn its pid, but leaves it where it is. -/
def Follows (m m' : MbdState) (j : JobId) : Prop :=
  ∀ job', m'.jobs j = some job' → ∃ job, m.jobs j = some job ∧ job'.listId = job.listId ∧
    (job.listId = .run → job'.runHosts.head? = job.runHosts.head?) ∧
    (0 < job.forkTime → 0 < job'.forkTime)

theorem Follows.of_eq (same : m'.jobs j = m.jobs j) : Follows m m' j := by
  intro job found
  rw [same] at found
  exact ⟨job, found, rfl, fun _ => rfl, id⟩

theorem Follows.runsAt (follows : Follows m m' j) (runs : RunsAt m h j) : RunsAt m' h j := by
  intro job' found'
  obtain ⟨job, found, list, head, _⟩ := follows job' found'
  obtain ⟨running, first⟩ := runs job found
  exact ⟨list.trans running, (head running).trans first⟩

theorem Follows.forked (follows : Follows m m' j) (forked : Forked m j) : Forked m' j := by
  intro job' found'
  obtain ⟨job, found, _, _, kept⟩ := follows job' found'
  exact kept (forked job found)

theorem Follows.past (follows : Follows m m' j) (past : Over m j) : Over m' j := by
  intro job' found'
  obtain ⟨job, found, list, _, kept⟩ := follows job' found'
  exact ⟨list.trans (past job found).1, kept (past job found).2⟩

theorem Follows.atHost (follows : Follows m m' j) (there : AtHost m h j) : AtHost m' h j := by
  intro job' found'
  obtain ⟨job, found, list, head, kept⟩ := follows job' found'
  rcases there job found with ⟨running, first⟩ | ⟨final, forked⟩
  · exact Or.inl ⟨list.trans running, (head running).trans first⟩
  · exact Or.inr ⟨list.trans final, kept forked⟩

theorem JobLink.follow (linked : JobLink m h link sbd j) (follows : Follows m m' j)
    (saved : m.seqFile ≤ m'.seqFile) : JobLink m' h link sbd j where
  saved := fun about => Int.le_trans (linked.saved about) saved
  held := fun held => follows.atHost (linked.held held)
  acked := fun job member id known => follows.forked (linked.acked job member id known)
  answered := fun msg member about => (linked.answered msg member about).imp id follows.past
  finished := fun msg member about => follows.forked (linked.finished msg member about)
  refused := fun msg member about => (linked.refused msg member about).imp follows.runsAt id
  started := fun msg member about => (linked.started msg member about).imp follows.runsAt id
  listed := fun msg member about notHeld => follows.runsAt (linked.listed msg member about notHeld)
  past := fun msg member about => follows.past (linked.past msg member about)
  acks := fun before after split known => follows.forked (linked.acks before after split known)
  once := linked.once

theorem JobLink.finish (linked : JobLink m h link sbd j) (held : Held sbd j) (past : Over m' j)
    (saved : m.seqFile ≤ m'.seqFile) : JobLink m' h link sbd j where
  saved := fun about => Int.le_trans (linked.saved about) saved
  held := fun _ job found => Or.inr (past job found)
  acked := fun _ _ _ _ job found => (past job found).2
  answered := fun _ _ _ => Or.inl held
  finished := fun _ _ _ job found => (past job found).2
  refused := fun msg member about => absurd held (linked.refused msg member about).2
  started := fun msg member about => absurd held (linked.started msg member about).2
  listed := fun _ _ _ notHeld => absurd held notHeld
  past := fun _ _ _ => past
  acks := fun _ _ _ _ job found => (past job found).2
  once := linked.once

def Keeps (m m' : MbdState) (link : Link) (sbd : SbdState) (j : JobId) : Prop :=
  ¬ Mentions link sbd j ∨ Follows m m' j ∨ (Held sbd j ∧ Over m' j)

theorem JobLink.keep (linked : JobLink m h link sbd j) (keeps : Keeps m m' link sbd j)
    (saved : m.seqFile ≤ m'.seqFile) : JobLink m' h link sbd j := by
  rcases keeps with silent | follows | ⟨held, past⟩
  · exact JobLink.of_silent silent
  · exact linked.follow follows saved
  · exact linked.finish held past saved

theorem HostLink.keep (linked : HostLink m h link sbd) (keeps : ∀ j, Keeps m m' link sbd j)
    (saved : m.seqFile ≤ m'.seqFile) : HostLink m' h link sbd :=
  { linked with job := fun j => (linked.job j).keep (keeps j) saved }

/-! ### Messages of mbd -/

def Link.claims (link : Link) (j : JobId) : Nat :=
  link.toSbd.countP (asks j) + link.reports.countP (refuses j)

def Link.put (link : Link) (msg : MbdMsg) : Link :=
  { link with toSbd := link.toSbd ++ [msg] }

/-- When a message may be sent, as far as one job is concerned. -/
structure Sendable (m : MbdState) (h : HostName) (link : Link) (sbd : SbdState) (j : JobId)
    (msg : MbdMsg) : Prop where
  saved : asks j msg = true ∨ releases j msg = true → j ≤ m.seqFile
  start : starts j msg = true → RunsAt m h j ∧ ¬ Held sbd j
  list : lists j msg = true → ¬ Held sbd j → RunsAt m h j
  past : releases j msg = true → Over m j
  ack : msg = .newJobReplyAck j → Held sbd j ∨ (∃ msg ∈ link.toSbd, starts j msg = true) →
    Forked m j
  once : asks j msg = true → link.claims j = 0

variable {msg : MbdMsg}

theorem JobLink.put (linked : JobLink m h link sbd j) (sendable : Sendable m h link sbd j msg) :
    JobLink m h (link.put msg) sbd j := by
  have old : ∀ {order}, order ∈ (link.put msg).toSbd → order ∈ link.toSbd ∨ order = msg := by
    intro order member
    rcases mem_append.mp member with before | last
    · exact Or.inl before
    · exact Or.inr (mem_singleton.mp last)
  constructor
  · rintro (held | reported | ⟨order, member, about⟩)
    · exact linked.saved (Or.inl held)
    · exact linked.saved (Or.inr (Or.inl reported))
    · rcases old member with before | rfl
      · exact linked.saved (Or.inr (Or.inr ⟨order, before, about⟩))
      · exact sendable.saved about
  · exact linked.held
  · exact linked.acked
  · exact linked.answered
  · exact linked.finished
  · exact linked.refused
  · intro order member about
    rcases old member with before | rfl
    · exact linked.started order before about
    · exact sendable.start about
  · intro order member about
    rcases old member with before | rfl
    · exact linked.listed order before about
    · exact sendable.list about
  · intro order member about
    rcases old member with before | rfl
    · exact linked.past order before about
    · exact sendable.past about
  · intro before after split known
    -- the acknowledgement is the new message or an earlier one
    rcases eq_nil_or_concat after with rfl | ⟨front, last, rfl⟩
    · obtain ⟨same, isMsg⟩ := append_inj' split rfl
      rw [List.cons.injEq] at isMsg
      subst same
      exact sendable.ack isMsg.1 known
    · have shorter : link.toSbd ++ [msg] = (before ++ .newJobReplyAck j :: front) ++ [last] := by
        rw [append_assoc, cons_append]
        rw [concat_eq_append] at split
        exact split
      exact linked.acks before front (append_inj' shorter rfl).1 known
  · have counted : (link.put msg).toSbd.countP (asks j) =
        link.toSbd.countP (asks j) + if asks j msg = true then 1 else 0 := by
      simp only [Link.put, countP_append, countP_singleton]
    have before := linked.once
    have same : (link.put msg).reports = link.reports := rfl
    rw [counted, same]
    by_cases about : asks j msg = true
    · have none := sendable.once about
      unfold Link.claims at none
      rw [if_pos about]
      omega
    · rw [if_neg about]
      omega

theorem HostLink.put (linked : HostLink m h link sbd) (joined : link.side = .joined)
    (sendable : ∀ j, Sendable m h link sbd j msg) (plain : isRegisterAck msg = false) :
    HostLink m h (link.put msg) sbd where
  job := fun j => (linked.job j).put (sendable j)
  distinct := linked.distinct
  listsOnce := by
    intro jobs member
    rcases mem_append.mp member with before | last
    · exact linked.listsOnce jobs before
    · rw [← mem_singleton.mp last] at plain
      cases plain
  registerFirst := by
    intro order member
    have within : order ∈ link.toSbd.tail ∨ order = msg := by
      unfold Link.put at member
      cases toSbd : link.toSbd with
      | nil =>
        rw [toSbd] at member
        cases member
      | cons first rest =>
        rw [toSbd] at member
        rcases mem_append.mp member with before | last
        · exact Or.inl before
        · exact Or.inr (mem_singleton.mp last)
    rcases within with before | rfl
    · exact linked.registerFirst order before
    · exact plain
  fresh := fun isFresh => absurd (joined.symm.trans isFresh) (by decide)
  queued := linked.queued

theorem sendable_signal {i : JobId} {sig : Int} : Sendable m h link sbd j (.jobSignal i sig) :=
  ⟨fun about => (by rcases about with about | about <;> cases about), nofun, nofun, nofun, nofun,
    nofun⟩

theorem sendable_replyAck {i : JobId}
    (known : Held sbd i ∨ (∃ msg ∈ link.toSbd, starts i msg = true) → Forked m i) :
    Sendable m h link sbd j (.newJobReplyAck i) := by
  refine ⟨fun about => (by rcases about with about | about <;> cases about), nofun, nofun, nofun,
    fun same => ?_, nofun⟩
  cases same
  exact known

theorem sendable_finishAck {i : JobId} (saved : i ≤ m.seqFile) (past : Over m i) :
    Sendable m h link sbd j (.jobFinishAck i) := by
  refine ⟨fun about => ?_, nofun, nofun, fun about => ?_, nofun, nofun⟩
  · rcases about with about | about
    · cases about
    · rw [← of_decide_eq_true about]
      exact saved
  · rw [← of_decide_eq_true about]
    exact past

theorem sendable_newJob {start : WireJobStart} (saved : start.jobId ≤ m.seqFile)
    (runs : RunsAt m h start.jobId) (silent : ¬ Mentions link sbd start.jobId) :
    Sendable m h link sbd j (.newJob start) := by
  have same : asks j (.newJob start) = true → start.jobId = j := by
    intro about
    simpa [asks, starts, lists] using about
  refine ⟨fun about => ?_, fun about => ?_, nofun, nofun, nofun, fun about => ?_⟩
  · rcases about with about | about
    · rw [← same about]
      exact saved
    · cases about
  · rw [← of_decide_eq_true about]
    exact ⟨runs, fun held => silent (Or.inl held)⟩
  · rw [← same about]
    have noAsk : link.toSbd.countP (asks start.jobId) = 0 :=
      countP_eq_zero.mpr fun msg member about =>
        silent (Or.inr (Or.inr ⟨msg, member, Or.inl about⟩))
    have noRefusal : link.reports.countP (refuses start.jobId) = 0 :=
      countP_eq_zero.mpr fun msg member about =>
        silent (Or.inr (Or.inl ⟨msg, member, Or.inr about⟩))
    unfold Link.claims
    omega

/-! ### Handlers of mbd -/

/-- mbd, with what it has queued for the sbds, agrees with every sbd. -/
def Linked (links : HostName → Link) (sbds : HostName → SbdState) (m : MbdState) : Prop :=
  ∀ h, HostLink m h (deliverAll links m.outbox h) (sbds h)

/-- The reports that leave nothing behind which speaks of the job. -/
def linkPermit (links : HostName → Link) (sbds : HostName → SbdState) : Permit
  | m, job, .released => ∀ n, job.runHosts.head? = some n →
      ¬ Held (sbds n) job.jobId ∧ (deliverAll links m.outbox n).claims job.jobId = 0
  | _, job, .finished => job.listId = .run → ∀ n, job.runHosts.head? = some n →
      Held (sbds n) job.jobId
  | _, _, _ => True

theorem deliver_apply (links : HostName → Link) (n h : HostName) (msg : MbdMsg) :
    deliver links n msg h =
      if h = n ∧ (links n).side = .joined then (links h).put msg else links h := by
  unfold deliver
  by_cases same : h = n
  · subst same
    cases side : (links h).side with
    | joined =>
      simp only [update_self, true_and, if_true]
      rfl
    | down | dead | fresh => simp
  · have other : ∀ link, update links n link h = links h :=
      fun link => update_of_ne same link links
    rw [if_neg fun both => same both.1]
    cases (links n).side with
    | joined => exact other _
    | down | dead | fresh => rfl

theorem deliverAll_append (links : HostName → Link) (a b : Outbox) :
    deliverAll links (a ++ b) = deliverAll (deliverAll links a) b :=
  foldl_append

variable {conf : Conf} {permits : Permit} {job' : JobData}
  {onHost : HostChange} {onQueue : QueueChange} {pools : PoolName → Int} {records : List Event}
  {n : HostName} {links : HostName → Link} {sbds : HostName → SbdState} {sent : Outbox}
  {ws : WireJobSubmit}

theorem linked_put (between : ∀ h, HostLink m h (links h) (sbds h))
    (sendable : ∀ j, Sendable m n (links n) (sbds n) j msg) (plain : isRegisterAck msg = false) :
    ∀ h, HostLink m h (deliver links n msg h) (sbds h) := by
  intro h
  rw [deliver_apply]
  split
  next joined =>
    obtain ⟨rfl, joined⟩ := joined
    exact (between h).put joined sendable plain
  next => exact between h

theorem keeps_all (jobs : m'.jobs = update m.jobs j (some job')) (this : Keeps m m' link sbd j) :
    ∀ i, Keeps m m' link sbd i := by
  intro i
  by_cases same : i = j
  · rw [same]
    exact this
  · exact Or.inr (Or.inl (Follows.of_eq (by rw [jobs, update_of_ne same])))

theorem between_of_change (change : Change m m' j job job' onHost onQueue pools records sent)
    (linked : Linked links sbds m)
    (keeps : ∀ h, Keeps m m' (deliverAll links m.outbox h) (sbds h) j) :
    ∀ h, HostLink m' h (deliverAll links m.outbox h) (sbds h) := fun h =>
  (linked h).keep (keeps_all change.jobs (keeps h)) (Int.le_of_eq change.seqFile.symm)

theorem linked_of_change (change : Change m m' j job job' onHost onQueue pools records [])
    (linked : Linked links sbds m)
    (keeps : ∀ h, Keeps m m' (deliverAll links m.outbox h) (sbds h) j) : Linked links sbds m' := by
  intro h
  rw [change.outbox, append_nil]
  exact between_of_change change linked keeps h

theorem linked_of_change_put
    (change : Change m m' j job job' onHost onQueue pools records [(n, msg)])
    (linked : Linked links sbds m)
    (keeps : ∀ h, Keeps m m' (deliverAll links m.outbox h) (sbds h) j)
    (sendable : ∀ j, Sendable m' n (deliverAll links m.outbox n) (sbds n) j msg)
    (plain : isRegisterAck msg = false) : Linked links sbds m' := by
  intro h
  rw [change.outbox, deliverAll_append]
  exact linked_put (between_of_change change linked keeps) sendable plain h

theorem follows_of_change (change : Change m m' j job job' onHost onQueue pools records sent)
    (list : job'.listId = job.listId)
    (head : job.listId = .run → job'.runHosts.head? = job.runHosts.head?)
    (forked : 0 < job.forkTime → 0 < job'.forkTime) : Follows m m' j := by
  intro found at'
  rw [change.jobs_self] at at'
  cases at'
  exact ⟨job, change.found, list, head, forked⟩

theorem Linked.silent_of_pending (linked : Linked links sbds m) (found : m.jobs j = some job)
    (pending : job.listId = .pend) (h : HostName) :
    ¬ Mentions (deliverAll links m.outbox h) (sbds h) j :=
  ((linked h).job j).silent_of_elsewhere found
    (fun there => absurd (pending.symm.trans there.1) (by decide))
    (pending.trans_ne (by decide))

theorem Linked.silent_of_running (linked : Linked links sbds m) (found : m.jobs j = some job)
    (running : job.listId = .run) (first : job.runHosts.head? = some n) (other : h ≠ n) :
    ¬ Mentions (deliverAll links m.outbox h) (sbds h) j := by
  refine ((linked h).job j).silent_of_elsewhere found (fun there => other ?_)
    (running.trans_ne (by decide))
  exact Option.some.inj (there.2.symm.trans first)

theorem Linked.silent_of_released (linked : Linked links sbds m) (found : m.jobs j = some job)
    (running : job.listId = .run) (first : job.runHosts.head? = some n) (id : job.jobId = j)
    (permitted : linkPermit links sbds m job .released) (h : HostName) :
    ¬ Mentions (deliverAll links m.outbox h) (sbds h) j := by
  by_cases here : h = n
  · subst here
    obtain ⟨notHeld, unclaimed⟩ := permitted h first
    rw [id] at notHeld unclaimed
    exact ((linked h).job j).silent_of_unclaimed found running notHeld unclaimed
  · exact linked.silent_of_running found running first here

theorem Linked.send (linked : Linked links sbds m)
    (sendable : ∀ j, Sendable m n (deliverAll links m.outbox n) (sbds n) j msg)
    (plain : isRegisterAck msg = false) : Linked links sbds (m.send n msg) := by
  intro h
  have queued : (m.send n msg).outbox = m.outbox ++ [(n, msg)] := rfl
  rw [queued, deliverAll_append]
  exact (linked_put linked sendable plain h).keep (fun j => Or.inr (Or.inl (Follows.of_eq rfl)))
    (Int.le_refl _)

theorem linked_of_effect (wf : Wf conf m) (saved : IdsSaved m) (linked : Linked links sbds m)
    (permitted : ∀ m job report, permits m job report → linkPermit links sbds m job report)
    (effect : Effect conf permits m m') : Linked links sbds m' := by
  have stays : ∀ {link : Link} {sbd : SbdState} {j}, Follows m m' j → Keeps m m' link sbd j :=
    fun follows => Or.inr (Or.inl follows)
  cases effect with
  | frame framed =>
    intro h
    rw [framed.outbox]
    exact (linked h).keep (fun j => stays (Follows.of_eq (by rw [framed.jobs])))
      (Int.le_of_eq framed.seqFile.symm)
  | ackReply found forked sends =>
    subst sends
    refine linked.send (fun i => sendable_replyAck fun _ job' found' => ?_) rfl
    rw [found] at found'
    cases found'
    exact forked
  | ackFinish known final sends =>
    subst sends
    exact linked.send (fun i => sendable_finishAck known final) rfl
  | note pending change | hold pending _ _ change | unhold pending _ _ change
  | move pending _ _ _ _ change | priority _ _ change | stopped left _ _ change
  | continued left _ _ change =>
    exact linked_of_change change linked fun h =>
      stays (follows_of_change change rfl (fun _ => rfl) id)
  | stranded pending _ _ _ _ change | kill pending _ _ _ change =>
    exact linked_of_change change linked fun h =>
      Or.inl (linked.silent_of_pending change.found pending h)
  | @dispatch j job queue plan first _ text now pending _ _ _ _ isFirst _ _ change =>
    have silent := linked.silent_of_pending change.found pending
    have id : (wireJobStart (dispatchedJob job plan text now) queue).jobId = j :=
      (wf.job change.found).id
    refine linked_of_change_put change linked (fun h => Or.inl (silent h))
      (fun i => sendable_newJob ?_ ?_ ?_) rfl
    · rw [id, change.seqFile]
      exact saved change.found
    · rw [id]
      intro found at'
      rw [change.jobs_self] at at'
      cases at'
      exact ⟨rfl, isFirst⟩
    · rw [id]
      exact silent first
  | signalSent left isFirst change =>
    exact linked_of_change_put change linked
      (fun h => stays (follows_of_change change rfl (fun _ => rfl) id))
      (fun _ => sendable_signal) rfl
  | fork running isFirst _ clock _ change =>
    refine linked_of_change_put change linked
      (fun h => stays (follows_of_change change rfl (fun _ => rfl) fun _ => clock))
      (fun i => sendable_replyAck fun _ => ?_) rfl
    intro found at'
    rw [change.jobs_self] at at'
    cases at'
    exact clock
  | @release j job job' _ n sent _ running isFirst _ _ result acks may change =>
    have silent := linked.silent_of_released change.found running isFirst
      (wf.job change.found).id (permitted _ _ _ may)
    rcases acks with rfl | rfl
    · exact linked_of_change change linked fun h => Or.inl (silent h)
    · refine linked_of_change_put change linked (fun h => Or.inl (silent h))
        (fun i => sendable_replyAck fun known => ?_) rfl
      rcases known with held | ⟨msg, member, starting⟩
      · exact absurd (Or.inl held) (silent n)
      · refine absurd (Or.inr (Or.inr ⟨msg, member, Or.inl ?_⟩)) (silent n)
        exact Bool.or_eq_true_iff.mpr (Or.inl starting)
  | @finish j job _ n _ _ _ running isFirst _ _ forked clock may change =>
    have held := permitted _ _ _ may running n isFirst
    rw [(wf.job change.found).id] at held
    have past : Over m' j := by
      intro found at'
      rw [change.jobs_self] at at'
      cases at'
      exact ⟨rfl, forked⟩
    refine linked_of_change_put change linked (fun h => ?_)
      (fun i => sendable_finishAck ?_ past) rfl
    · by_cases here : h = n
      · subst here
        exact Or.inr (Or.inr ⟨held, past⟩)
      · exact Or.inl (linked.silent_of_running change.found running isFirst here)
    · rw [change.seqFile]
      exact saved change.found
  | compact _ compacted =>
    have follows : ∀ j, Follows m m' j := fun j job found =>
      ⟨job, (compact_jobs compacted found).1, rfl, fun _ => rfl, id⟩
    obtain ⟨_, _, result⟩ := manifestRebuild_spec compacted
    intro h
    have same : m'.outbox = m.outbox := by rw [result]
    rw [same]
    exact (linked h).keep (fun j => stays (follows j)) (Int.le_of_eq (by rw [result]))

theorem linked_of_commit {q : QueueName} (linked : Linked links sbds m)
    (commit : Commit conf ws m m' q job) : Linked links sbds m' := by
  intro h
  rw [commit.outbox]
  refine (linked h).keep (keeps_all commit.jobs (Or.inl fun about => ?_))
    (Int.le_of_eq commit.seqFile.symm)
  exact Int.not_lt.mpr (((linked h).job _).saved about) commit.unsaved

theorem linked_of_registers (wf : Wf conf m) (linked : Linked links sbds m)
    (registers : Registers conf ws m m') : Linked links sbds m' := by
  refine registers.keeps_of_wf (Linked links sbds) ?framed ?committed ?saved wf linked
  case framed =>
    intro m m' _ linked framed h
    rw [framed.outbox]
    exact (linked h).keep (fun j => Or.inr (Or.inl (Follows.of_eq (by rw [framed.jobs]))))
      (Int.le_of_eq framed.seqFile.symm)
  case committed => exact fun _ linked commit => linked_of_commit linked commit
  case saved =>
    exact fun wf linked h => (linked h).keep (fun _ => Or.inr (Or.inl (Follows.of_eq rfl)))
      wf.saved.2

end LavaLite.Cluster
