import Mathlib.Data.List.Induction
import LavaLite.Mbd.Restart

/-
What the records mbd has written say about a job: where it was last started, and
whether it has finished.  An effect other than a compaction appends records of
one job only, and they say of that job what the table says.
-/

namespace LavaLite.Mbd

open Base Batch Function List

/-! ### Reading the records -/

def isStartOf (j : JobId) : Event → Bool
  | .jobStart e => e.jobId = j
  | _ => false

def isPendOf (j : JobId) : Event → Bool
  | .jobPend i _ => i = j
  | _ => false

def Aside (e : Event) : Prop :=
  ∀ j, isStartOf j e = false ∧ isPendOf j e = false ∧ isFinishOf j e = false

/-- The first host of the latest `JOB_START` of the job is `h`, and no `JOB_PEND` came later. -/
def LatestStart (records : List Event) (j : JobId) (h : HostName) : Prop :=
  ∃ before e after, records = before ++ .jobStart e :: after ∧ e.jobId = j ∧
    e.hosts.head? = some h ∧ ∀ later ∈ after, isStartOf j later = false ∧ isPendOf j later = false

def placeAfter (j : JobId) (place : Option HostName) : Event → Option HostName
  | .jobStart e => if e.jobId = j then e.hosts.head? else place
  | .jobPend i _ => if i = j then none else place
  | _ => place

def lastPlace (records : List Event) (j : JobId) : Option HostName :=
  records.foldl (placeAfter j) none

variable {records more : List Event} {j : JobId} {h : HostName} {known : Option HostName}
  {e : Event}

theorem lastPlace_append :
    lastPlace (records ++ more) j = more.foldl (placeAfter j) (lastPlace records j) :=
  foldl_append

theorem placeAfter_of_quiet (noStart : isStartOf j e = false) (noPend : isPendOf j e = false) :
    placeAfter j known e = known := by
  cases e with
  | jobStart start => exact if_neg (of_decide_eq_false noStart)
  | jobPend i now => exact if_neg (of_decide_eq_false noPend)
  | _ => rfl

theorem Aside.keeps (quiet : Aside e) : placeAfter j known e = known :=
  placeAfter_of_quiet (quiet j).1 (quiet j).2.1

theorem isStartOf_of_ne (other : recordJob e ≠ j) : isStartOf j e = false := by
  cases e with
  | jobStart start => exact decide_eq_false other
  | _ => rfl

theorem isPendOf_of_ne (other : recordJob e ≠ j) : isPendOf j e = false := by
  cases e with
  | jobPend i now => exact decide_eq_false other
  | _ => rfl

theorem isFinishOf_of_ne (other : recordJob e ≠ j) : isFinishOf j e = false := by
  cases e with
  | jobFinish => exact decide_eq_false other
  | _ => rfl

theorem foldl_placeAfter_eq (kept : ∀ e ∈ records, placeAfter j known e = known) :
    records.foldl (placeAfter j) known = known := by
  induction records with
  | nil => rfl
  | cons e records ih =>
    rw [foldl_cons, kept e mem_cons_self]
    exact ih fun e member => kept e (mem_cons_of_mem _ member)

theorem foldl_placeAfter_other (other : ∀ e ∈ records, recordJob e ≠ j) :
    records.foldl (placeAfter j) known = known :=
  foldl_placeAfter_eq fun e member =>
    placeAfter_of_quiet (isStartOf_of_ne (other e member)) (isPendOf_of_ne (other e member))

theorem countP_isFinishOf_other (other : ∀ e ∈ records, recordJob e ≠ j) :
    records.countP (isFinishOf j) = 0 :=
  countP_eq_zero.mpr fun e member => by
    rw [isFinishOf_of_ne (other e member)]
    decide

theorem latestStart_of_lastPlace (placed : lastPlace records j = some h) :
    LatestStart records j h := by
  induction records using List.reverseRecOn with
  | nil => cases placed
  | append_singleton records e ih =>
    rw [lastPlace_append, foldl_cons, foldl_nil] at placed
    by_cases starting : isStartOf j e = true
    · cases e with
      | jobStart start =>
        have id : start.jobId = j := of_decide_eq_true starting
        exact ⟨records, start, [], rfl, id, (if_pos id).symm.trans placed, forall_mem_nil _⟩
      | _ => cases starting
    · have noStart := Bool.eq_false_iff.mpr starting
      have noPend : isPendOf j e = false := by
        by_contra pending
        cases e with
        | jobPend i now =>
          have id : i = j := of_decide_eq_true (Bool.eq_true_of_not_eq_false pending)
          exact Option.some_ne_none h (placed.symm.trans (if_pos id))
        | _ => exact pending rfl
      rw [placeAfter_of_quiet noStart noPend] at placed
      obtain ⟨before, start, after, split, id, first, quiet⟩ := ih placed
      refine ⟨before, start, after ++ [e], by rw [split, append_assoc, cons_append], id,
        first, fun later member => ?_⟩
      rcases mem_append.mp member with earlier | last
      · exact quiet later earlier
      · rw [mem_singleton.mp last]
        exact ⟨noStart, noPend⟩

theorem exists_start_of_lastPlace (placed : lastPlace records j = some h) :
    ∃ e ∈ records, isStartOf j e = true := by
  obtain ⟨before, e, after, rfl, id, _⟩ := latestStart_of_lastPlace placed
  exact ⟨.jobStart e, mem_append_right _ mem_cons_self, decide_eq_true id⟩

/-! ### The course of a job -/

def Started (job : JobData) : Prop :=
  job.listId ≠ .pend ∧ job.dispatchTime ≠ 0

structure Course (records : List Event) (j : JobId) (job job' : JobData) : Prop where
  about : ∀ e ∈ records, recordJob e = j
  placed : ∀ place, (Started job → place = job.runHosts.head?) → Started job' →
    records.foldl (placeAfter j) place = job'.runHosts.head?
  ended : job'.listId = .finish → ∀ place, records.foldl (placeAfter j) place = place
  final : job.listId = .finish → job'.listId = .finish
  count : records.countP (isFinishOf j) + (if job.listId = .finish then 1 else 0) =
    if job'.listId = .finish then 1 else 0

def uncompacted (permits : Permit) : Permit :=
  fun m job report => report ≠ .compacted ∧ permits m job report

variable {conf : Conf} {permits : Permit} {m m' : MbdState} {job job' : JobData}

theorem Course.stays (about : ∀ e ∈ records, recordJob e = j) (quiet : ∀ e ∈ records, Aside e)
    (list : job'.listId = job.listId) (dispatched : job'.dispatchTime = job.dispatchTime)
    (hosts : job.listId ≠ .pend → job'.runHosts = job.runHosts) : Course records j job job' := by
  have still : ∀ place, records.foldl (placeAfter j) place = place := fun place =>
    foldl_placeAfter_eq fun e member =>
      (quiet e member).keeps
  refine ⟨about, fun place before started => ?_, fun _ => still, list.trans, ?_⟩
  · have left : job.listId ≠ .pend := by
      rw [← list]
      exact started.1
    rw [still, hosts left]
    exact before ⟨left, by rw [← dispatched]; exact started.2⟩
  · rw [list, countP_eq_zero.mpr fun e member => by rw [(quiet e member j).2.2]; decide,
      Nat.zero_add]

theorem Course.silent (list : job'.listId = job.listId)
    (dispatched : job'.dispatchTime = job.dispatchTime)
    (hosts : job.listId ≠ .pend → job'.runHosts = job.runHosts) : Course [] j job job' :=
  .stays (forall_mem_nil _) (forall_mem_nil _) list dispatched hosts

theorem Course.noted (about : recordJob e = j) (quiet : Aside e) (list : job'.listId = job.listId)
    (dispatched : job'.dispatchTime = job.dispatchTime) (hosts : job'.runHosts = job.runHosts) :
    Course [e] j job job' :=
  .stays (forall_mem_singleton.mpr about) (forall_mem_singleton.mpr quiet) list dispatched
    fun _ => hosts

theorem Course.dispatch {plan : List HostName} {text : String} {now : Time} (id : job.jobId = j)
    (pending : job.listId = .pend) : Course [eventJobStart (dispatchedJob job plan text now)] j job
      (dispatchedJob job plan text now) := by
  refine ⟨forall_mem_singleton.mpr id, fun place _ _ => ?_, nofun, fun ended => ?_, ?_⟩
  · have first : (dispatchedJob job plan text now).hosts.head? = plan.head? :=
      congrArg List.head? take_length
    exact (if_pos id).trans first
  · rw [pending] at ended
    cases ended
  · rw [pending]
    rfl

theorem Course.release {now : Time} (running : job.listId = .run) (back : job'.listId = .pend) :
    Course [.jobPend j now] j job job' := by
  refine ⟨forall_mem_singleton.mpr rfl, fun place _ started => absurd back started.1,
    fun ended => ?_, fun ended => ?_, ?_⟩
  · rw [back] at ended
    cases ended
  · rw [running] at ended
    cases ended
  · rw [running, back]
    rfl

theorem Course.finish (front : List Event) {last : JobData} (id : last.jobId = j)
    (about : ∀ e ∈ front, recordJob e = j) (quiet : ∀ e ∈ front, Aside e)
    (unfinished : job.listId ≠ .finish) (ended : job'.listId = .finish)
    (hosts : Started job' → Started job ∧ job'.runHosts = job.runHosts) :
    Course (front ++ [eventJobFinish last]) j job job' := by
  have still : ∀ place, (front ++ [eventJobFinish last]).foldl (placeAfter j) place = place := by
    intro place
    rw [foldl_append, foldl_placeAfter_eq fun e member =>
      (quiet e member).keeps]
    rfl
  refine ⟨?_, fun place before started => ?_, fun _ => still, fun final => absurd final unfinished,
    ?_⟩
  · intro e member
    rcases mem_append.mp member with earlier | final
    · exact about e earlier
    · rw [mem_singleton.mp final]
      exact id
  · obtain ⟨earlier, same⟩ := hosts started
    rw [still, same]
    exact before earlier
  · rw [if_neg unfinished, if_pos ended, countP_append,
      countP_eq_zero.mpr fun e member => by rw [(quiet e member j).2.2]; decide]
    simp [isFinishOf, eventJobFinish, id]

/--
What an effect other than a compaction does to the table and to the manifest: it
changes no job, or one job along its course.
-/
structure Journaled (m m' : MbdState) (records : List Event) : Prop where
  manifest : m'.manifest = m.manifest ++ records
  seqFile : m'.seqFile = m.seqFile
  jobs : (records = [] ∧ m'.jobs = m.jobs) ∨ ∃ j job job', m.jobs j = some job ∧
    m'.jobs = update m.jobs j (some job') ∧ Course records j job job'

theorem Journaled.isSome_jobs (journaled : Journaled m m' records) (i : JobId) :
    (m'.jobs i).isSome = (m.jobs i).isSome := by
  rcases journaled.jobs with ⟨_, same⟩ | ⟨j, job, job', found, jobs, _⟩
  · rw [same]
  · rw [jobs]
    by_cases same : i = j
    · subst same
      rw [update_self, found]
      rfl
    · rw [update_of_ne same]

theorem Change.journaled {onHost : HostChange} {onQueue : QueueChange} {pools : PoolName → Int}
    {sent : Outbox} (change : Change m m' j job job' onHost onQueue pools records sent)
    (course : Course records j job job') : Journaled m m' records :=
  ⟨change.manifest, change.seqFile, Or.inr ⟨j, job, job', change.found, change.jobs, course⟩⟩

theorem Effect.journaled (wf : Wf conf m) (effect : Effect conf (uncompacted permits) m m') :
    ∃ records, Journaled m m' records := by
  cases effect with
  | frame framed =>
    exact ⟨[], framed.manifest.trans (append_nil _).symm, framed.seqFile, Or.inl ⟨rfl, framed.jobs⟩⟩
  | ackReply _ _ sends | ackFinish _ _ sends =>
    subst sends
    exact ⟨[], (append_nil _).symm, rfl, Or.inl ⟨rfl, rfl⟩⟩
  | note _ change | stopped _ _ _ change | continued _ _ _ change =>
    exact ⟨_, change.journaled (.silent rfl rfl fun _ => rfl)⟩
  | stranded pending _ _ _ _ change =>
    exact ⟨_, change.journaled (.silent rfl rfl fun left => absurd pending left)⟩
  | dispatch pending _ _ _ _ _ _ _ change =>
    exact ⟨_, change.journaled (.dispatch (wf.job change.found).id pending)⟩
  | signalSent left _ change | move pending _ _ _ _ change | priority _ _ change
  | fork running _ _ _ _ change =>
    exact ⟨_, change.journaled (.noted (wf.job change.found).id (fun _ => ⟨rfl, rfl, rfl⟩) rfl rfl rfl)⟩
  | hold pending _ _ change | unhold pending _ _ change =>
    exact ⟨_, change.journaled (.stays
      (forall_mem_cons.mpr ⟨(wf.job change.found).id, forall_mem_singleton.mpr rfl⟩)
      (forall_mem_cons.mpr ⟨fun _ => ⟨rfl, rfl, rfl⟩,
        forall_mem_singleton.mpr fun _ => ⟨rfl, rfl, rfl⟩⟩)
      rfl rfl fun _ => rfl)⟩
  | kill pending _ _ _ change =>
    have wfJob := wf.job change.found
    exact ⟨_, change.journaled (.finish [_] wfJob.id (forall_mem_singleton.mpr wfJob.id)
      (forall_mem_singleton.mpr fun _ => ⟨rfl, rfl, rfl⟩)
      (by rw [pending]; decide) rfl
      fun started => absurd (wfJob.waiting pending).dispatchTime started.2)⟩
  | release running _ _ _ result _ _ change =>
    refine ⟨_, change.journaled (.release running ?_)⟩
    rcases result with rfl | rfl <;> rfl
  | finish running _ _ _ _ _ _ change =>
    exact ⟨_, change.journaled (.finish [] (wf.job change.found).id (forall_mem_nil _)
      (forall_mem_nil _) (by rw [running]; decide) rfl
      fun started => ⟨⟨by rw [running]; decide, started.2⟩, rfl⟩)⟩
  | compact permitted _ => exact absurd rfl (permitted default).1

/-! ### The journal and the table -/

/-- The records mbd has written so far agree with its table. -/
structure Attests (told : List Event) (m : MbdState) : Prop where
  placed : ∀ {j job}, m.jobs j = some job → Started job → lastPlace told j = job.runHosts.head?
  counted : ∀ {j job}, m.jobs j = some job →
    told.countP (isFinishOf j) = if job.listId = .finish then 1 else 0
  once : ∀ j, told.countP (isFinishOf j) ≤ 1
  fresh : ∀ j, m.seqFile < j → told.countP (isFinishOf j) = 0

/-- A job that was started and is not in the table any more has finished. -/
def Kept (told : List Event) (m : MbdState) : Prop :=
  ∀ j, (∃ e ∈ told, isStartOf j e = true) →
    (m.jobs j).isSome = true ∨ told.countP (isFinishOf j) = 1

variable {told : List Event}

theorem Attests.nil (empty : ∀ j, m.jobs j = none) : Attests [] m where
  placed := fun {j _} found => absurd (found.symm.trans (empty j)) (Option.some_ne_none _)
  counted := fun {j _} found => absurd (found.symm.trans (empty j)) (Option.some_ne_none _)
  once := fun _ => Nat.zero_le 1
  fresh := fun _ _ => rfl

theorem Attests.mono (attests : Attests told m) (saved : m.seqFile ≤ m'.seqFile)
    (kept : ∀ {j job'}, m'.jobs j = some job' → ∃ job, m.jobs j = some job ∧
      job'.listId = job.listId ∧ (Started job' → Started job ∧ job'.runHosts = job.runHosts)) :
    Attests told m' where
  placed := by
    intro j job' found' started
    obtain ⟨job, found, _, same⟩ := kept found'
    rw [(same started).2]
    exact attests.placed found (same started).1
  counted := by
    intro j job' found'
    obtain ⟨job, found, list, _⟩ := kept found'
    rw [list]
    exact attests.counted found
  once := attests.once
  fresh := fun j new => attests.fresh j (Int.lt_of_le_of_lt saved new)

theorem Attests.journaled (attests : Attests told m) (saved : IdsSaved m)
    (journaled : Journaled m m' records) : Attests (told ++ records) m' := by
  rcases journaled.jobs with ⟨rfl, same⟩ | ⟨i, job, job', found, jobs, course⟩
  · rw [append_nil]
    refine attests.mono (Int.le_of_eq journaled.seqFile.symm) fun {j job} at' => ?_
    rw [same] at at'
    exact ⟨job, at', rfl, fun started => ⟨started, rfl⟩⟩
  have others : ∀ {j}, j ≠ i → ∀ e ∈ records, recordJob e ≠ j := fun other e member same =>
    other (same.symm.trans (course.about e member))
  have counts : ∀ {j}, j ≠ i →
      (told ++ records).countP (isFinishOf j) = told.countP (isFinishOf j) := fun other => by
    rw [countP_append, countP_isFinishOf_other (others other), Nat.add_zero]
  have here : (told ++ records).countP (isFinishOf i) = if job'.listId = .finish then 1 else 0 := by
    rw [countP_append, attests.counted found, Nat.add_comm]
    exact course.count
  have back : ∀ {j found}, m'.jobs j = some found →
      (j = i ∧ found = job') ∨ (j ≠ i ∧ m.jobs j = some found) := by
    intro j other at'
    rw [jobs] at at'
    by_cases same : j = i
    · subst same
      rw [update_self] at at'
      exact Or.inl ⟨rfl, (Option.some.inj at').symm⟩
    · rw [update_of_ne same] at at'
      exact Or.inr ⟨same, at'⟩
  constructor
  · intro j changed at' started
    rw [lastPlace_append]
    rcases back at' with ⟨rfl, rfl⟩ | ⟨other, before⟩
    · exact course.placed _ (attests.placed found) started
    · rw [foldl_placeAfter_other (others other)]
      exact attests.placed before started
  · intro j changed at'
    rcases back at' with ⟨rfl, rfl⟩ | ⟨other, before⟩
    · exact here
    · rw [counts other]
      exact attests.counted before
  · intro j
    by_cases same : j = i
    · rw [same, here]
      split <;> decide
    · rw [counts same]
      exact attests.once j
  · intro j new
    rw [journaled.seqFile] at new
    have other : j ≠ i := fun same => absurd (saved found) (by rw [← same]; exact Int.not_le.mpr new)
    rw [counts other]
    exact attests.fresh j new

theorem Attests.running (attests : Attests told m) (wf : Wf conf m) (found : m.jobs j = some job)
    (run : job.listId = .run) : lastPlace told j = job.runHosts.head? :=
  attests.placed found
    ⟨by rw [run]; decide, Int.ne_of_gt ((wf.job found).running run).dispatchTime⟩

theorem Journaled.place (journaled : Journaled m m' records) (told : List Event) (j : JobId) :
    lastPlace (told ++ records) j = lastPlace told j ∨
      ∃ job', m'.jobs j = some job' ∧ job'.listId ≠ .finish := by
  rw [lastPlace_append]
  rcases journaled.jobs with ⟨rfl, _⟩ | ⟨i, job, job', found, jobs, course⟩
  · exact Or.inl rfl
  by_cases same : j = i
  · subst same
    by_cases ended : job'.listId = .finish
    · exact Or.inl (course.ended ended _)
    · exact Or.inr ⟨job', by rw [jobs, update_self], ended⟩
  · exact Or.inl (foldl_placeAfter_other fun e member about =>
      same (about.symm.trans (course.about e member)))

theorem Attests.still (attests : Attests (told ++ records) m)
    (finished : told.countP (isFinishOf j) = 1) : (told ++ records).countP (isFinishOf j) = 1 := by
  have most := attests.once j
  rw [countP_append, finished] at most ⊢
  omega

theorem recordJob_of_isStartOf (starting : isStartOf j e = true) : recordJob e = j := by
  by_contra other
  rw [isStartOf_of_ne other] at starting
  cases starting

theorem Kept.journaled (kept : Kept told m) (attests : Attests (told ++ records) m')
    (journaled : Journaled m m' records) : Kept (told ++ records) m' := by
  rintro j ⟨e, member, starting⟩
  rcases journaled.jobs with ⟨rfl, same⟩ | ⟨i, job, job', found, jobs, course⟩
  · rw [append_nil] at member ⊢
    rw [same]
    exact kept j ⟨e, member, starting⟩
  by_cases changed : j = i
  · subst changed
    rw [jobs, update_self]
    exact Or.inl rfl
  rw [jobs, update_of_ne changed]
  rcases mem_append.mp member with before | new
  · exact (kept j ⟨e, before, starting⟩).imp id attests.still
  · exact absurd ((recordJob_of_isStartOf starting).symm.trans (course.about e new)) changed

/-! ### Submissions, compactions and restarts -/

variable {ws : WireJobSubmit}

theorem Attests.noted (attests : Attests told m) (quiet : Aside e) : Attests (told ++ [e]) m := by
  have place : ∀ j, lastPlace (told ++ [e]) j = lastPlace told j := fun j => by
    rw [lastPlace_append]
    exact quiet.keeps
  have count : ∀ j, (told ++ [e]).countP (isFinishOf j) = told.countP (isFinishOf j) := fun j => by
    rw [countP_append, countP_singleton, (quiet j).2.2]
    rfl
  constructor
  · intro j job found started
    rw [place]
    exact attests.placed found started
  · intro j job found
    rw [count]
    exact attests.counted found
  · intro j
    rw [count]
    exact attests.once j
  · intro j new
    rw [count]
    exact attests.fresh j new

theorem MirrorJob.place {replayed : JobData} (mirrored : MirrorJob replayed job)
    (left : job.listId ≠ .pend) : replayed.dispatchTime = job.dispatchTime ∧
      (job.dispatchTime ≠ 0 → replayed.runHosts = job.runHosts) := by
  cases list : job.listId with
  | pend => exact absurd list left
  | run => exact ⟨(mirrored.running list).2.1, fun _ => (mirrored.running list).2.2.1⟩
  | finish =>
    obtain ⟨_, _, dispatched, hosts, _⟩ := mirrored.finished list
    exact ⟨dispatched, fun started => (hosts started).1⟩

theorem Attests.restored (attests : Attests told m) (restored : Restored conf m m') : Attests told m' := by
  refine attests.mono (Int.le_of_eq restored.seqFile.symm) fun {j replayed} found => ?_
  obtain ⟨job, live, mirrored⟩ := restored.mirror found
  have list := mirrored.listId
  refine ⟨job, live, list, fun started => ?_⟩
  have left : job.listId ≠ .pend := by
    rw [← list]
    exact started.1
  rcases mirrored.place left with ⟨dispatched, hosts⟩
  exact ⟨⟨left, by rw [← dispatched]; exact started.2⟩, hosts (by rw [← dispatched]; exact started.2)⟩

theorem Kept.mono (kept : Kept told m)
    (jobs : ∀ j, (m.jobs j).isSome = true → (m'.jobs j).isSome = true ∨
      told.countP (isFinishOf j) = 1) : Kept told m' := by
  intro j started
  exact (kept j started).elim (jobs j) Or.inr

theorem Attests.congr (attests : Attests told m) (jobs : m'.jobs = m.jobs)
    (saved : m.seqFile ≤ m'.seqFile) : Attests told m' := by
  refine attests.mono saved fun {j job} found => ?_
  rw [jobs] at found
  exact ⟨job, found, rfl, fun started => ⟨started, rfl⟩⟩

theorem Attests.commit {q : QueueName} (attests : Attests told m)
    (commit : Commit conf ws m m' q job) : Attests (told ++ [eventJobNew job ws]) m' := by
  have before := attests.noted (e := eventJobNew job ws) fun _ => ⟨rfl, rfl, rfl⟩
  have list := commit.prepared.list
  constructor
  · intro j found at' started
    rcases commit.jobs_cases at' with ⟨rfl, rfl⟩ | earlier
    · exact absurd list started.1
    · exact before.placed earlier started
  · intro j found at'
    rcases commit.jobs_cases at' with ⟨rfl, rfl⟩ | earlier
    · rw [before.fresh _ commit.unsaved, list]
      rfl
    · exact before.counted earlier
  · exact before.once
  · rw [commit.seqFile]
    exact before.fresh

theorem Attests.registers (attests : Attests told m) (wf : Wf conf m)
    (registers : Registers conf ws m m') :
    ∃ records, m'.manifest = m.manifest ++ records ∧ (∀ e ∈ records, Aside e) ∧
      Attests (told ++ records) m' ∧ ∀ j, (m.jobs j).isSome = true → (m'.jobs j).isSome = true := by
  refine registers.keeps_of_wf (fun m₁ => ∃ records, m₁.manifest = m.manifest ++ records ∧
    (∀ e ∈ records, Aside e) ∧ Attests (told ++ records) m₁ ∧
      ∀ j, (m.jobs j).isSome = true → (m₁.jobs j).isSome = true) ?_ ?_ ?_ wf ?_
  · rintro m₁ m₂ - ⟨records, manifest, quiet, agrees, more⟩ framed
    refine ⟨records, framed.manifest.trans manifest, quiet,
      agrees.congr framed.jobs (Int.le_of_eq framed.seqFile.symm), ?_⟩
    rw [framed.jobs]
    exact more
  · rintro m₁ m₂ q job - ⟨records, manifest, quiet, agrees, more⟩ commit
    refine ⟨records ++ [eventJobNew job ws], ?_, ?_, ?_, fun j there => ?_⟩
    · rw [commit.manifest, manifest, append_assoc]
    · intro e member
      rcases mem_append.mp member with before | last
      · exact quiet e before
      · rw [mem_singleton.mp last]
        exact fun _ => ⟨rfl, rfl, rfl⟩
    · rw [← append_assoc]
      exact agrees.commit commit
    · rw [commit.jobs]
      by_cases new : j = job.jobId
      · rw [new, update_self]
        rfl
      · rw [update_of_ne new]
        exact more j there
  · rintro m₁ sound ⟨records, manifest, quiet, agrees, more⟩
    exact ⟨records, manifest, quiet, agrees.congr rfl sound.saved.2, more⟩
  · exact ⟨[], (append_nil _).symm, forall_mem_nil _,
      by rw [append_nil]; exact attests, fun _ => id⟩

theorem Kept.registers (kept : Kept told m) (quiet : ∀ e ∈ records, Aside e)
    (attests : Attests (told ++ records) m')
    (more : ∀ j, (m.jobs j).isSome = true → (m'.jobs j).isSome = true) :
    Kept (told ++ records) m' := by
  rintro j ⟨e, member, starting⟩
  rcases mem_append.mp member with before | new
  · exact (kept j ⟨e, before, starting⟩).imp (more j) attests.still
  · rw [(quiet e new j).1] at starting
    cases starting

theorem CompactRecord.placeAfter_eq {begun : Prop} (record : CompactRecord begun job e) :
    (∀ i place, placeAfter i place e = place) ∨ (begun ∧ compactWriteJobStart job = some e) := by
  cases record with
  | start dispatched written => exact .inr ⟨dispatched, written⟩
  | _ => exact .inl fun _ _ => rfl

theorem Attests.restarted (attests : Attests told m) (wf : Wf conf m) (found : m.jobs j = some job)
    (started : Started job) (placed : Placed conf job) (written : compactWriteJobStart job = some e)
    (i : JobId) : placeAfter i (lastPlace told i) e = lastPlace told i := by
  obtain ⟨-, start, rfl, id, -, hosts⟩ := CompactRecord.start_cases written
  have first : start.hosts.head? = job.runHosts.head? := by
    have filled := length_pos_of_ne_nil placed.nonempty
    have count := placed.count
    have whole := placed.whole
    rw [hosts, head?_take, if_neg (by omega)]
  change (if _ then _ else _) = _
  split
  next same => rw [first, ← attests.placed found started, ← same, id, (wf.job found).id]
  next => rfl

theorem Attests.restated (attests : Attests told m) (wf : Wf conf m)
    (compacted : manifestRebuild m = some m') (i : JobId) :
    m'.manifest.foldl (placeAfter i) (lastPlace told i) = lastPlace told i := by
  refine foldl_placeAfter_eq fun e member => ?_
  obtain ⟨id, j, job, listed, found, record⟩ := mem_manifestRebuild compacted member
  have onList := (wf.toListed.mem_iff found id).mp listed
  rcases record.placeAfter_eq with quiet | ⟨begun, written⟩
  · exact quiet i _
  · cases id with
    | pend => exact absurd begun not_false
    | run =>
      have running := (wf.job found).running onList
      exact attests.restarted wf found ⟨by rw [onList]; decide, Int.ne_of_gt running.dispatchTime⟩
        running.toPlaced written i
    | finish =>
      exact attests.restarted wf found ⟨by rw [onList]; decide, begun⟩
        (((wf.job found).finished onList).placed begun) written i

theorem Attests.compacted (attests : Attests told m) (wf : Wf conf m)
    (compacted : manifestRebuild m = some m') : Attests told m' ∧ (Kept told m → Kept told m') := by
  obtain ⟨_, _, rfl⟩ := manifestRebuild_spec compacted
  refine ⟨attests.mono (Int.le_refl _) fun {j job} found => ?_, fun kept => kept.mono fun j there => ?_⟩
  · dsimp only at found
    split at found
    · cases found
    · exact ⟨job, found, rfl, fun started => ⟨started, rfl⟩⟩
  · dsimp only
    split
    next freed =>
      obtain ⟨job, found⟩ := Option.isSome_iff_exists.mp there
      rw [attests.counted found, (wf.toListed.mem_iff found .finish).mp freed.1]
      exact Or.inr rfl
    next => exact Or.inl there

end LavaLite.Mbd
