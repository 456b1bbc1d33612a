import Mathlib.Data.List.Infix
import LavaLite.Cluster.Protocol

/-
The steps of an sbd and of the connection keep the agreement: a message is read,
a report is sent, messages are lost, the daemon is started again.
-/

namespace LavaLite.Cluster

open Base Batch Mbd Sbd Kernel List Option

variable {m : MbdState} {h : HostName} {link link' : Link} {sbd sbd' : SbdState} {j : JobId}
  {msg : MbdMsg} {sent : List SbdMsg}

theorem JobLink.shrink (linked : JobLink m h link sbd j) (orders : link'.toSbd <+: link.toSbd)
    (reports : link'.reports.Sublist link.reports) (held : Held sbd' j ↔ Held sbd j)
    (flags : ∀ job ∈ sbd'.jobs, job.jobId = j → job.pidAcked = true ∨ job.savedAcked = true →
      Forked m j) : JobLink m h link' sbd' j where
  saved := by
    rintro (holds | ⟨msg, member, about⟩ | ⟨msg, member, about⟩)
    · exact linked.saved (Or.inl (held.mp holds))
    · exact linked.saved (Or.inr (Or.inl ⟨msg, reports.subset member, about⟩))
    · exact linked.saved (Or.inr (Or.inr ⟨msg, orders.subset member, about⟩))
  held := fun holds => linked.held (held.mp holds)
  acked := flags
  answered := fun msg member about =>
    (linked.answered msg (reports.subset member) about).imp held.mpr id
  finished := fun msg member about => linked.finished msg (reports.subset member) about
  refused := fun msg member about =>
    (linked.refused msg (reports.subset member) about).imp id (mt held.mp)
  started := fun msg member about =>
    (linked.started msg (orders.subset member) about).imp id (mt held.mp)
  listed := fun msg member about notHeld =>
    linked.listed msg (orders.subset member) about (mt held.mpr notHeld)
  past := fun msg member about => linked.past msg (orders.subset member) about
  acks := by
    intro before after split known
    obtain ⟨rest, whole⟩ := orders
    refine linked.acks before (after ++ rest) ?_ (known.imp held.mp id)
    rw [← whole, split, append_assoc, cons_append]
  once := by
    have fewer := orders.sublist.countP_le (p := asks j)
    have fewer' := reports.countP_le (p := refuses j)
    have before := linked.once
    omega

theorem JobLink.report (linked : JobLink m h link sbd j) (sent : List SbdMsg)
    (orders : link'.toSbd = link.toSbd)
    (reports : ∀ r ∈ link'.reports, r ∈ link.reports ∨ r ∈ sent)
    (count : link'.reports.countP (refuses j) ≤
      link.reports.countP (refuses j) + sent.countP (refuses j))
    (answering : ∀ r ∈ sent, answers j r = true → Held sbd j)
    (finishing : ∀ r ∈ sent, finishes j r = true → Forked m j)
    (willing : sent.countP (refuses j) = 0) : JobLink m h link' sbd j where
  saved := by
    rintro (holds | ⟨r, member, about⟩ | ⟨order, member, about⟩)
    · exact linked.saved (Or.inl holds)
    · rcases reports r member with before | new
      · exact linked.saved (Or.inr (Or.inl ⟨r, before, about⟩))
      · rcases about with about | about
        · exact linked.saved (Or.inl (answering r new about))
        · exact absurd about (countP_eq_zero.mp willing r new)
    · rw [orders] at member
      exact linked.saved (Or.inr (Or.inr ⟨order, member, about⟩))
  held := linked.held
  acked := linked.acked
  answered := by
    intro r member about
    rcases reports r member with before | new
    · exact linked.answered r before about
    · exact Or.inl (answering r new about)
  finished := by
    intro r member about
    rcases reports r member with before | new
    · exact linked.finished r before about
    · exact finishing r new about
  refused := by
    intro r member about
    rcases reports r member with before | new
    · exact linked.refused r before about
    · exact absurd about (countP_eq_zero.mp willing r new)
  started := by
    rw [orders]
    exact linked.started
  listed := by
    rw [orders]
    exact linked.listed
  past := by
    rw [orders]
    exact linked.past
  acks := by
    rw [orders]
    exact linked.acks
  once := by
    have before := linked.once
    rw [orders]
    omega

/-- What an sbd did with one message, as far as one job is concerned. -/
structure Handled (m : MbdState) (sbd sbd' : SbdState) (j : JobId) (msg : MbdMsg)
    (sent : List SbdMsg) : Prop where
  gained : Held sbd' j → Held sbd j ∨ starts j msg = true
  lost : Held sbd j → Held sbd' j ∨ releases j msg = true
  flags : ∀ job ∈ sbd'.jobs, job.jobId = j → job.pidAcked = true ∨ job.savedAcked = true →
    Forked m j
  answering : ∀ r ∈ sent, answers j r = true → Held sbd' j
  finishing : ∀ r ∈ sent, finishes j r = false
  refusing : ∀ r ∈ sent, refuses j r = true → ¬ Held sbd' j
  once : sent.countP (refuses j) ≤ if asks j msg = true then 1 else 0

theorem releases_of_asks (asking : asks j msg = true) : releases j msg = false := by
  cases msg <;> first | rfl | (cases asking)

theorem asks_of_refusal {r : SbdMsg} (handled : Handled m sbd sbd' j msg sent) (member : r ∈ sent)
    (about : refuses j r = true) : asks j msg = true := by
  by_contra idle
  have few := handled.once
  have some' := countP_pos_iff.mpr ⟨r, member, about⟩
  rw [if_neg idle] at few
  omega

theorem JobLink.handle (linked : JobLink m h link sbd j) (orders : link.toSbd = msg :: link'.toSbd)
    (reports : ∀ r ∈ link'.reports, r ∈ link.reports ∨ r ∈ sent)
    (count : link'.reports.countP (refuses j) ≤
      link.reports.countP (refuses j) + sent.countP (refuses j))
    (handled : Handled m sbd sbd' j msg sent)
    (plain : ∀ order ∈ link'.toSbd, isRegisterAck order = false) : JobLink m h link' sbd' j := by
  have first : msg ∈ link.toSbd := by
    rw [orders]
    exact mem_cons_self
  have later : ∀ {order}, order ∈ link'.toSbd → order ∈ link.toSbd := by
    intro order member
    rw [orders]
    exact mem_cons_of_mem msg member
  have counted : link.toSbd.countP (asks j) =
      link'.toSbd.countP (asks j) + if asks j msg = true then 1 else 0 := by
    rw [orders, countP_cons]
  have asking : ∀ {order}, starts j order = true → asks j order = true := fun starting =>
    Bool.or_eq_true_iff.mpr (Or.inl starting)
  have mentioned : Held sbd' j → Mentions link sbd j := fun holds =>
    (handled.gained holds).imp id fun starting =>
      Or.inr ⟨msg, first, Or.inl (asking starting)⟩
  have before := linked.once
  constructor
  · rintro (holds | ⟨r, member, about⟩ | ⟨order, member, about⟩)
    · exact linked.saved (mentioned holds)
    · rcases reports r member with old | new
      · exact linked.saved (Or.inr (Or.inl ⟨r, old, about⟩))
      · rcases about with about | about
        · exact linked.saved (mentioned (handled.answering r new about))
        · exact linked.saved (Or.inr (Or.inr ⟨msg, first,
            Or.inl (asks_of_refusal handled new about)⟩))
    · exact linked.saved (Or.inr (Or.inr ⟨order, later member, about⟩))
  · intro holds
    rcases handled.gained holds with held | starting
    · exact linked.held held
    · exact fun job found => Or.inl ((linked.started msg first starting).1 job found)
  · exact handled.flags
  · intro r member about
    rcases reports r member with old | new
    · rcases linked.answered r old about with held | past
      · exact (handled.lost held).imp id (linked.past msg first)
      · exact Or.inr past
    · exact Or.inl (handled.answering r new about)
  · intro r member about
    rcases reports r member with old | new
    · exact linked.finished r old about
    · rw [handled.finishing r new] at about
      cases about
  · intro r member about
    rcases reports r member with old | new
    · obtain ⟨runs, notHeld⟩ := linked.refused r old about
      refine ⟨runs, fun holds => ?_⟩
      rcases handled.gained holds with held | starting
      · exact notHeld held
      · have refusal := countP_pos_iff.mpr ⟨r, old, about⟩
        rw [if_pos (asking starting)] at counted
        omega
    · have asked := asks_of_refusal handled new about
      have notHeld := handled.refusing r new about
      refine ⟨?_, notHeld⟩
      rcases Bool.or_eq_true_iff.mp asked with starting | listing
      · exact (linked.started msg first starting).1
      · refine linked.listed msg first listing fun held => ?_
        rcases handled.lost held with holds | releasing
        · exact notHeld holds
        · rw [releases_of_asks asked] at releasing
          cases releasing
  · intro order member about
    obtain ⟨runs, notHeld⟩ := linked.started order (later member) about
    refine ⟨runs, fun holds => ?_⟩
    rcases handled.gained holds with held | starting
    · exact notHeld held
    · have again := countP_pos_iff.mpr ⟨order, member, asking about⟩
      rw [if_pos (asking starting)] at counted
      omega
  · intro order member about
    have first : isRegisterAck order = true := by cases order <;> first | rfl | (cases about)
    rw [plain order member] at first
    cases first
  · exact fun order member about => linked.past order (later member) about
  · intro before' after split known
    refine linked.acks (msg :: before') after ?_ ?_
    · rw [orders, split]
      rfl
    · rcases known with holds | ⟨order, member, about⟩
      · exact (handled.gained holds).imp id fun starting => ⟨msg, mem_cons_self, starting⟩
      · exact Or.inr ⟨order, mem_cons_of_mem msg member, about⟩
  · have few := handled.once
    omega

/-! ### What an sbd holds -/

variable {i : JobId} {f g : SbdJob → SbdJob} {jobs : List SbdJob}

theorem find_eq_none : sbd.find j = none ↔ ¬ Held sbd j := by
  unfold SbdState.find Held
  simp [find?_eq_none]

theorem held_of_find {job : SbdJob} (found : sbd.find j = some job) :
    job ∈ sbd.jobs ∧ job.jobId = j := by
  unfold SbdState.find at found
  have id := find?_some found
  exact ⟨mem_of_find?_eq_some found, of_decide_eq_true id⟩

theorem mem_modify {job' : SbdJob} (member : job' ∈ (sbd.modify i f).jobs) :
    ∃ job ∈ sbd.jobs, job' = if job.jobId = i then f job else job := by
  obtain ⟨job, before, same⟩ := List.mem_map.mp member
  exact ⟨job, before, same.symm⟩

theorem held_map (ids : ∀ job, (g job).jobId = job.jobId) :
    Held { jobs := jobs.map g } j ↔ Held { jobs := jobs } j := by
  simp [Held, ids]

theorem ids_map (ids : ∀ job, (g job).jobId = job.jobId) :
    (jobs.map g).map SbdJob.jobId = jobs.map SbdJob.jobId := by
  simp [ids]

theorem modify_ids (ids : ∀ job, (f job).jobId = job.jobId) (job : SbdJob) :
    (if job.jobId = i then f job else job).jobId = job.jobId := by
  split
  · exact ids job
  · rfl

theorem held_linkDown : Held (sbdMbdLinkDown sbd) j ↔ Held sbd j :=
  held_map fun _ => rfl

theorem held_loadAll : Held (sbdJobStateLoadAll sbd) j ↔ Held sbd j :=
  held_map fun _ => rfl

theorem held_exited {status : Int} : Held (jobExited sbd i status) j ↔ Held sbd j :=
  held_map (modify_ids fun _ => rfl)

/-! ### The messages an sbd reads -/

variable {rest : List MbdMsg}

theorem Handled.same (linked : JobLink m h link sbd j) : Handled m sbd sbd j msg [] :=
  ⟨Or.inl, Or.inl, linked.acked, nofun, nofun, nofun, Nat.zero_le _⟩

theorem handled_newJob {start : WireJobStart} {outcome : StartOutcome}
    (linked : HostLink m h link sbd) (first : .newJob start ∈ link.toSbd)
    (done : sbdJobNew sbd start.jobId outcome = (sbd', sent)) :
    (∀ j, Handled m sbd sbd' j (.newJob start) sent) ∧ (sbd'.jobs.map SbdJob.jobId).Nodup := by
  have starting : starts start.jobId (.newJob start) = true := decide_eq_true rfl
  have notHeld := ((linked.job start.jobId).started _ first starting).2
  unfold sbdJobNew at done
  rw [find_eq_none.mpr notHeld] at done
  cases outcome with
  | failed =>
    cases done
    refine ⟨fun j => ⟨Or.inl, Or.inl, (linked.job j).acked, ?_, ?_, ?_, ?_⟩, linked.distinct⟩
    · simp [answers]
    · simp [finishes]
    · simp only [forall_mem_singleton, refuses, decide_eq_true_eq]
      rintro rfl
      exact notHeld
    · by_cases same : start.jobId = j
      · simp [asks, starts, refuses, same]
      · simp [refuses, same]
  | started pid =>
    cases done
    refine ⟨fun j => ⟨?_, ?_, ?_, ?_, ?_, ?_, ?_⟩, ?_⟩
    · rintro ⟨job, member, id⟩
      rcases mem_append.mp member with before | last
      · exact Or.inl ⟨job, before, id⟩
      · rw [mem_singleton.mp last] at id
        exact Or.inr (decide_eq_true id)
    · rintro ⟨job, member, id⟩
      exact Or.inl ⟨job, mem_append_left _ member, id⟩
    · intro job member id known
      rcases mem_append.mp member with before | last
      · exact (linked.job j).acked job before id known
      · rw [mem_singleton.mp last] at known
        rcases known with known | known <;> cases known
    · simp only [forall_mem_singleton, answers, decide_eq_true_eq]
      exact fun same => ⟨_, mem_append_right _ mem_cons_self, same⟩
    · simp [finishes]
    · simp [refuses]
    · simp [refuses]
    · rw [map_append, map_singleton, ← concat_eq_append]
      refine linked.distinct.concat fun member => ?_
      obtain ⟨job, before, id⟩ := List.mem_map.mp member
      exact notHeld ⟨job, before, id⟩

theorem handled_replyAck (linked : HostLink m h link sbd)
    (orders : link.toSbd = .newJobReplyAck i :: rest) :
    (∀ j, Handled m sbd (sbdJobNewReplyAck sbd i) j (.newJobReplyAck i) []) ∧
      ((sbdJobNewReplyAck sbd i).jobs.map SbdJob.jobId).Nodup := by
  unfold sbdJobNewReplyAck
  split
  · exact ⟨fun j => Handled.same (linked.job j), linked.distinct⟩
  next job found =>
    split
    · exact ⟨fun j => Handled.same (linked.job j), linked.distinct⟩
    · have held : Held sbd i := ⟨job, held_of_find found⟩
      have ids : ∀ job : SbdJob, (SbdJob.write { job with pidAcked := true }).jobId = job.jobId :=
        fun _ => rfl
      have same : ∀ j, Held (sbd.modify i fun job => SbdJob.write { job with pidAcked := true }) j ↔
          Held sbd j := fun j => held_map (modify_ids ids)
      refine ⟨fun j => ?_, ?_⟩
      · refine ⟨fun holds => Or.inl ((same j).mp holds), fun holds => Or.inl ((same j).mpr holds),
          ?_, nofun, nofun, nofun, Nat.zero_le _⟩
        intro job' member id known
        obtain ⟨job, before, isJob⟩ := mem_modify member
        split at isJob
        next isI =>
          subst isJob
          have isJ : i = j := isI.symm.trans id
          rw [← isJ]
          exact (linked.job i).acks [] rest orders (Or.inl held)
        next =>
          subst isJob
          exact (linked.job j).acked _ before id known
      · rw [SbdState.modify, ids_map (modify_ids ids)]
        exact linked.distinct

theorem handled_finishAck (linked : HostLink m h link sbd)
    (done : sbdJobFinishAck sbd i = some sbd') :
    (∀ j, Handled m sbd sbd' j (.jobFinishAck i) []) ∧ (sbd'.jobs.map SbdJob.jobId).Nodup := by
  unfold sbdJobFinishAck at done
  split at done
  · cases done
    exact ⟨fun j => Handled.same (linked.job j), linked.distinct⟩
  · split at done
    · cases done
      refine ⟨fun j => ?_, ?_⟩
      · refine ⟨?_, ?_, ?_, nofun, nofun, nofun, Nat.zero_le _⟩
        · rintro ⟨job, member, id⟩
          exact Or.inl ⟨job, mem_of_mem_filter member, id⟩
        · rintro ⟨job, member, id⟩
          by_cases released : job.jobId = i
          · exact Or.inr (decide_eq_true (released.symm.trans id))
          · exact Or.inl ⟨job, mem_filter.mpr ⟨member, by simpa using released⟩, id⟩
        · exact fun job member => (linked.job j).acked job (mem_of_mem_filter member)
      · exact linked.distinct.sublist (filter_sublist.map _)
    · cases done

theorem handled_signal {sig : Int} {delivered : Bool} (linked : HostLink m h link sbd) (j : JobId) :
    Handled m sbd sbd j (.jobSignal i sig) (sbdJobSignal sbd i sig delivered) := by
  unfold sbdJobSignal
  split
  · refine ⟨Or.inl, Or.inl, (linked.job j).acked, ?_, ?_, ?_, ?_⟩
    · simp [answers]
    · simp [finishes]
    · simp [refuses]
    · simp [refuses]
  next found =>
    refine ⟨Or.inl, Or.inl, (linked.job j).acked, ?_, ?_, ?_, ?_⟩
    · simp only [forall_mem_singleton, answers, Bool.and_eq_true, decide_eq_true_eq]
      rintro ⟨_, rfl⟩
      exact ⟨_, held_of_find found⟩
    · simp [finishes]
    · simp [refuses]
    · simp [refuses]

/-- The loop of `sbd_register_ack`: what it changes and what it sends. -/
structure Registered (entries : List (JobId × Int)) (sbd sbd' : SbdState) (sent : List SbdMsg) :
    Prop where
  held : ∀ j, Held sbd' j ↔ Held sbd j
  ids : sbd'.jobs.map SbdJob.jobId = sbd.jobs.map SbdJob.jobId
  flags : ∀ job' ∈ sbd'.jobs, ∃ job ∈ sbd.jobs, job'.jobId = job.jobId ∧
    (job'.pidAcked = true → job.pidAcked = true) ∧ job'.savedAcked = job.savedAcked
  missing : ∀ r ∈ sent, ∃ i, r = .jobMissing i ∧ ¬ Held sbd i
  once : ∀ j, sent.countP (refuses j) ≤ (entries.map Prod.fst).count j

theorem sbdRegisterAck_spec {entries : List (JobId × Int)}
    (done : sbdRegisterAck entries sbd = some (sbd', sent)) : Registered entries sbd sbd' sent := by
  induction entries generalizing sbd sbd' sent with
  | nil =>
    cases done
    exact ⟨fun _ => Iff.rfl, rfl, fun job member => ⟨job, member, rfl, id, rfl⟩, nofun,
      fun _ => Nat.zero_le _⟩
  | cons entry rest ih =>
    obtain ⟨i, mbdPid⟩ := entry
    have more : ∀ j, (rest.map Prod.fst).count j ≤ (((i, mbdPid) :: rest).map Prod.fst).count j :=
      fun j => (sublist_cons_self _ _).count_le j
    unfold sbdRegisterAck at done
    split at done
    next unknown =>
      obtain ⟨⟨later, others⟩, looped, done⟩ := bind_eq_some_iff.mp done
      cases done
      have registered := ih looped
      refine { registered with missing := ?_, once := ?_ }
      · intro r member
        rcases mem_cons.mp member with rfl | member
        · exact ⟨i, rfl, find_eq_none.mp unknown⟩
        · exact registered.missing r member
      · intro j
        have few := registered.once j
        simp only [countP_cons, map_cons, count_cons, refuses]
        by_cases same : i = j
        · simp [same, few]
        · simp [same, few]
    next job found =>
      split at done
      · cases done
      · split at done
        · split at done
          · have registered := ih done
            exact { registered with once := fun j => Nat.le_trans (registered.once j) (more j) }
          · cases done
        · have registered := ih done
          have ids : ∀ job : SbdJob, ({ job with pidAcked := false } : SbdJob).jobId = job.jobId :=
            fun _ => rfl
          have same : ∀ j, Held (sbd.modify i fun job => { job with pidAcked := false }) j ↔
              Held sbd j := fun j => held_map (modify_ids ids)
          refine ⟨fun j => (registered.held j).trans (same j),
            registered.ids.trans (ids_map (modify_ids ids)), ?_, ?_,
            fun j => Nat.le_trans (registered.once j) (more j)⟩
          · intro job' member
            obtain ⟨between, there, sameId, acked, saved⟩ := registered.flags job' member
            obtain ⟨job, before, isJob⟩ := mem_modify there
            refine ⟨job, before, ?_⟩
            split at isJob
            · subst isJob
              exact ⟨sameId, fun known => (by cases acked known), saved⟩
            · subst isJob
              exact ⟨sameId, acked, saved⟩
          · intro r member
            obtain ⟨k, isMissing, notHeld⟩ := registered.missing r member
            exact ⟨k, isMissing, mt (same k).mpr notHeld⟩

theorem handled_registerAck {jobs : List (JobId × Int)} (linked : HostLink m h link sbd)
    (distinct : (jobs.map Prod.fst).Nodup) (done : sbdRegisterAck jobs sbd = some (sbd', sent)) :
    (∀ j, Handled m sbd sbd' j (.registerAck jobs) sent) ∧ (sbd'.jobs.map SbdJob.jobId).Nodup := by
  have registered := sbdRegisterAck_spec done
  refine ⟨fun j => ⟨fun holds => Or.inl ((registered.held j).mp holds),
    fun holds => Or.inl ((registered.held j).mpr holds), ?_, ?_, ?_, ?_, ?_⟩, ?_⟩
  · intro job' member id known
    obtain ⟨job, before, sameId, acked, saved⟩ := registered.flags job' member
    refine (linked.job j).acked job before (sameId.symm.trans id) (known.imp acked fun isSaved => ?_)
    rw [← saved]
    exact isSaved
  · intro r member answer
    obtain ⟨k, rfl, _⟩ := registered.missing r member
    cases answer
  · intro r member
    obtain ⟨k, rfl, _⟩ := registered.missing r member
    rfl
  · intro r member refusal
    obtain ⟨k, rfl, notHeld⟩ := registered.missing r member
    have isJ : k = j := of_decide_eq_true refusal
    rw [← isJ]
    exact mt (registered.held k).mp notHeld
  · have few := registered.once j
    have single := nodup_iff_count_le_one.mp distinct j
    by_cases listed : j ∈ jobs.map Prod.fst
    · have asked : asks j (.registerAck jobs) = true := by
        obtain ⟨entry, member, isJ⟩ := List.mem_map.mp listed
        refine Bool.or_eq_true_iff.mpr (Or.inr ?_)
        exact List.any_eq_true.mpr ⟨entry, member, decide_eq_true isJ⟩
      rw [if_pos asked]
      omega
    · rw [count_eq_zero.mpr listed] at few
      omega
  · rw [registered.ids]
    exact linked.distinct

/-! ### Steps of one host -/

variable {conf : Conf} {r : SbdMsg} {outcome : StartOutcome} {delivered : Bool}

theorem side_sendFromSbd : (sendFromSbd link sent).side = link.side := by
  unfold sendFromSbd
  split <;> rfl

theorem toSbd_sendFromSbd : (sendFromSbd link sent).toSbd = link.toSbd := by
  unfold sendFromSbd
  split <;> rfl

theorem reports_sendFromSbd (link : Link) (sent : List SbdMsg) :
    (sendFromSbd link sent).reports = link.reports ∨
      (sendFromSbd link sent).reports = link.fromSbd ++ sent ++ link.queued ∨
      (sendFromSbd link sent).reports = link.fromSbd ++ (link.queued ++ sent) := by
  unfold sendFromSbd
  split
  · exact Or.inr (Or.inl rfl)
  · exact Or.inr (Or.inr rfl)
  · exact Or.inl rfl

theorem mem_reports_sendFromSbd (member : r ∈ (sendFromSbd link sent).reports) :
    r ∈ link.reports ∨ r ∈ sent := by
  rcases reports_sendFromSbd link sent with same | same | same <;> rw [same] at member
  · exact Or.inl member
  all_goals
    simp only [Link.reports, mem_append] at member ⊢
    tauto

theorem countP_reports_sendFromSbd (p : SbdMsg → Bool) :
    (sendFromSbd link sent).reports.countP p ≤ link.reports.countP p + sent.countP p := by
  have whole : link.reports.countP p = link.fromSbd.countP p + link.queued.countP p :=
    countP_append
  rcases reports_sendFromSbd link sent with same | joined | fresh
  · rw [same]
    exact Nat.le_add_right _ _
  · rw [joined, countP_append, countP_append]
    omega
  · rw [fresh, countP_append, countP_append]
    omega

theorem mem_queued_sendFromSbd (member : r ∈ (sendFromSbd link sent).queued) :
    r ∈ link.queued ∨ (link.side = .fresh ∧ r ∈ sent) := by
  unfold sendFromSbd at member
  split at member
  · exact Or.inl member
  next isFresh => exact (mem_append.mp member).imp id fun new => ⟨isFresh, new⟩
  · exact Or.inl member

theorem HostLink.handled (linked : HostLink m h link sbd) (orders : link.toSbd = msg :: rest)
    (done : sbdHandle sbd msg outcome delivered = some (sbd', sent)) :
    (∀ j, Handled m sbd sbd' j msg sent) ∧ (sbd'.jobs.map SbdJob.jobId).Nodup := by
  have first : msg ∈ link.toSbd := by
    rw [orders]
    exact mem_cons_self
  cases msg with
  | newJob start => exact handled_newJob linked first (Option.some.inj done)
  | newJobReplyAck i =>
    cases done
    exact handled_replyAck linked orders
  | jobFinishAck i =>
    obtain ⟨after, acked, done⟩ := map_eq_some_iff.mp done
    cases done
    exact handled_finishAck linked acked
  | jobSignal i sig =>
    cases done
    exact ⟨handled_signal linked, linked.distinct⟩
  | registerAck jobs => exact handled_registerAck linked (linked.listsOnce jobs first) done

theorem HostLink.read (linked : HostLink m h link sbd) (orders : link.toSbd = msg :: rest)
    (done : sbdHandle sbd msg outcome delivered = some (sbd', sent)) :
    HostLink m h (sendFromSbd { link with toSbd := rest } sent) sbd' := by
  have plain : ∀ order ∈ rest, isRegisterAck order = false := by
    have behind := linked.registerFirst
    rw [orders] at behind
    exact behind
  have handled := linked.handled orders done
  have apart : link.side ≠ .fresh := fun isFresh => by
    rw [linked.fresh isFresh] at orders
    cases orders
  constructor
  · intro j
    refine (linked.job j).handle ?_ (fun r member => ?_) ?_ (handled.1 j) ?_
    · rw [toSbd_sendFromSbd]
      exact orders
    · exact (mem_reports_sendFromSbd member).imp id id
    · exact countP_reports_sendFromSbd (refuses j)
    · rw [toSbd_sendFromSbd]
      exact plain
  · exact handled.2
  · intro jobs member
    rw [toSbd_sendFromSbd] at member
    refine linked.listsOnce jobs ?_
    rw [orders]
    exact mem_cons_of_mem msg member
  · intro order member
    rw [toSbd_sendFromSbd] at member
    exact plain order (mem_of_mem_tail member)
  · intro isFresh
    rw [side_sendFromSbd] at isFresh
    exact absurd isFresh apart
  · intro j r member
    rcases mem_queued_sendFromSbd member with old | ⟨isFresh, _⟩
    · exact linked.queued j r old
    · exact absurd isFresh apart

theorem HostLink.shrink (linked : HostLink m h link sbd) (orders : link'.toSbd <+: link.toSbd)
    (reports : link'.reports.Sublist link.reports)
    (queued : ∀ r ∈ link'.queued, r ∈ link.queued) (fresh : link'.side = .fresh → link'.toSbd = [])
    (held : ∀ j, Held sbd' j ↔ Held sbd j)
    (ids : sbd'.jobs.map SbdJob.jobId = sbd.jobs.map SbdJob.jobId)
    (flags : ∀ job' ∈ sbd'.jobs, ∃ job ∈ sbd.jobs, job'.jobId = job.jobId ∧
      (job'.pidAcked = true ∨ job'.savedAcked = true →
        job.pidAcked = true ∨ job.savedAcked = true)) : HostLink m h link' sbd' where
  job := by
    intro j
    refine (linked.job j).shrink orders reports (held j) fun job' member id known => ?_
    obtain ⟨job, before, sameId, acked⟩ := flags job' member
    exact (linked.job j).acked job before (sameId.symm.trans id) (acked known)
  distinct := by
    rw [ids]
    exact linked.distinct
  listsOnce := fun jobs member => linked.listsOnce jobs (orders.subset member)
  registerFirst := fun order member => linked.registerFirst order (by
    rw [← drop_one] at member ⊢
    exact (List.IsPrefix.drop orders 1).subset member)
  fresh := fresh
  queued := fun j r member => linked.queued j r (queued r member)

theorem HostLink.lose (linked : HostLink m h link sbd) (orders : link'.toSbd <+: link.toSbd)
    (reports : link'.reports.Sublist link.reports) (queued : ∀ r ∈ link'.queued, r ∈ link.queued)
    (fresh : link'.side = .fresh → link'.toSbd = []) : HostLink m h link' sbd :=
  linked.shrink orders reports queued fresh (fun _ => Iff.rfl) rfl
    fun job member => ⟨job, member, rfl, id⟩

theorem HostLink.mapJobs (linked : HostLink m h link sbd) (ids : ∀ job, (g job).jobId = job.jobId)
    (flags : ∀ job, (g job).pidAcked = true ∨ (g job).savedAcked = true →
      job.pidAcked = true ∨ job.savedAcked = true) :
    HostLink m h link { sbd with jobs := sbd.jobs.map g } := by
  refine linked.shrink prefix_rfl (List.Sublist.refl _) (fun _ member => member) linked.fresh
    (fun j => held_map ids) (ids_map ids) fun job' member => ?_
  obtain ⟨job, before, rfl⟩ := List.mem_map.mp member
  exact ⟨job, before, ids job, flags job⟩

theorem HostLink.say (linked : HostLink m h link sbd)
    (answering : ∀ j, answers j r = true → Held sbd j)
    (finishing : ∀ j, finishes j r = true → Forked m j) (willing : ∀ j, refuses j r = false) :
    HostLink m h (sendFromSbd link [r]) sbd where
  job := by
    intro j
    refine (linked.job j).report [r] toSbd_sendFromSbd
      (fun _ member => mem_reports_sendFromSbd member) (countP_reports_sendFromSbd (refuses j))
      ?_ ?_ ?_
    · simpa using answering j
    · simpa using finishing j
    · simp [willing j]
  distinct := linked.distinct
  listsOnce := by
    rw [toSbd_sendFromSbd]
    exact linked.listsOnce
  registerFirst := by
    rw [toSbd_sendFromSbd]
    exact linked.registerFirst
  fresh := by
    rw [toSbd_sendFromSbd, side_sendFromSbd]
    exact linked.fresh
  queued := by
    intro j r' member
    rcases mem_queued_sendFromSbd member with old | ⟨_, new⟩
    · exact linked.queued j r' old
    · rw [mem_singleton.mp new]
      exact willing j

theorem HostLink.linkDown (linked : HostLink m h link sbd) :
    HostLink m h link (sbdMbdLinkDown sbd) := by
  refine linked.mapJobs (fun _ => rfl) fun job known => ?_
  rcases known with acked | saved
  · exact Or.inl acked
  · exact Or.inl saved

theorem HostLink.loadAll (linked : HostLink m h link sbd) :
    HostLink m h link (sbdJobStateLoadAll sbd) := by
  refine linked.mapJobs (fun _ => rfl) fun job known => ?_
  rcases known with acked | saved
  · exact Or.inr acked
  · exact Or.inr saved

theorem HostLink.exited {status : Int} (linked : HostLink m h link sbd) :
    HostLink m h link (jobExited sbd j status) := by
  refine linked.mapJobs (modify_ids fun _ => rfl) fun job known => ?_
  split at known <;> exact known

theorem HostLink.resend (linked : HostLink m h link sbd) (done : jobNewDrive sbd j = some sent) :
    HostLink m h (sendFromSbd link sent) sbd := by
  obtain ⟨job, found, done⟩ := bind_eq_some_iff.mp done
  split at done
  · cases done
  · cases done
    refine linked.say (fun i about => ?_) nofun fun _ => rfl
    rw [← of_decide_eq_true about]
    exact ⟨job, held_of_find found⟩

theorem HostLink.reportFinish (linked : HostLink m h link sbd)
    (done : jobFinishDrive sbd j = some sent) : HostLink m h (sendFromSbd link sent) sbd := by
  obtain ⟨job, found, done⟩ := bind_eq_some_iff.mp done
  obtain ⟨status, _, done⟩ := bind_eq_some_iff.mp done
  obtain ⟨member, id⟩ := held_of_find found
  split at done
  next acked =>
    cases done
    refine linked.say (fun i about => ?_) (fun i about => ?_) fun _ => rfl
    · rw [← of_decide_eq_true about]
      exact ⟨job, member, id⟩
    · rw [← of_decide_eq_true about]
      exact (linked.job j).acked job member id (Or.inl acked)
  next => cases done

theorem buildSbdRunList_sublist (m : MbdState) (h : HostName) :
    ((buildSbdRunList m h).map Prod.fst).Sublist m.run := by
  unfold buildSbdRunList
  induction m.run with
  | nil => exact List.Sublist.refl _
  | cons j rest ih =>
    rw [filterMap_cons]
    split
    · exact ih.cons j
    next entry entered =>
      have id : entry.1 = j := by
        split at entered
        · split at entered
          · cases entered
            rfl
          · cases entered
        · cases entered
      rw [map_cons, id]
      exact ih.cons_cons j

theorem HostLink.register (linked : HostLink m h link sbd) (joined : link.side = .joined)
    (idle : link.toSbd = []) (willing : ∀ j, ∀ r ∈ link.reports, refuses j r = false)
    (wf : Listed m) (saved : IdsSaved m) :
    HostLink m h (link.put (.registerAck (buildSbdRunList m h))) sbd := by
  have listed : ∀ {j}, lists j (.registerAck (buildSbdRunList m h)) = true →
      RunsAt m h j ∧ j ≤ m.seqFile := by
    intro j listing
    obtain ⟨entry, member, isJ⟩ := List.any_eq_true.mp listing
    obtain ⟨i, inRun, entered⟩ := mem_filterMap.mp member
    obtain ⟨job, found, running⟩ := (wf.listed .run i).mp inRun
    rw [found] at entered
    dsimp only at entered
    split at entered
    next first =>
      cases entered
      have same : i = j := of_decide_eq_true isJ
      subst same
      refine ⟨fun other at' => ?_, saved found⟩
      rw [found] at at'
      cases at'
      exact ⟨running, first⟩
    next => cases entered
  have asked : ∀ {j}, asks j (.registerAck (buildSbdRunList m h)) = true →
      lists j (.registerAck (buildSbdRunList m h)) = true := fun asking =>
    (Bool.or_eq_true_iff.mp asking).elim nofun id
  constructor
  · intro j
    refine (linked.job j).put ⟨?_, nofun, fun listing _ => (listed listing).1, nofun, nofun, ?_⟩
    · rintro (asking | releasing)
      · exact (listed (asked asking)).2
      · cases releasing
    · intro _
      unfold Link.claims
      rw [idle, countP_nil, Nat.zero_add]
      exact countP_eq_zero.mpr fun r member => by rw [willing j r member]; decide
  · exact linked.distinct
  · intro jobs member
    unfold Link.put at member
    rw [idle] at member
    have only := mem_singleton.mp member
    cases only
    exact (wf.distinct .run).sublist (buildSbdRunList_sublist m h)
  · intro order member
    unfold Link.put at member
    rw [idle] at member
    cases member
  · exact fun isFresh => absurd (joined.symm.trans isFresh) (by decide)
  · exact linked.queued

end LavaLite.Cluster
