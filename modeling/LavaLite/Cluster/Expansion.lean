import LavaLite.Cluster.Holds
import LavaLite.Cluster.Scheduling
import LavaLite.Cmd.Bsub
import LavaLite.Mbd.Expansion

/-
Array submissions: all elements or none, and one job for each index unless the one behind the
last is no `int`.  No submission looks at the length of the pending list, which the scheduler
sorts in a buffer of fixed size.
-/

namespace LavaLite.Cluster

open Base Batch Mbd Sbd Kernel

variable {conf : Conf} {s : System} {env : SubmitEnv} {uid gid : Nat} {request : WireJobSubmit}
  {first last stride : Int}

/--
All or nothing: whatever error is answered, and at whichever element it comes up, only the
id sequence has moved; an accepted request has committed every element.
-/
theorem array_all_or_nothing (reach : Reachable conf anyStep s) (array : request.flags.array = true)
    (range : (request.arrayStart, request.arrayEnd, request.arrayStride) = (first, last, stride))
    (isInt : last ≤ intMax) :
    (∀ {m' e}, jobRegister conf env s.mbd uid gid request = some (m', .error e) →
      s.mbd.jobIdSeq ≤ m'.jobIdSeq ∧ m' = { s.mbd with jobIdSeq := m'.jobIdSeq }) ∧
    (∀ {k : Nat} {e job}, 0 < stride → first + k * stride ≤ last →
      Prepares conf env s.mbd uid gid (normalizeSubmit conf request) job k →
      jobPrepare conf env s.mbd.jobs (s.mbd.jobIdSeq + 1 + k) uid gid
        (normalizeSubmit conf request) = .error e →
      jobRegister conf env s.mbd uid gid request =
        some ({ s.mbd with jobIdSeq := s.mbd.jobIdSeq + 1 + k }, .error e)) ∧
    (∀ {job}, 0 < stride → first ≤ last →
      Prepares conf env s.mbd uid gid (normalizeSubmit conf request) job
        (arrayLength first last stride) →
      first + arrayLength first last stride * stride ≤ intMax → env.replyOk = false →
      jobRegister conf env s.mbd uid gid request =
        some ({ s.mbd with jobIdSeq := s.mbd.jobIdSeq + arrayLength first last stride },
          .error .eio)) ∧
    (∀ {m' id}, jobRegister conf env s.mbd uid gid request = some (m', .ok id) →
      env.replyOk = true ∧ ∃ job m₂, CommitsAll conf (normalizeSubmit conf request)
          { s.mbd with jobIdSeq := s.mbd.jobIdSeq + arrayLength first last stride }
          (elementsOf s.mbd (normalizeSubmit conf request) first stride job
            (arrayLength first last stride)) m₂ ∧
        m' = { m₂ with seqFile := m₂.jobIdSeq }) := by
  have counted := reach.namesOnce.toIdsCounted
  have spans : 0 < stride → first ≤ last → Spans (normalizeSubmit conf request) first last stride :=
    fun forward ordered => ⟨(if_pos array).trans range, forward, ordered⟩
  refine ⟨jobRegister_error, ?_, ?_, ?_⟩
  · intro k e job forward within prepares fails
    have steps : 0 ≤ (k : Int) * stride :=
      Int.mul_nonneg (Int.natCast_nonneg k) (Int.le_of_lt forward)
    exact jobRegister_fails counted (spans forward (by omega)) isInt prepares within fails
  · intro job forward ordered prepares fits reply
    exact jobRegister_unanswered counted (spans forward ordered) prepares fits reply
  · intro m' id done
    obtain ⟨_, _, _, job, m₂, spans, _, _, reply, commits, same, _⟩ := jobRegister_ok counted done
    cases (spans.range.symm.trans (if_pos array)).trans range
    exact ⟨reply, job, m₂, commits, same⟩

def secondFails : SubmitEnv :=
  { now := 1, filesOk := fun j => j ≠ 2, replyOk := true, junk := fun _ => 0 }

def smoothly : SubmitEnv :=
  { now := 1, filesOk := fun _ => true, replyOk := true, junk := fun _ => 0 }

theorem array_all_or_nothing_second :
    (∃ m', jobRegister smallConf secondFails (initial smallConf).mbd 1 1 pairRequest =
        some (m', .error .eio) ∧
      m' = { (initial smallConf).mbd with jobIdSeq := m'.jobIdSeq } ∧ m'.jobIdSeq = 2) ∧
    jobRegister smallConf { smoothly with replyOk := false } (initial smallConf).mbd 1 1
      pairRequest = some ({ (initial smallConf).mbd with jobIdSeq := 2 }, .error .eio) ∧
    ∃ m' id job m₂, jobRegister smallConf smoothly (initial smallConf).mbd 1 1 pairRequest =
        some (m', .ok id) ∧
      CommitsAll smallConf (normalizeSubmit smallConf pairRequest)
        { (initial smallConf).mbd with jobIdSeq := 2 } (elementsOf (initial smallConf).mbd
          (normalizeSubmit smallConf pairRequest) 1 1 job 2) m₂ := by
  have settled := fun env => @array_all_or_nothing smallConf (initial smallConf) env 1 1
    pairRequest 1 2 1 .refl rfl rfl (by decide)
  obtain ⟨first, prepares⟩ := @exists_prepares smallConf secondFails (initial smallConf).mbd 1 1
    (normalizeSubmit smallConf pairRequest) 1 (by decide +kernel)
  obtain ⟨both, prepared⟩ := @exists_prepares smallConf { smoothly with replyOk := false }
    (initial smallConf).mbd 1 1 (normalizeSubmit smallConf pairRequest) 2 (by decide +kernel)
  obtain ⟨error, stops, -⟩ := settled secondFails
  have failed := stops (by decide) (by decide) prepares
    (show _ = Except.error Status.eio by decide +kernel)
  have unanswered := (settled { smoothly with replyOk := false }).2.2.1 (by decide) (by decide)
    prepared (by decide) rfl
  have replied : (jobRegister smallConf smoothly (initial smallConf).mbd 1 1 pairRequest).map
      Prod.snd = some (.ok 1) := by
    decide +kernel
  obtain ⟨⟨m', _⟩, accepted, rfl⟩ := Option.map_eq_some_iff.mp replied
  obtain ⟨_, job, m₂, commits, _⟩ := (settled smoothly).2.2.2 accepted
  exact ⟨⟨_, failed, (error failed).2, rfl⟩, unanswered, _, _, job, m₂, accepted, commits⟩

/--
A range `llb_parse_array` accepts, in a request whose elements can all be prepared: it is
expanded exactly when the index behind the last one is an `int`.
-/
theorem array_expands_iff (reach : Reachable conf anyStep s) {spec : String}
    (parsed : Cmd.llbParseArray spec = some (first, last, stride))
    (array : request.flags.array = true)
    (range : (request.arrayStart, request.arrayEnd, request.arrayStride) = (first, last, stride))
    (prepared : ∀ i : Nat, first + i * stride ≤ last →
      ∃ job, jobPrepare conf env s.mbd.jobs (s.mbd.jobIdSeq + 1 + i) uid gid
        (normalizeSubmit conf request) = .ok job)
    (reply : env.replyOk = true) :
    (∃ m' head, jobRegister conf env s.mbd uid gid request = some (m', .ok head) ∧
        Expanded first last stride head s.mbd m') ↔
      first + arrayLength first last stride * stride ≤ intMax := by
  have counted := reach.namesOnce.toIdsCounted
  obtain ⟨_, ordered, forward⟩ := Cmd.llbParseArray_range parsed
  have spans : Spans (normalizeSubmit conf request) first last stride :=
    ⟨(if_pos array).trans range, forward, ordered⟩
  obtain ⟨job, prepares⟩ : ∃ job, Prepares conf env s.mbd uid gid (normalizeSubmit conf request) job
      (arrayLength first last stride) := by
    rcases prepares_or_fails conf env s.mbd uid gid (normalizeSubmit conf request)
      (arrayLength first last stride) with all | ⟨_, e, k, lt, _, fails⟩
    · exact all
    · obtain ⟨job, ready⟩ := prepared k ((lt_arrayLength_iff forward ordered k).mp lt)
      rw [ready] at fails
      cases fails
  constructor
  · rintro ⟨m', head, done, _⟩
    apply Int.not_lt.mp
    intro above
    rw [jobRegister_overflows counted spans prepares above] at done
    cases done
  · intro fits
    obtain ⟨m₂, commits, done⟩ := jobRegister_accepts counted spans prepares fits reply
    have kind : (normalizeSubmit conf request).flags.array = true := array
    exact ⟨_, _, done, commits.expanded counted kind forward ordered prepares⟩

-- the range `1-9:4`
example : (jobRegister smallConf smoothly (initial smallConf).mbd 1 1
    { pairRequest with arrayEnd := 9, arrayStride := 4 }).map
      (fun r => r.1.pend.map fun j => (r.1.jobs j).map JobData.arrayIndex) =
    some [some 1, some 5, some 9] := by
  decide +kernel

theorem array_expands_iff_pair : ∃ m' head,
    jobRegister smallConf smoothly (initial smallConf).mbd 1 1 pairRequest = some (m', .ok head) ∧
      Expanded 1 2 1 head (initial smallConf).mbd m' := by
  have reach : Reachable smallConf anyStep (initial smallConf) := .refl
  obtain ⟨job, prepares⟩ := @exists_prepares smallConf smoothly (initial smallConf).mbd 1 1
    (normalizeSubmit smallConf pairRequest) 2 (by decide +kernel)
  exact (array_expands_iff reach (by decide +kernel : Cmd.llbParseArray "1-2" = some (1, 2, 1)) rfl
    rfl (fun i within => ⟨job i, prepares i (by omega)⟩) rfl).mpr (by decide)

/-- An array of one element, whose index is the largest `int`. -/
def topRequest : WireJobSubmit :=
  { pairRequest with
    arrayStart := 2147483647
    arrayEnd := 2147483647 }

/-- The array is accepted and its element prepared, and then the index overflows. -/
theorem topRequest_overflows :
    Cmd.llbParseArray "2147483647-2147483647" =
      some (topRequest.arrayStart, topRequest.arrayEnd, topRequest.arrayStride) ∧
    Reachable smallConf anyStep (initial smallConf) ∧
    (jobPrepare smallConf { secondFails with filesOk := fun _ => true } (initial smallConf).mbd.jobs
      1 1 1 (normalizeSubmit smallConf topRequest)).isOk = true ∧
    jobRegister smallConf { secondFails with filesOk := fun _ => true } (initial smallConf).mbd 1 1
      topRequest = none := by
  refine ⟨by decide +kernel, .refl, by decide +kernel, ?_⟩
  exact Option.isNone_iff_eq_none.mp (by decide +kernel)

/-! ### The sort buffer -/

open List

def openJobs (m : MbdState) : List JobId :=
  m.pend ++ m.run

def requestedJobs (request : WireJobSubmit) : Nat :=
  if request.flags.array then
    arrayLength request.arrayStart request.arrayEnd request.arrayStride
  else 1

/-- A submission finds room in the buffer for its jobs and for all that have not finished. -/
def leavesRoom (s : System) : Label → Prop
  | .submit _ _ _ request =>
    (openJobs s.mbd).length + requestedJobs request ≤ schedSortBufMax
  | _ => True

variable {permits : Permit} {s' : System} {m m' : MbdState} {label : Label}

theorem mem_openJobs (listed : Listed m) {j : JobId} :
    j ∈ openJobs m ↔ ∃ job, m.jobs j = some job ∧ job.listId ≠ .finish := by
  rw [openJobs, mem_append]
  change j ∈ m.list .pend ∨ j ∈ m.list .run ↔ _
  rw [listed.listed, listed.listed]
  constructor
  · rintro (⟨job, found, list⟩ | ⟨job, found, list⟩) <;>
      exact ⟨job, found, by rw [list]; decide⟩
  · rintro ⟨job, found, unfinished⟩
    cases list : job.listId with
    | pend => exact Or.inl ⟨job, found, list⟩
    | run => exact Or.inr ⟨job, found, list⟩
    | finish => exact absurd list unfinished

theorem nodup_openJobs (listed : Listed m) : (openJobs m).Nodup := by
  refine nodup_append.mpr ⟨listed.distinct .pend, listed.distinct .run, ?_⟩
  intro i pending j running same
  obtain ⟨job, found, list⟩ := (listed.listed .pend i).mp pending
  obtain ⟨job', found', list'⟩ := (listed.listed .run j).mp running
  subst same
  rw [found] at found'
  cases found'
  rw [list] at list'
  cases list'

theorem length_openJobs_le (listed : Listed m) (listed' : Listed m')
    (known : ∀ {j job'}, m'.jobs j = some job' → job'.listId ≠ .finish →
      ∃ job, m.jobs j = some job ∧ job.listId ≠ .finish) :
    (openJobs m').length ≤ (openJobs m).length := by
  apply (subperm_of_subset (nodup_openJobs listed') _).length_le
  intro j member
  obtain ⟨job', found, unfinished⟩ := (mem_openJobs listed').mp member
  exact (mem_openJobs listed).mpr (known found unfinished)

theorem length_openJobs_effect (wf : Wf conf m) (effect : Effect conf permits m m') :
    (openJobs m').length ≤ (openJobs m).length := by
  apply length_openJobs_le wf.toListed (effect.wf wf).toListed
  intro j job' found unfinished
  cases effect.relists with
  | none same => exact ⟨job', same.jobs ▸ found, unfinished⟩
  | compacts compacted => exact ⟨job', (compact_jobs compacted found).1, unfinished⟩
  | @one i job after _ _ _ _ _ change final _ =>
    rcases change.jobs_cases found with ⟨rfl, rfl⟩ | ⟨_, before⟩
    · exact ⟨job, change.found, fun ended => unfinished (final ended)⟩
    · exact ⟨job', before, unfinished⟩

theorem length_openJobs_restored (wf : Wf conf m) (restored : Restored conf m m') :
    (openJobs m').length ≤ (openJobs m).length := by
  apply length_openJobs_le wf.toListed restored.wf.toListed
  intro j replayed found unfinished
  obtain ⟨job, live, mirrored⟩ := restored.mirror found
  exact ⟨job, live, mirrored.listId ▸ unfinished⟩

theorem jobRegister_openJobs {env : SubmitEnv} {uid gid : Nat} {request : WireJobSubmit}
    {answer : Except Status JobId} (counted : IdsCounted m)
    (done : jobRegister conf env m uid gid request = some (m', answer)) :
    (openJobs m').length ≤ (openJobs m).length + requestedJobs request := by
  cases answer with
  | error e =>
    rw [(jobRegister_error done).2]
    exact Nat.le_add_right _ _
  | ok id =>
    obtain ⟨first, last, stride, job, m₂, spans, _, _, _, commits, rfl, _⟩ :=
      jobRegister_ok counted done
    have asked : arrayLength first last stride = requestedJobs request := by
      have range := spans.range
      unfold requestedJobs
      split
      next array =>
        cases (if_pos array).symm.trans range
        rfl
      next single =>
        cases (if_neg single).symm.trans range
        rfl
    have pend := commits.pend
    have run := commits.run
    dsimp only at pend run
    simp only [openJobs, pend, run, elementsOf, length_append, length_map, length_range]
    omega

theorem step_openJobs (sound : Sound conf s) (may : Legibly leavesRoom s label)
    (taken : step conf s label = some s') (room : (openJobs s.mbd).length ≤ schedSortBufMax) :
    (openJobs s'.mbd).length ≤ schedSortBufMax := by
  cases mbdMoves_of_step sound (allows_anyReport _ _) (fun _ _ => trivial) may.2 taken with
  | @acts _ m₁ effects result =>
    have kept : (openJobs m₁).length ≤ schedSortBufMax :=
      effects.keeps_of_wf (fun m => (openJobs m).length ≤ schedSortBufMax)
        (fun wf before effect => Nat.le_trans (length_openJobs_effect wf effect) before) sound.wf
        room
    rw [result]
    exact kept
  | @registers env uid gid request _ _ _ =>
    obtain ⟨_, taken⟩ := Option.ite_none_right_eq_some.mp taken
    obtain ⟨⟨m', answer⟩, done, rfl⟩ := Option.map_eq_some_iff.mp taken
    have added := jobRegister_openJobs sound.wf.idsCounted done
    exact Nat.le_trans added may.1
  | restarts replayed =>
    exact Nat.le_trans (length_openJobs_restored sound.wf (sound.restored replayed)) room

/--
In every run in which each submission finds room for its jobs, and restarts can read their
manifests, the pending list fits the buffer it is sorted in.
-/
theorem sort_buffer_suffices (reached : Reachable conf (Legibly leavesRoom) s) :
    s.mbd.pend.length ≤ schedSortBufMax := by
  have room : (openJobs s.mbd).length ≤ schedSortBufMax :=
    Steps.invariant_over (Sound conf) (fun s => (openJobs s.mbd).length ≤ schedSortBufMax)
      Reachable.sound (Nat.zero_le _)
      (fun sound before may taken => step_openJobs sound may taken before) reached
  rw [openJobs, length_append] at room
  omega

def findsRoom (s : System) : Label → Bool
  | .submit _ _ _ request =>
    decide ((openJobs s.mbd).length + requestedJobs request ≤ schedSortBufMax)
  | _ => true

theorem leavesRoom_of_findsRoom (finds : findsRoom s label = true) : leavesRoom s label := by
  cases label with
  | submit env uid gid request =>
    have fits : (openJobs s.mbd).length + requestedJobs request ≤ schedSortBufMax :=
      of_decide_eq_true finds
    exact fits
  | _ => trivial

theorem sort_buffer_suffices_pair : ∃ s, Reachable smallConf (Legibly leavesRoom) s ∧
    s.mbd.pend = [1, 2] ∧ s.mbd.pend.length ≤ schedSortBufMax := by
  obtain ⟨s, executed, waiting⟩ : ∃ s ∈ runOf smallConf (rereading findsRoom)
      [submitAt 1 pairRequest], s.mbd.pend = [1, 2] := by decide +kernel
  have reached : Reachable smallConf (Legibly leavesRoom) s :=
    steps_of_execute (fun _ _ _ => legibly_of_rereading leavesRoom_of_findsRoom) executed
  exact ⟨s, reached, waiting, sort_buffer_suffices reached⟩

theorem schedule_overruns (now : Time) (sendOk : JobId → Bool)
    (free : (markCandidates conf m).2 ≠ 0) (many : schedSortBufMax < m.pend.length) :
    schedule conf m now sendOk = none := by
  have nonempty : ¬m.pend.isEmpty = true := by
    intro empty
    rw [List.isEmpty_iff.mp empty] at many
    exact absurd many (Nat.not_lt_zero _)
  unfold schedule
  rw [if_neg nonempty]
  dsimp only
  rw [if_neg free]
  exact if_pos many

def wideRequest : WireJobSubmit :=
  { pairRequest with arrayEnd := 131073 }

/-- A host is free, the array is accepted, and the next cycle writes past the buffer. -/
theorem wideRequest_overruns : ∃ s, Reachable smallConf anyStep s ∧
    schedSortBufMax < s.mbd.pend.length ∧ schedule smallConf s.mbd 2 (fun _ => true) = none := by
  obtain ⟨s, executed, free, isOk⟩ : ∃ s ∈ runOf smallConf (fun _ _ => true) (join "h1" 5),
      (markCandidates smallConf s.mbd).2 ≠ 0 ∧
        (jobPrepare smallConf smoothly s.mbd.jobs (s.mbd.jobIdSeq + 1) 1 1
          (normalizeSubmit smallConf wideRequest)).isOk = true := by
    decide +kernel
  have reached := reachable_of_runOf executed
  have counted := reached.namesOnce.toIdsCounted
  have spans : Spans (normalizeSubmit smallConf wideRequest) 1 131073 1 := ⟨rfl, by decide, by decide⟩
  have length : arrayLength 1 131073 1 = 131073 := rfl
  obtain ⟨job, prepares⟩ : ∃ job, Prepares smallConf smoothly s.mbd 1 1
      (normalizeSubmit smallConf wideRequest) job (arrayLength 1 131073 1) := by
    rcases prepares_or_fails smallConf smoothly s.mbd 1 1 (normalizeSubmit smallConf wideRequest)
      (arrayLength 1 131073 1) with all | ⟨_, e, k, _, _, fails⟩
    · exact all
    · cases made : jobPrepare smallConf smoothly s.mbd.jobs (s.mbd.jobIdSeq + 1) 1 1
          (normalizeSubmit smallConf wideRequest) with
      | error e =>
        rw [made] at isOk
        cases isOk
      | ok first =>
        obtain ⟨other, ready⟩ := jobPrepare_other made rfl
        rw [ready] at fails
        cases fails
  obtain ⟨m₂, commits, done⟩ := jobRegister_accepts counted spans prepares (by decide) rfl
  have taken : step smallConf s (.submit smoothly 1 1 wideRequest) =
      some (afterMbd s { m₂ with seqFile := m₂.jobIdSeq }) := by
    rw [step, if_pos (by decide), done]
    rfl
  have many : schedSortBufMax < m₂.pend.length := by
    rw [commits.pend, length_append, length_map, elementsOf, length_map, length_range, length]
    exact Nat.lt_add_left _ (by decide)
  refine ⟨_, reached.tail ⟨_, trivial, taken⟩, many, schedule_overruns 2 _ ?_ many⟩
  have hosts : m₂.hosts = s.mbd.hosts := commits.hosts
  change ((smallConf.hostNames.filter fun h => isCandidate (m₂.hosts h)).map
    fun h => (m₂.hosts h).freeCpu).sum ≠ 0
  rw [hosts]
  exact free

end LavaLite.Cluster
