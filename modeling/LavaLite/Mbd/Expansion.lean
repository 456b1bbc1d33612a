import Mathlib.Data.Nat.Find
import LavaLite.Mbd.Placement

/-
The loop of `job_register` over the elements of a request.  It prepares one job for each
index, with consecutive ids; the first preparation that fails ends it, and so does an
index that passes the largest `int`.
-/

namespace LavaLite.Mbd

open Base Batch Kernel List

theorem nextJobId_eq {jobs : JobId → Option JobData} {seq : JobId} (free : jobs (seq + 1) = none)
    (fuel : Nat) : nextJobId jobs fuel seq = seq + 1 := by
  cases fuel with
  | zero => rfl
  | succ fuel =>
    rw [nextJobId, free]
    rfl

theorem arrayLength_pos {first last stride : Int} (forward : 0 < stride) (ordered : first ≤ last) :
    0 < arrayLength first last stride := by
  unfold arrayLength
  rw [if_neg (by omega)]
  exact Nat.succ_pos _

theorem lt_arrayLength_iff {first last stride : Int} (forward : 0 < stride) (ordered : first ≤ last)
    (i : Nat) : i < arrayLength first last stride ↔ first + i * stride ≤ last := by
  have nonneg : 0 ≤ (last - first) / stride := Int.ediv_nonneg (by omega) (by omega)
  unfold arrayLength
  rw [if_neg (by omega), Nat.lt_succ_iff, ← Int.ofNat_le, Int.toNat_of_nonneg nonneg,
    Int.le_ediv_iff_mul_le forward]
  omega

variable {conf : Conf} {env : SubmitEnv} {m : MbdState} {uid gid n i k fuel : Nat}
  {ws : WireJobSubmit} {first last stride : Int} {job : Nat → JobData}

def elementOf (m : MbdState) (ws : WireJobSubmit) (first stride : Int) (job : Nat → JobData)
    (i : Nat) : JobData :=
  setArrayFields ws (m.jobIdSeq + 1) (first + i * stride) (job i)

def elementsOf (m : MbdState) (ws : WireJobSubmit) (first stride : Int) (job : Nat → JobData)
    (n : Nat) : List JobData :=
  (List.range n).map (elementOf m ws first stride job)

/-- The job of each of the elements below `n` can be prepared. -/
def Prepares (conf : Conf) (env : SubmitEnv) (m : MbdState) (uid gid : Nat) (ws : WireJobSubmit)
    (job : Nat → JobData) (n : Nat) : Prop :=
  ∀ i < n, jobPrepare conf env m.jobs (m.jobIdSeq + 1 + i) uid gid ws = .ok (job i)

theorem Prepares.jobId (prepares : Prepares conf env m uid gid ws job n) (lt : i < n) :
    (elementOf m ws first stride job i).jobId = m.jobIdSeq + 1 + i := by
  rw [elementOf, jobId_setArrayFields]
  exact (jobPrepare_spec (prepares i lt)).1

theorem elementsOf_succ (n : Nat) : (elementsOf m ws first stride job (n + 1)).reverse =
      elementOf m ws first stride job n :: (elementsOf m ws first stride job n).reverse := by
  rw [elementsOf, range_succ, map_append, reverse_append]
  rfl

theorem IdsCounted.fresh (counted : IdsCounted m) (i : Nat) :
    m.jobs (m.jobIdSeq + 1 + i) = none := by
  have above : ∀ seq : Int, ¬seq + 1 + (i : Int) ≤ seq := by
    intro seq
    omega
  cases found : m.jobs (m.jobIdSeq + 1 + i) with
  | none => rfl
  | some job => exact absurd (counted.ids found) (above _)

theorem IdsCounted.nextId (counted : IdsCounted m) (i fuel : Nat) :
    nextJobId m.jobs fuel (m.jobIdSeq + i) = m.jobIdSeq + 1 + i := by
  have order : m.jobIdSeq + i + 1 = m.jobIdSeq + 1 + i := Int.add_right_comm _ _ _
  rw [nextJobId_eq (order ▸ counted.fresh i), order]

theorem Prepares.follows (prepares : Prepares conf env m uid gid ws job i) :
    followsOn (elementsOf m ws first stride job i).reverse (m.jobIdSeq + 1 + i) = true := by
  cases i with
  | zero => rfl
  | succ i =>
    have order : ∀ seq : Int, seq + 1 + ((i + 1 : Nat) : Int) = seq + 1 + i + 1 := by
      intro seq
      omega
    rw [elementsOf_succ, followsOn, prepares.jobId (Nat.lt_succ_self i)]
    exact decide_eq_true (order _)

theorem Prepares.firstId (prepares : Prepares conf env m uid gid ws job n) (nonempty : 0 < n) :
    (elementsOf m ws first stride job n).head?.map JobData.jobId = some (m.jobIdSeq + 1) := by
  obtain ⟨k, rfl⟩ := Nat.exists_eq_succ_of_ne_zero nonempty.ne'
  have head : (elementsOf m ws first stride job (k + 1)).head? =
      some (elementOf m ws first stride job 0) := by
    rw [elementsOf, range_succ_eq_map]
    rfl
  rw [head, Option.map_some, prepares.jobId nonempty]
  exact congrArg some (Int.add_zero _)

theorem Prepares.headId (prepares : Prepares conf env m uid gid ws job i) :
    ((elementsOf m ws first stride job i).reverse.getLast?.map JobData.jobId).getD
      (m.jobIdSeq + 1 + i) = m.jobIdSeq + 1 := by
  cases i with
  | zero => exact Int.add_zero _
  | succ i =>
    rw [getLast?_reverse, prepares.firstId (Nat.succ_pos i)]
    rfl

theorem prepareLoop_turn (counted : IdsCounted m) (prepares : Prepares conf env m uid gid ws job i)
    (within : first + i * stride ≤ last) (fuel : Nat) :
    prepareLoop conf env m uid gid ws last stride (fuel + 1) (first + i * stride)
        (m.jobIdSeq + i) (elementsOf m ws first stride job i).reverse =
      match jobPrepare conf env m.jobs (m.jobIdSeq + 1 + i) uid gid ws with
      | .error e => some (m.jobIdSeq + 1 + i, .error e)
      | .ok next =>
        if first + i * stride + stride ≤ intMax then
          prepareLoop conf env m uid gid ws last stride fuel (first + i * stride + stride)
            (m.jobIdSeq + 1 + i) (setArrayFields ws (m.jobIdSeq + 1) (first + i * stride) next ::
              (elementsOf m ws first stride job i).reverse)
        else none := by
  have notOver : ¬last < first + i * stride := by omega
  rw [prepareLoop, if_neg notOver]
  cases prepared : jobPrepare conf env m.jobs (m.jobIdSeq + 1 + i) uid gid ws with
  | error e => simp only [counted.nextId i, prepared]
  | ok next => simp only [counted.nextId i, prepared, prepares.follows, prepares.headId, true_and]

theorem index_succ (first stride : Int) (i : Nat) :
    first + ((i + 1 : Nat) : Int) * stride = first + i * stride + stride := by
  rw [Nat.cast_add_one, Int.add_mul, Int.one_mul, Int.add_assoc]

theorem prepareLoop_reaches (counted : IdsCounted m)
    (prepares : Prepares conf env m uid gid ws job k)
    (within : ∀ i < k, first + i * stride ≤ last ∧ first + i * stride + stride ≤ intMax)
    (fuel : Nat) : prepareLoop conf env m uid gid ws last stride (fuel + k) first m.jobIdSeq [] =
      prepareLoop conf env m uid gid ws last stride fuel (first + k * stride) (m.jobIdSeq + k)
        (elementsOf m ws first stride job k).reverse := by
  induction k generalizing fuel with
  | zero =>
    have start : first + ((0 : Nat) : Int) * stride = first := by simp
    have seq : m.jobIdSeq + ((0 : Nat) : Int) = m.jobIdSeq := Int.add_zero _
    rw [start, seq]
    rfl
  | succ k ih =>
    have before : Prepares conf env m uid gid ws job k :=
      fun i lt => prepares i (Nat.lt_succ_of_lt lt)
    have seq : m.jobIdSeq + ((k + 1 : Nat) : Int) = m.jobIdSeq + 1 + k := by
      rw [Nat.cast_add_one, Int.add_comm (k : Int) 1]
      exact (Int.add_assoc _ _ _).symm
    obtain ⟨inRange, fits⟩ := within k (Nat.lt_succ_self k)
    have reached := ih before (fun i lt => within i (Nat.lt_succ_of_lt lt)) (fuel + 1)
    rw [Nat.add_right_comm fuel 1 k] at reached
    rw [← Nat.add_assoc, reached, prepareLoop_turn counted before inRange,
      prepares k (Nat.lt_succ_self k), elementsOf_succ, index_succ, seq]
    dsimp only
    rw [if_pos fits]
    rfl

theorem prepareLoop_fails (counted : IdsCounted m) {e : Status}
    (prepares : Prepares conf env m uid gid ws job k)
    (within : ∀ i < k, first + i * stride ≤ last ∧ first + i * stride + stride ≤ intMax)
    (reached : first + k * stride ≤ last)
    (fails : jobPrepare conf env m.jobs (m.jobIdSeq + 1 + k) uid gid ws = .error e)
    (enough : k < fuel) : prepareLoop conf env m uid gid ws last stride fuel first m.jobIdSeq [] =
      some (m.jobIdSeq + 1 + k, .error e) := by
  obtain ⟨rest, split⟩ : ∃ rest, fuel = rest + 1 + k := ⟨fuel - k - 1, by omega⟩
  rw [split, prepareLoop_reaches counted prepares within, prepareLoop_turn counted prepares reached,
    fails]

theorem prepareLoop_overflows (counted : IdsCounted m)
    (prepares : Prepares conf env m uid gid ws job n) (within : ∀ i < n, first + i * stride ≤ last)
    (beyond : ∃ i < n, intMax < first + i * stride + stride) (enough : n ≤ fuel) :
    prepareLoop conf env m uid gid ws last stride fuel first m.jobIdSeq [] = none := by
  classical
  obtain ⟨lt, passes⟩ := Nat.find_spec beyond
  have least := fun i (below : i < Nat.find beyond) => Nat.find_min beyond below
  generalize Nat.find beyond = k at lt passes least
  have before : Prepares conf env m uid gid ws job k :=
    fun i below => prepares i (Nat.lt_trans below lt)
  have fits : ∀ i < k, first + i * stride ≤ last ∧ first + i * stride + stride ≤ intMax := by
    intro i below
    have inRange := Nat.lt_trans below lt
    exact ⟨within i inRange, Int.not_lt.mp fun above => least i below ⟨inRange, above⟩⟩
  obtain ⟨rest, split⟩ : ∃ rest, fuel = rest + 1 + k := ⟨fuel - k - 1, by omega⟩
  rw [split, prepareLoop_reaches counted before fits, prepareLoop_turn counted before (within k lt),
    prepares k lt]
  exact if_neg (Int.not_le.mpr passes)

section Length

variable (forward : 0 < stride) (ordered : first ≤ last)

include forward ordered

theorem arrayLength_le : arrayLength first last stride ≤ (last - first).toNat + 1 := by
  have quotient : (last - first) / stride ≤ last - first :=
    Int.ediv_le_self _ (by omega)
  unfold arrayLength
  rw [if_neg (by omega)]
  omega

theorem prepareLoop_all (counted : IdsCounted m)
    (prepares : Prepares conf env m uid gid ws job (arrayLength first last stride))
    (fits : first + arrayLength first last stride * stride ≤ intMax) :
    prepareLoop conf env m uid gid ws last stride ((last - first).toNat + 2) first m.jobIdSeq [] =
      some (m.jobIdSeq + arrayLength first last stride,
        .ok (elementsOf m ws first stride job (arrayLength first last stride))) := by
  have above : ¬first + arrayLength first last stride * stride ≤ last :=
    fun le => absurd ((lt_arrayLength_iff forward ordered _).mpr le) (lt_irrefl _)
  have enough := arrayLength_le forward ordered
  obtain ⟨fuel, split⟩ : ∃ fuel, (last - first).toNat + 2 =
      fuel + 1 + arrayLength first last stride :=
    ⟨(last - first).toNat + 1 - arrayLength first last stride, by omega⟩
  have within : ∀ i < arrayLength first last stride,
      first + i * stride ≤ last ∧ first + i * stride + stride ≤ intMax := by
    intro i lt
    have upTo : ((i + 1 : Nat) : Int) * stride ≤ arrayLength first last stride * stride :=
      Int.mul_le_mul_of_nonneg_right (Int.ofNat_le.mpr lt) (Int.le_of_lt forward)
    have next := index_succ first stride i
    exact ⟨(lt_arrayLength_iff forward ordered i).mp lt, by omega⟩
  rw [split, prepareLoop_reaches counted prepares within, prepareLoop, if_pos (by omega),
    reverse_reverse]

end Length

theorem jobPrepare_other {jobs : JobId → Option JobData} {id : JobId} {made : JobData}
    (done : jobPrepare conf env jobs id uid gid ws = .ok made) {id' : JobId}
    (files : env.filesOk id' = true) :
    ∃ made', jobPrepare conf env jobs id' uid gid ws = .ok made' := by
  unfold jobPrepare jobAlloc at done ⊢
  cases known : conf.findQueue ws.queue with
  | none => simp [known] at done
  | some q =>
    by_cases permitted : queueUserAllowed q (strlcpy 64 ws.username) = true
    · cases parsed : jobParseTokens conf env.junk ws.tokenpool with
      | error e =>
        by_cases written : env.filesOk id = true <;>
          simp [known, permitted, written, parsed] at done
      | ok tokens =>
        cases set : jobDepsSet (some fun d => (jobs d).isSome) ws.dependCond with
        | error e =>
          by_cases written : env.filesOk id = true <;>
            simp [known, permitted, written, parsed, set] at done
        | ok deps => simp [permitted, files]
    · simp [known, permitted] at done

theorem prepares_or_fails (conf : Conf) (env : SubmitEnv) (m : MbdState) (uid gid : Nat)
    (ws : WireJobSubmit) (n : Nat) : (∃ job, Prepares conf env m uid gid ws job n) ∨
      ∃ job e, ∃ k < n, Prepares conf env m uid gid ws job k ∧
        jobPrepare conf env m.jobs (m.jobIdSeq + 1 + k) uid gid ws = .error e := by
  induction n with
  | zero => exact Or.inl ⟨fun _ => default, fun _ lt => absurd lt (Nat.not_lt_zero _)⟩
  | succ n ih =>
    rcases ih with ⟨job, prepares⟩ | ⟨job, e, k, lt, prepares, fails⟩
    · cases last : jobPrepare conf env m.jobs (m.jobIdSeq + 1 + n) uid gid ws with
      | error e => exact Or.inr ⟨job, e, n, Nat.lt_succ_self n, prepares, last⟩
      | ok next =>
        refine Or.inl ⟨Function.update job n next, fun i lt => ?_⟩
        rcases Nat.lt_succ_iff_lt_or_eq.mp lt with before | same
        · rw [Function.update_of_ne (Nat.ne_of_lt before)]
          exact prepares i before
        · rw [same, Function.update_self]
          exact last
    · exact Or.inr ⟨job, e, k, Nat.lt_succ_of_lt lt, prepares, fails⟩

theorem exists_prepares {n : Nat} (ready : ∀ i < n,
    (jobPrepare conf env m.jobs (m.jobIdSeq + 1 + (i : Nat)) uid gid ws).isOk = true) :
    ∃ job, Prepares conf env m uid gid ws job n := by
  rcases prepares_or_fails conf env m uid gid ws n with all | ⟨_, e, k, lt, _, fails⟩
  · exact all
  · have isOk := ready k lt
    rw [fails] at isOk
    cases isOk

theorem prepareLoop_ok (counted : IdsCounted m) (forward : 0 < stride) (ordered : first ≤ last)
    {seq : JobId} {jobs : List JobData}
    (done : prepareLoop conf env m uid gid ws last stride ((last - first).toNat + 2) first
      m.jobIdSeq [] = some (seq, .ok jobs)) :
    ∃ job, Prepares conf env m uid gid ws job (arrayLength first last stride) ∧
      first + arrayLength first last stride * stride ≤ intMax ∧
      seq = m.jobIdSeq + arrayLength first last stride ∧
      jobs = elementsOf m ws first stride job (arrayLength first last stride) := by
  have enough := arrayLength_le forward ordered
  have inRange : ∀ i < arrayLength first last stride, first + i * stride ≤ last :=
    fun i => (lt_arrayLength_iff forward ordered i).mp
  have stops : ∀ {n job}, n ≤ arrayLength first last stride → Prepares conf env m uid gid ws job n →
      ∀ i < n, first + i * stride + stride ≤ intMax := by
    intro n job le prepares i lt
    apply Int.not_lt.mp
    intro above
    rw [prepareLoop_overflows counted prepares (fun i lt => inRange i (Nat.lt_of_lt_of_le lt le))
      ⟨i, lt, above⟩ (by omega)] at done
    cases done
  rcases prepares_or_fails conf env m uid gid ws (arrayLength first last stride) with
    ⟨job, prepares⟩ | ⟨job, e, k, lt, prepares, fails⟩
  · obtain ⟨k, count⟩ := Nat.exists_eq_succ_of_ne_zero (arrayLength_pos forward ordered).ne'
    have fits : first + arrayLength first last stride * stride ≤ intMax := by
      rw [count, index_succ]
      exact stops (Nat.le_refl _) prepares k (count ▸ Nat.lt_succ_self k)
    rw [prepareLoop_all forward ordered counted prepares fits] at done
    cases done
    exact ⟨job, prepares, fits, rfl, rfl⟩
  · have fits := stops (Nat.le_of_lt lt) prepares
    rw [prepareLoop_fails counted prepares
      (fun i below => ⟨inRange i (Nat.lt_trans below lt), fits i below⟩) (inRange k lt) fails
      (by omega)] at done
    cases done

/-! ### The commits, in order -/

inductive CommitsAll (conf : Conf) (ws : WireJobSubmit) :
    MbdState → List JobData → MbdState → Prop where
  | nil {m : MbdState} : CommitsAll conf ws m [] m
  | cons {m m₁ m' : MbdState} {q : QueueName} {job : JobData} {rest : List JobData}
      (commit : Commit conf ws m m₁ q job) (later : CommitsAll conf ws m₁ rest m') :
      CommitsAll conf ws m (job :: rest) m'

variable {m' : MbdState} {jobs : List JobData}

theorem CommitsAll.pend (commits : CommitsAll conf ws m jobs m') :
    m'.pend = m.pend ++ jobs.map JobData.jobId := by
  induction commits with
  | nil => exact (append_nil _).symm
  | cons commit _ ih => rw [ih, commit.pend, append_assoc, map_cons, singleton_append]

theorem CommitsAll.jobs_iff (commits : CommitsAll conf ws m jobs m') (j : JobId) (found : JobData) :
    m'.jobs j = some found ↔ m.jobs j = some found ∨ (found ∈ jobs ∧ found.jobId = j) := by
  induction commits with
  | nil => simp
  | @cons m m₁ m' q job rest commit _ ih =>
    rw [ih, commit.jobs, Function.update_apply, mem_cons, or_and_right, ← or_assoc]
    apply or_congr_left
    by_cases same : j = job.jobId
    · rw [if_pos same, same, commit.fresh]
      constructor
      · rintro ⟨⟩
        exact Or.inr ⟨rfl, rfl⟩
      · rintro (impossible | ⟨rfl, _⟩)
        · cases impossible
        · rfl
    · rw [if_neg same]
      constructor
      · exact Or.inl
      · rintro (before | ⟨rfl, id⟩)
        · exact before
        · exact absurd id.symm same

theorem CommitsAll.run (commits : CommitsAll conf ws m jobs m') : m'.run = m.run := by
  induction commits with
  | nil => rfl
  | cons commit _ ih => rw [ih, commit.run]

theorem CommitsAll.hosts (commits : CommitsAll conf ws m jobs m') : m'.hosts = m.hosts := by
  induction commits with
  | nil => rfl
  | cons commit _ ih => rw [ih, commit.hosts]

theorem Halfway.commitsAll {table : JobId → Option JobData} {head base seq : JobId} (total : Nat)
    {rest front : List JobData} (half : Halfway conf ws table uid gid head base seq front rest m) :
    ∃ m', jobCommitPrepared ws total rest m = some m' ∧ CommitsAll conf ws m rest m' := by
  induction rest generalizing front m with
  | nil => exact ⟨_, rfl, .nil⟩
  | cons job rest ih =>
    have ready := half.committable
    have fresh : m.jobs job.jobId = none := by
      cases found : m.jobs job.jobId with
      | none => rfl
      | some other => exact absurd (ready.newest found) (Int.lt_irrefl _)
    obtain ⟨q, _, ofQueue⟩ := ready.prepared.queue
    obtain ⟨m₁, first⟩ : ∃ m₁, jobCommit m ws (elementCount ws total job) job = some m₁ := by
      rw [jobCommit, fresh, ofQueue]
      exact ⟨_, rfl⟩
    obtain ⟨⟨q, commit⟩, _⟩ := jobCommit_spec ready first
    obtain ⟨m', done, later⟩ := ih (half.turn commit)
    refine ⟨m', ?_, .cons commit later⟩
    rw [jobCommitPrepared, first]
    exact done

/-! ### Requests -/

variable {request : WireJobSubmit} {e : Status}

theorem jobRegister_fails (counted : IdsCounted m)
    (spans : Spans (normalizeSubmit conf request) first last stride) (small : last ≤ intMax)
    (prepares : Prepares conf env m uid gid (normalizeSubmit conf request) job k)
    (within : first + k * stride ≤ last)
    (fails : jobPrepare conf env m.jobs (m.jobIdSeq + 1 + k) uid gid
      (normalizeSubmit conf request) = .error e) :
    jobRegister conf env m uid gid request =
      some ({ m with jobIdSeq := m.jobIdSeq + 1 + k }, .error e) := by
  have earlier : ∀ i < k, first + i * stride ≤ last ∧ first + i * stride + stride ≤ intMax := by
    intro i lt
    have upTo : ((i + 1 : Nat) : Int) * stride ≤ k * stride :=
      Int.mul_le_mul_of_nonneg_right (Int.ofNat_le.mpr lt) (Int.le_of_lt spans.forward)
    have next := index_succ first stride i
    have forward := spans.forward
    omega
  have below := (lt_arrayLength_iff spans.forward spans.ordered k).mpr within
  have enough := arrayLength_le spans.forward spans.ordered
  rw [jobRegister_loop spans, prepareLoop_fails counted prepares earlier within fails (by omega)]

section Prepared

variable (counted : IdsCounted m) (spans : Spans (normalizeSubmit conf request) first last stride)
  (prepares : Prepares conf env m uid gid (normalizeSubmit conf request) job (arrayLength first last stride))

include counted spans prepares

theorem jobRegister_overflows (above : intMax < first + arrayLength first last stride * stride) :
    jobRegister conf env m uid gid request = none := by
  obtain ⟨k, count⟩ := Nat.exists_eq_succ_of_ne_zero
    (arrayLength_pos spans.forward spans.ordered).ne'
  have enough := arrayLength_le spans.forward spans.ordered
  have beyond : ∃ i < arrayLength first last stride, intMax < first + i * stride + stride := by
    refine ⟨k, count ▸ Nat.lt_succ_self k, ?_⟩
    rw [count, index_succ] at above
    exact above
  rw [jobRegister_loop spans, prepareLoop_overflows counted prepares
    (fun i => (lt_arrayLength_iff spans.forward spans.ordered i).mp) beyond (by omega)]

variable (fits : first + arrayLength first last stride * stride ≤ intMax)

include fits

theorem jobRegister_unanswered (reply : env.replyOk = false) :
    jobRegister conf env m uid gid request =
      some ({ m with jobIdSeq := m.jobIdSeq + arrayLength first last stride }, .error .eio) := by
  rw [jobRegister_loop spans, prepareLoop_all spans.forward spans.ordered counted prepares fits]
  simp only [reply]
  rfl

theorem jobRegister_accepts (reply : env.replyOk = true) :
    ∃ m₂, CommitsAll conf (normalizeSubmit conf request)
        { m with jobIdSeq := m.jobIdSeq + arrayLength first last stride }
        (elementsOf m (normalizeSubmit conf request) first stride job
          (arrayLength first last stride)) m₂ ∧
      jobRegister conf env m uid gid request =
        some ({ m₂ with seqFile := m₂.jobIdSeq }, .ok (m.jobIdSeq + 1)) := by
  have loop := prepareLoop_all spans.forward spans.ordered counted prepares fits
  obtain ⟨_, half⟩ := prepareLoop_halfway counted loop
  obtain ⟨m₂, committed, commits⟩ := half.commitsAll _
  refine ⟨m₂, commits, ?_⟩
  rw [jobRegister_loop spans, loop]
  simp only [reply, if_true]
  rw [committed, prepares.firstId (arrayLength_pos spans.forward spans.ordered)]
  rfl

end Prepared

theorem jobRegister_error (done : jobRegister conf env m uid gid request = some (m', .error e)) :
    m.jobIdSeq ≤ m'.jobIdSeq ∧ m' = { m with jobIdSeq := m'.jobIdSeq } := by
  rcases jobRegister_inversion done with ⟨seq, _, grown, rfl, _⟩ |
    ⟨_, _, _, _, _, _, _, _, _, _, _, refused⟩
  · exact ⟨grown, rfl⟩
  · cases refused

theorem jobRegister_ok (counted : IdsCounted m) {id : JobId}
    (done : jobRegister conf env m uid gid request = some (m', .ok id)) :
    ∃ first last stride job m₂, Spans (normalizeSubmit conf request) first last stride ∧
      Prepares conf env m uid gid (normalizeSubmit conf request) job
        (arrayLength first last stride) ∧
      first + arrayLength first last stride * stride ≤ intMax ∧ env.replyOk = true ∧
      CommitsAll conf (normalizeSubmit conf request)
        { m with jobIdSeq := m.jobIdSeq + arrayLength first last stride }
        (elementsOf m (normalizeSubmit conf request) first stride job
          (arrayLength first last stride)) m₂ ∧
      m' = { m₂ with seqFile := m₂.jobIdSeq } ∧ id = m.jobIdSeq + 1 := by
  rcases jobRegister_inversion done with ⟨_, _, _, _, failed⟩ |
    ⟨first, last, stride, seq, jobs, m₂, spans, loop, reply, committed, rfl, answer⟩
  · cases failed
  · obtain ⟨_, half⟩ := prepareLoop_halfway counted loop
    obtain ⟨job, prepares, fits, rfl, rfl⟩ :=
      prepareLoop_ok counted spans.forward spans.ordered loop
    obtain ⟨_, again, commits⟩ := half.commitsAll _
    cases committed.symm.trans again
    refine ⟨first, last, stride, job, m₂, spans, prepares, fits, reply, commits, rfl, ?_⟩
    rw [Except.ok.inj answer, prepares.firstId (arrayLength_pos spans.forward spans.ordered)]
    rfl

/-- One job for each index of the range, with consecutive ids from `head` on, in index order. -/
structure Expanded (first last stride : Int) (head : JobId) (m m' : MbdState) : Prop where
  created : ∀ i : Nat, first + i * stride ≤ last → m.jobs (head + i) = none ∧
    ∃ job, m'.jobs (head + i) = some job ∧ job.jobId = head + i ∧ job.arrayId = head ∧
      job.arrayIndex = first + i * stride
  nothingElse : ∀ j job, m'.jobs j = some job → m.jobs j = some job ∨
    ∃ i : Nat, first + i * stride ≤ last ∧ j = head + i
  kept : ∀ j job, m.jobs j = some job → m'.jobs j = some job
  inOrder : m'.pend = m.pend ++ (List.range (arrayLength first last stride)).map fun (i : Nat) =>
    head + (i : Int)

theorem CommitsAll.expanded (counted : IdsCounted m) (array : ws.flags.array = true)
    (forward : 0 < stride) (ordered : first ≤ last)
    (prepares : Prepares conf env m uid gid ws job (arrayLength first last stride))
    (commits : CommitsAll conf ws { m with jobIdSeq := m.jobIdSeq + arrayLength first last stride }
      (elementsOf m ws first stride job (arrayLength first last stride)) m') :
    Expanded first last stride (m.jobIdSeq + 1) m { m' with seqFile := m'.jobIdSeq } where
  created := by
    intro i within
    have lt := (lt_arrayLength_iff forward ordered i).mpr within
    have id : (elementOf m ws first stride job i).jobId = m.jobIdSeq + 1 + i := prepares.jobId lt
    refine ⟨counted.fresh i, elementOf m ws first stride job i, ?_, id, ?_, ?_⟩
    · exact (commits.jobs_iff _ _).mpr (Or.inr ⟨List.mem_map_of_mem (mem_range.mpr lt), id⟩)
    · rw [elementOf, setArrayFields, if_pos array]
    · rw [elementOf, setArrayFields, if_pos array]
  nothingElse := by
    intro j found present
    rcases (commits.jobs_iff j found).mp present with before | ⟨member, rfl⟩
    · exact Or.inl before
    · obtain ⟨i, inRange, rfl⟩ := List.mem_map.mp member
      have lt := mem_range.mp inRange
      exact Or.inr ⟨i, (lt_arrayLength_iff forward ordered i).mp lt, prepares.jobId lt⟩
  kept := fun j found before => (commits.jobs_iff j found).mpr (Or.inl before)
  inOrder := by
    refine commits.pend.trans (congrArg (m.pend ++ ·) ?_)
    rw [elementsOf, List.map_map]
    exact map_congr_left fun i inRange => prepares.jobId (mem_range.mp inRange)

end LavaLite.Mbd
