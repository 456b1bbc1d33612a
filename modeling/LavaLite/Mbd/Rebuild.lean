import LavaLite.Mbd.Remembered
import LavaLite.Mbd.Devices
import LavaLite.Mbd.Tokens
import Mathlib.Data.Fintype.Defs
import Mathlib.Data.List.Pairwise

/-
The rebuild of the counters after a replay, which can only fail at the devices, and
mbd killed inside `manifest_rebuild`: for a while the file that the next start reads
does not exist, and after that it tells of some of the jobs only.
-/

namespace LavaLite.Mbd

open Base Batch Kernel List Option

def freshGpus (conf : Conf) (h : HostName) : List GpuId :=
  (conf.hostConf h).gpuIds.map fun id => { id := id, inUse := false }

/-- The running job `j` uses the host `h` and asked for devices. -/
def GpuJobOn (m : MbdState) (h : HostName) (j : JobId) (job : JobData) : Prop :=
  m.jobs j = some job ∧ job.listId = .run ∧ h ∈ job.hosts ∧ 0 < job.res.numGpus

/-- No host is used by two running GPU jobs, and each has the devices its job asked for. -/
structure OneGpuJob (conf : Conf) (m : MbdState) : Prop where
  enough : ∀ j ∈ m.run, ∀ job ∈ m.jobs j, 0 < job.res.numGpus → ∀ h ∈ job.hosts,
    job.res.numGpus.toNat ≤ (conf.hostConf h).gpuIds.length
  alone : ∀ i ∈ m.run, ∀ j ∈ m.run, ∀ job ∈ m.jobs i, ∀ other ∈ m.jobs j, 0 < job.res.numGpus →
    0 < other.res.numGpus → ∀ h ∈ job.hosts, h ∈ other.hosts → i = j

instance decidableOneGpuJob (conf : Conf) (m : MbdState) : Decidable (OneGpuJob conf m) :=
  decidable_of_iff
    ((∀ j ∈ m.run, ∀ job ∈ m.jobs j, 0 < job.res.numGpus → ∀ h ∈ job.hosts,
      job.res.numGpus.toNat ≤ (conf.hostConf h).gpuIds.length) ∧
    ∀ i ∈ m.run, ∀ j ∈ m.run, ∀ job ∈ m.jobs i, ∀ other ∈ m.jobs j, 0 < job.res.numGpus →
      0 < other.res.numGpus → ∀ h ∈ job.hosts, h ∈ other.hosts → i = j)
    ⟨fun ⟨enough, alone⟩ => ⟨enough, alone⟩, fun single => ⟨single.enough, single.alone⟩⟩

variable {conf : Conf} {m : MbdState} {h : HostName} {i j : JobId} {job other : JobData}

theorem OneGpuJob.devices (single : OneGpuJob conf m) (listed : Listed m)
    (there : GpuJobOn m h j job) : job.res.numGpus.toNat ≤ (conf.hostConf h).gpuIds.length := by
  obtain ⟨found, on, uses, asked⟩ := there
  exact single.enough j ((listed.mem_iff found .run).mpr on) job found asked h uses

theorem OneGpuJob.same (single : OneGpuJob conf m) (listed : Listed m)
    (first : GpuJobOn m h i job) (second : GpuJobOn m h j other) : i = j := by
  obtain ⟨found, on, uses, asked⟩ := first
  obtain ⟨known, there, shares, wants⟩ := second
  exact single.alone i ((listed.mem_iff found .run).mpr on) j ((listed.mem_iff known .run).mpr there)
    job found other known asked wants h uses shares

def InUse (gpus : List GpuId) (id : Int) : Prop :=
  ∃ g ∈ gpus, g.id = id ∧ g.inUse = true

/-! ### One host -/

variable {gpus gpus' : List GpuId} {n : Nat} {a b : HostData}

theorem map_id_markFirst (n : Nat) (used : Bool) (gpus : List GpuId) :
    (markFirst n used gpus).map GpuId.id = gpus.map GpuId.id := by
  rw [markFirst, map_append, List.map_map]
  have kept : GpuId.id ∘ (fun g : GpuId => { g with inUse := used }) = GpuId.id := rfl
  rw [kept, ← map_append, take_append_drop]

theorem inUse_markFirst {id : Int} :
    InUse (markFirst n true gpus) id ↔ id ∈ (gpus.map GpuId.id).take n ∨ InUse gpus id := by
  rw [← map_take]
  constructor
  · rintro ⟨g, member, same, used⟩
    rcases mem_append.mp member with marked | later
    · obtain ⟨old, front, rfl⟩ := List.mem_map.mp marked
      exact Or.inl (List.mem_map.mpr ⟨old, front, same⟩)
    · exact Or.inr ⟨g, mem_of_mem_drop later, same, used⟩
  · rintro (front | ⟨g, member, same, used⟩)
    · obtain ⟨g, front, same⟩ := List.mem_map.mp front
      exact ⟨{ g with inUse := true },
        mem_append_left _ (List.mem_map.mpr ⟨g, front, rfl⟩), same, rfl⟩
    · rw [← take_append_drop n gpus] at member
      rcases mem_append.mp member with front | later
      · exact ⟨{ g with inUse := true },
          mem_append_left _ (List.mem_map.mpr ⟨g, front, rfl⟩), same, rfl⟩
      · exact ⟨g, mem_append_right _ later, same, used⟩

theorem replayChargeHost_gpus (charged : replayChargeHost job a = some b) :
    b.gpus = if 0 < job.res.numGpus then markFirst job.res.numGpus.toNat true a.gpus
      else a.gpus := by
  obtain ⟨gpus, recovered, done⟩ := bind_eq_some_iff.mp charged
  cases done
  unfold recoveredGpus at recovered
  split at recovered
  next asked =>
    unfold gpuIdsMarkInuse at recovered
    simp only at recovered
    split at recovered
    · cases recovered
      rw [if_pos asked]
    · cases recovered
  next none =>
    cases recovered
    rw [if_neg none]

theorem replayChargeHost_isSome (free : 0 < job.res.numGpus → a.gpus = freshGpus conf h ∧
      job.res.numGpus.toNat ≤ (conf.hostConf h).gpuIds.length) :
    (replayChargeHost job a).isSome = true := by
  have recovers : ∃ gpus, recoveredGpus job a.gpus = some gpus := by
    unfold recoveredGpus
    split
    next asked =>
      obtain ⟨fresh, enough⟩ := free asked
      have all : (a.gpus.take job.res.numGpus.toNat).all (fun g => !g.inUse) = true := by
        rw [List.all_eq_true]
        intro g member
        have front := mem_of_mem_take member
        rw [fresh] at front
        obtain ⟨_, _, rfl⟩ := List.mem_map.mp front
        rfl
      have length : job.res.numGpus.toNat ≤ a.gpus.length := by
        rw [fresh, freshGpus, length_map]
        exact enough
      exact ⟨_, if_pos ⟨length, all⟩⟩
    next => exact ⟨_, rfl⟩
  obtain ⟨gpus, recovered⟩ := recovers
  rw [replayChargeHost, recovered]
  rfl

def FirstInUse (gpus : List GpuId) : Prop :=
  ∃ g ∈ gpus.head?, g.inUse = true

theorem gpuIdsMarkInuse_first {numGpus : Int} (asked : 0 < numGpus)
    (marked : gpuIdsMarkInuse gpus numGpus = some gpus') :
    ¬ FirstInUse gpus ∧ FirstInUse gpus' ∧ numGpus.toNat ≤ gpus.length ∧
      gpus'.length = gpus.length := by
  unfold gpuIdsMarkInuse at marked
  simp only at marked
  split at marked
  next free =>
    obtain ⟨enough, free⟩ := free
    cases marked
    obtain ⟨k, count⟩ : ∃ k, numGpus.toNat = k + 1 := ⟨numGpus.toNat - 1, by omega⟩
    rw [count] at enough free ⊢
    cases gpus with
    | nil => cases enough
    | cons g rest =>
      simp only [take_succ_cons, all_cons, Bool.and_eq_true, Bool.not_eq_true']
        at free
      refine ⟨?_, ⟨{ g with inUse := true }, rfl, rfl⟩, enough, ?_⟩
      · rintro ⟨_, ⟨⟩, used⟩
        exact Bool.false_ne_true (free.1.symm.trans used)
      · have same := congrArg List.length (map_id_markFirst (k + 1) true (g :: rest))
        rwa [length_map, length_map] at same
  next => cases marked

theorem replayChargeHost_first (charged : replayChargeHost job a = some b) :
    b.gpus.length = a.gpus.length ∧ (FirstInUse a.gpus → FirstInUse b.gpus) ∧
      (0 < job.res.numGpus → ¬ FirstInUse a.gpus ∧ FirstInUse b.gpus ∧
        job.res.numGpus.toNat ≤ a.gpus.length) := by
  obtain ⟨gpus, recovered, done⟩ := bind_eq_some_iff.mp charged
  cases done
  unfold recoveredGpus at recovered
  split at recovered
  next asked =>
    obtain ⟨free, used, enough, length⟩ := gpuIdsMarkInuse_first asked recovered
    exact ⟨length, fun _ => used, fun _ => ⟨free, used, enough⟩⟩
  next plain =>
    cases recovered
    exact ⟨rfl, id, fun asked => absurd asked plain⟩

/-! ### The loops -/

section Loops

variable {m' r a b : MbdState} {l : List JobId}

theorem forEachJob_isSome {step : MbdState → JobId → Option MbdState}
    (ready : List JobId → MbdState → Prop)
    (turn : ∀ {j : JobId} {rest : List JobId} {m : MbdState}, ready (j :: rest) m →
      ∃ m', step m j = some m' ∧ ready rest m') (start : ready l m) :
    ∃ m', forEachJob step l m = some m' := by
  induction l generalizing m with
  | nil => exact ⟨m, rfl⟩
  | cons j rest ih =>
    obtain ⟨m₁, first, later⟩ := turn start
    obtain ⟨m', done⟩ := ih later
    refine ⟨m', ?_⟩
    rw [forEachJob, first]
    exact done

theorem rebuildPending_isSome (ready : Rebuildable r) :
    ∃ m', forEachJob rebuildPending r.pend r = some m' := by
  apply forEachJob_isSome (fun l m => m.jobs = r.jobs ∧ ∀ j ∈ l, j ∈ r.pend)
  · rintro j rest m ⟨same, members⟩
    obtain ⟨job, found, pending⟩ := (ready.listed .pend j).mp (members j mem_cons_self)
    obtain ⟨⟨q, ofQueue⟩, countable⟩ := ready.pending found pending
    obtain ⟨c, counted⟩ : ∃ c, countPending job (m.queues q) = some c := by
      unfold countPending
      rcases countable with waiting | marked | marked
      · cases state : job.state <;> rw [state] at waiting
        all_goals first | exact ⟨_, rfl⟩ | cases waiting
      · rw [marked]
        exact ⟨_, rfl⟩
      · rw [marked]
        exact ⟨_, rfl⟩
    refine ⟨{ m with queues := Function.update m.queues q c }, ?_, same, fun i member =>
      members i (mem_cons_of_mem j member)⟩
    rw [← same] at found
    simp [rebuildPending, found, ofQueue, counted]
  · exact ⟨rfl, fun _ member => member⟩

theorem rebuildPending_queue (done : forEachJob rebuildPending l m = some m') :
    ∀ j ∈ l, ∃ job q, m.jobs j = some job ∧ job.queue = some q := by
  induction l generalizing m m' with
  | nil => exact fun _ member => absurd member not_mem_nil
  | cons i rest ih =>
    intro j member
    obtain ⟨m₁, first, done⟩ := bind_eq_some_iff.mp done
    rcases mem_cons.mp member with rfl | member
    · obtain ⟨job, q, _, found, ofQueue, _⟩ := rebuildPending_spec first
      exact ⟨job, q, found, ofQueue⟩
    · obtain ⟨job, q, found, ofQueue⟩ := ih done j member
      obtain ⟨_, _, _, _, _, _, rfl⟩ := rebuildPending_spec first
      exact ⟨job, q, found, ofQueue⟩

/-- The hosts of the GPU jobs that are still to come have not been touched. -/
structure Untaken (conf : Conf) (r : MbdState) (l : List JobId) (m : MbdState) : Prop where
  jobs : m.jobs = r.jobs
  distinct : l.Nodup
  members : ∀ j ∈ l, j ∈ r.run
  fresh : ∀ j ∈ l, ∀ h job, GpuJobOn r h j job → (m.hosts h).gpus = freshGpus conf h

theorem rebuildRunning_turn {rest : List JobId} (ready : Rebuildable r) (single : OneGpuJob conf r)
    (untaken : Untaken conf r (j :: rest) m) :
    ∃ m', rebuildRunning conf m j = some m' ∧ Untaken conf r rest m' := by
  obtain ⟨job, found, on⟩ := (ready.listed .run j).mp (untaken.members j mem_cons_self)
  obtain ⟨fresh, distinct⟩ := nodup_cons.mp untaken.distinct
  obtain ⟨⟨q, ofQueue⟩, dispatched, hostsApart⟩ := ready.running found on
  obtain ⟨c, counted⟩ : ∃ c, countRunning job (m.queues q) = some c := by
    unfold countRunning
    cases state : job.state <;> rw [state] at dispatched
    all_goals first | exact ⟨_, rfl⟩ | cases dispatched
  have charges : ∀ h ∈ job.hosts, (replayChargeHost job (m.hosts h)).isSome = true := by
    intro h uses
    apply replayChargeHost_isSome
    intro asked
    have here : GpuJobOn r h j job := ⟨found, on, uses, asked⟩
    exact ⟨untaken.fresh j mem_cons_self h job here, single.devices ready.toListed here⟩
  obtain ⟨hosts, charged⟩ := updateEach_isSome hostsApart charges
  have at' : m.jobs j = some job := (congrFun untaken.jobs j).trans found
  have done : rebuildRunning conf m j = some (tokenAlloc conf
      { m with
        queues := Function.update m.queues q c
        hosts := hosts } job) := by
    simp only [rebuildRunning, at', ofQueue, counted, charged, bind_eq_bind, bind_some]
  refine ⟨_, done, untaken.jobs, distinct,
    fun i member => untaken.members i (mem_cons_of_mem j member), ?_⟩
  intro i member h other there
  have before := untaken.fresh i (mem_cons_of_mem j member) h other there
  obtain ⟨listed, others⟩ := updateEach_spec hostsApart charged
  change (hosts h).gpus = _
  by_cases uses : h ∈ job.hosts
  · -- a GPU job shares the host with no other one, so the job of this turn marks nothing
    have plain : ¬ 0 < job.res.numGpus := by
      intro asked
      have same := single.same ready.toListed there ⟨found, on, uses, asked⟩
      exact fresh (same ▸ member)
    rw [replayChargeHost_gpus (listed h uses), if_neg plain]
    exact before
  · rw [others h uses]
    exact before

theorem replayRebuildCounters_isSome (ready : Rebuildable r) (single : OneGpuJob conf r)
    (fresh : ∀ h, (r.hosts h).gpus = freshGpus conf h) :
    ∃ m', replayRebuildCounters conf r = some m' := by
  obtain ⟨m₁, pended⟩ := rebuildPending_isSome ready
  obtain ⟨queues, rfl⟩ := forEachJob_rebuildPending pended
  have start : Untaken conf r r.run { r with queues := queues } :=
    ⟨rfl, ready.distinct .run, fun _ member => member, fun _ _ h _ _ => fresh h⟩
  obtain ⟨m₂, ran⟩ : ∃ m₂, forEachJob (rebuildRunning conf) r.run { r with queues := queues } =
      some m₂ := forEachJob_isSome (Untaken conf r) (rebuildRunning_turn ready single) start
  rw [replayRebuildCounters, pended, bind_eq_bind, bind_some, ran]
  exact ⟨_, rfl⟩

theorem chargeAll_apart {jobs : List JobData} {a b : HostData} (done : chargeAll jobs a = some b) :
    (∀ job ∈ jobs, 0 < job.res.numGpus → ¬ FirstInUse a.gpus ∧
        job.res.numGpus.toNat ≤ a.gpus.length) ∧
      jobs.Pairwise fun job other => 0 < job.res.numGpus → ¬ 0 < other.res.numGpus := by
  induction jobs generalizing a with
  | nil => exact ⟨forall_mem_nil _, .nil⟩
  | cons job rest ih =>
    obtain ⟨between, first, done⟩ := bind_eq_some_iff.mp done
    obtain ⟨length, kept, own⟩ := replayChargeHost_first first
    obtain ⟨later, apart⟩ := ih done
    rw [length] at later
    refine ⟨fun other member asked => ?_, pairwise_cons.mpr ⟨fun other member asked wants => ?_,
      apart⟩⟩
    · rcases mem_cons.mp member with rfl | member
      · exact ⟨(own asked).1, (own asked).2.2⟩
      · obtain ⟨free, enough⟩ := later other member asked
        exact ⟨fun used => free (kept used), enough⟩
    · exact (later other member wants).1 (own asked).2.1

theorem oneGpuJob_of_rebuilt (ready : Rebuildable r)
    (fresh : ∀ h, (r.hosts h).gpus = freshGpus conf h)
    (done : replayRebuildCounters conf r = some m') : OneGpuJob conf r := by
  obtain ⟨_, _, _, _, _, _, rebuilt, _⟩ := replayRebuildCounters_spec done
  have charges := fun h => chargeAll_apart (rebuilt.host ready h)
  constructor
  · intro j member job found asked h uses
    have there := (mem_chargedOn ready.toListed).mpr
      ⟨j, found, (ready.mem_iff found .run).mp member, uses⟩
    have enough := ((charges h).1 job there asked).2
    rwa [fresh h, freshGpus, length_map] at enough
  · intro i member j member' job found other known asked wants h uses shares
    by_contra different
    have apart := pairwise_filterMap.mp (pairwise_filter.mp (charges h).2)
    have symmetric : Std.Symm fun i j => ∀ job, r.jobs i = some job → ∀ other,
        r.jobs j = some other → decide (h ∈ job.hosts) = true → decide (h ∈ other.hosts) = true →
          0 < job.res.numGpus → ¬ 0 < other.res.numGpus :=
      ⟨fun _ _ unshared job found other known uses shares asked wants =>
        unshared other known job found shares uses wants asked⟩
    exact apart.forall member member' different job found other known (decide_eq_true uses)
      (decide_eq_true shares) asked wants

theorem chargeAll_inUse {jobs : List JobData} {a b : HostData} {ids : List Int} (id : Int)
    (table : a.gpus.map GpuId.id = ids) (done : chargeAll jobs a = some b) :
    InUse b.gpus id ↔ InUse a.gpus id ∨
      ∃ job ∈ jobs, 0 < job.res.numGpus ∧ id ∈ ids.take job.res.numGpus.toNat := by
  induction jobs generalizing a with
  | nil =>
    cases done
    simp
  | cons job rest ih =>
    obtain ⟨between, first, done⟩ := bind_eq_some_iff.mp done
    have turn : between.gpus.map GpuId.id = ids ∧ (InUse between.gpus id ↔ InUse a.gpus id ∨
        0 < job.res.numGpus ∧ id ∈ ids.take job.res.numGpus.toNat) := by
      rw [replayChargeHost_gpus first]
      split
      next asked =>
        rw [map_id_markFirst, inUse_markFirst, table]
        simp only [asked, true_and]
        exact or_comm
      next plain =>
        simp only [plain, false_and, or_false, iff_self, and_true]
        exact table
    rw [ih turn.1 done, turn.2, exists_mem_cons_iff]
    exact or_assoc

end Loops

/-! ### The restart -/

variable {like : Detail → Detail → Prop} {m' r : MbdState} {replayed : JobData} {l : List JobId}

theorem MirrorJob.hosts (mirrored : MirrorJob replayed job) (on : job.listId = .run) :
    replayed.hosts = job.hosts := by
  obtain ⟨_, _, runHosts, runNhosts⟩ := mirrored.running on
  rw [JobData.hosts, runHosts, runNhosts, JobData.hosts]

theorem MirrorJob.gpuJobOn (mirrored : MirrorJob replayed job) (found : m.jobs j = some job)
    (there : GpuJobOn r h j replayed) : GpuJobOn m h j job := by
  obtain ⟨_, on, uses, asked⟩ := there
  have running := mirrored.listId.symm.trans on
  have gpus : replayed.res.numGpus = job.res.numGpus := congrArg Core.numGpus mirrored.core
  exact ⟨found, running, mirrored.hosts running ▸ uses, gpus ▸ asked⟩

theorem Replayed.oneGpuJob (replayed : Replayed conf m r) (listed : Listed m)
    (single : OneGpuJob conf m) : OneGpuJob conf r := by
  have before : ∀ {h j job}, j ∈ r.run → r.jobs j = some job → 0 < job.res.numGpus →
      h ∈ job.hosts → ∃ live, GpuJobOn m h j live ∧ job.res.numGpus = live.res.numGpus := by
    intro h j job member found asked uses
    have on := (replayed.wf.toListed.mem_iff found .run).mp member
    obtain ⟨live, known, mirrored⟩ := replayed.mirror found
    exact ⟨live, mirrored.gpuJobOn known ⟨found, on, uses, asked⟩,
      congrArg Core.numGpus mirrored.core⟩
  constructor
  · intro j member job found asked h uses
    obtain ⟨live, was, same⟩ := before member found asked uses
    rw [same]
    exact single.devices listed was
  · intro i member j member' job found other known asked wants h uses shares
    obtain ⟨_, was, _⟩ := before member found asked uses
    obtain ⟨_, wasOther, _⟩ := before member' known wants shares
    exact single.same listed was wasOther

theorem Remembered.recovers (remembered : Remembered conf like m) (wf : Wf conf m)
    (sound : Recoverable conf m) (saved : IdsSaved m) (single : OneGpuJob conf m) :
    ∃ m', recover conf m = some m' := by
  obtain ⟨r, events⟩ := remembered.replays
  have replayed := replayed_of_events wf sound saved events
  obtain ⟨m', rebuilt⟩ := replayRebuildCounters_isSome replayed.wf.rebuildable
    (replayed.oneGpuJob wf.toListed single)
    (fun h => by rw [replayed.hosts]; rfl)
  refine ⟨m', ?_⟩
  rw [recover, replayRecords, events]
  exact rebuilt

theorem Remembered.restored (remembered : Remembered conf like m) (restored : Restored conf m m')
    (found : m.jobs j = some job) : ∃ replayed, m'.jobs j = some replayed ∧ MirrorJob replayed job ∧
      like replayed.detail job.detail := by
  obtain ⟨replayed, told, alike⟩ := remembered.known found
  have same : m'.jobs j = some replayed := Option.some.inj ((restored.told j).symm.trans told)
  obtain ⟨live, at', mirrored⟩ := restored.mirror same
  rw [found] at at'
  cases at'
  exact ⟨replayed, same, mirrored, alike⟩

theorem Restored.tokens (restored : Restored conf m m') (found : m'.jobs j = some job) :
    job.res.tokens = [] := by
  have told := restored.told j
  rw [found] at told
  obtain ⟨e, detail⟩ := history_origin told
  exact congrArg (fun d : Detail => d.res.tokens) detail

theorem rebuildRunning_pools {a b : MbdState} (done : forEachJob (rebuildRunning conf) l a = some b)
    (none : ∀ j job, a.jobs j = some job → job.res.tokens = []) : b.pools = a.pools := by
  induction l generalizing a with
  | nil =>
    cases done
    rfl
  | cons j rest ih =>
    obtain ⟨between, first, done⟩ := bind_eq_some_iff.mp done
    obtain ⟨job, _, _, _, found, _, _, _, rfl⟩ := rebuildRunning_spec first
    rw [ih done none, none j job found]
    rfl

section Recovered

variable (wf : Wf conf m) (sound : Recoverable conf m) (saved : IdsSaved m)
  (done : recover conf m = some m')

include wf sound saved done

theorem restart_inUse (h : HostName) (id : Int) :
    InUse (m'.hosts h).gpus id ↔ ∃ j job, GpuJobOn m' h j job ∧
      id ∈ (conf.hostConf h).gpuIds.take job.res.numGpus.toNat := by
  have restored := restored_of_recover wf sound saved done
  have table : (freshGpus conf h).map GpuId.id = (conf.hostConf h).gpuIds := by
    rw [freshGpus, List.map_map]
    exact List.map_id _
  have fresh : ¬ InUse (freshGpus conf h) id := by
    rintro ⟨g, member, _, used⟩
    obtain ⟨_, _, rfl⟩ := List.mem_map.mp member
    cases used
  refine (chargeAll_inUse id table (restart_host wf sound saved done h)).trans
    ((or_iff_right fresh).trans ?_)
  simp only [mem_chargedOn restored.wf.toListed, GpuJobOn]
  constructor
  · rintro ⟨job, ⟨j, found, on, uses⟩, asked, front⟩
    exact ⟨j, job, ⟨found, on, uses, asked⟩, front⟩
  · rintro ⟨j, job, ⟨found, on, uses, asked⟩, front⟩
    exact ⟨job, ⟨j, found, on, uses⟩, asked, front⟩

theorem restart_pools : m'.pools = conf.poolTotal := by
  have restored := restored_of_recover wf sound saved done
  obtain ⟨r, replayed, rebuilt⟩ := replayed_of_recover wf sound saved done
  obtain ⟨_, _, _, _, _, _, loops, rfl⟩ := replayRebuildCounters_spec rebuilt
  have kept := rebuildRunning_pools loops.ran fun _ _ => restored.tokens
  exact kept.trans replayed.pools

theorem restart_tokensBalanced : TokensBalanced conf m' := by
  have restored := restored_of_recover wf sound saved done
  intro p _
  have held : ∀ id, listTally m' (tokenShare p) id = 0 := by
    intro id
    refine tally_eq_zero fun j _ => ?_
    cases found : m'.jobs j with
    | none => rfl
    | some job =>
      rw [elim_some, tokenShare, restored.tokens found]
      split <;> rfl
  rw [restart_pools wf sound saved done, openTally, held, held, Int.add_zero, Int.add_zero]

end Recovered

/-! ### Kills inside a compaction -/

section

def Quiet : Event → Prop
  | .jobSignal _ _ _ _ => False
  | .jobStart e => e.gpuAssigned = ""
  | _ => True

instance decidableQuiet : (e : Event) → Decidable (Quiet e)
  | .jobSignal _ _ _ _ => isFalse id
  | .jobStart e => inferInstanceAs (Decidable (e.gpuAssigned = ""))
  | .jobNew _ | .jobFork _ _ _ | .jobFinish _ _ _ _ _ | .jobPendSusp _ _ | .jobPendResume _ _
  | .jobSusp _ _ | .jobMove _ _ _ _ | .jobPriority _ _ _ _ | .jobPend _ _ => isTrue trivial

structure Bare (job : JobData) : Prop where
  signalTime : job.signalTime = 0
  gpuAssigned : job.gpuAssigned = ""
  pendReason : job.pendReason = .none

/-- Two jobs that differ at most in entries of the host array behind the hosts in use. -/
structure SameReplay (a b : JobData) : Prop where
  fields : b = { a with runHosts := b.runHosts }
  hosts : b.hosts = a.hosts

variable {job' : JobData}

theorem replayRecord_bare {e : Event} (bare : Bare job) (quiet : Quiet e)
    (done : replayRecord conf job e = some job') : Bare job' := by
  cases e with
  | jobNew => cases done
  | jobSignal => exact absurd quiet id
  | jobFork | jobFinish | jobSusp | jobPriority =>
    cases done
    exact ⟨bare.signalTime, bare.gpuAssigned, bare.pendReason⟩
  | jobPendSusp | jobPendResume | jobPend =>
    simp only [replayRecord] at done
    split at done
    · cases done
      exact ⟨bare.signalTime, bare.gpuAssigned, bare.pendReason⟩
    · cases done
  | jobMove =>
    simp only [replayRecord] at done
    split at done <;> cases done <;> exact ⟨bare.signalTime, bare.gpuAssigned, bare.pendReason⟩
  | jobStart e =>
    have none : strlcpy 64 e.gpuAssigned = "" := by
      rw [show e.gpuAssigned = "" from quiet]
      rfl
    rcases startJob_cases done with rfl | ⟨_, _, rfl⟩ | ⟨_, _, rfl⟩
    · exact bare
    · exact ⟨bare.signalTime, bare.gpuAssigned, bare.pendReason⟩
    · exact ⟨bare.signalTime, none, bare.pendReason⟩

theorem history_bare {manifest : List Event} {j : JobId}
    (quiet : ∀ e ∈ manifest, recordJob e = j → Quiet e)
    (told : history conf manifest j = some (some job)) : Bare job := by
  refine history_invariant Bare (fun e job _ _ alloc => ?_) ?_ told
  · have made := replayAlloc_made alloc
    exact ⟨made.signalTime, made.gpuAssigned, made.pendReason⟩
  · exact fun e member about _ _ recorded bare =>
      replayRecord_bare bare (quiet e member about) recorded

/-! ### The records of a compaction are quiet -/

theorem CompactRecord.quiet {begun : Prop} {e : Event} (record : CompactRecord begun job e) :
    Quiet e := by
  cases record with
  | start _ written =>
    obtain ⟨-, start, rfl, -, silent, -⟩ := start_cases written
    exact silent
  | _ => trivial

theorem compact_quiet {m m' : MbdState} (compacted : manifestRebuild m = some m') :
    ∀ e ∈ m'.manifest, Quiet e := by
  intro e member
  obtain ⟨_, _, _, _, _, record⟩ := mem_manifestRebuild compacted member
  all_goals exact record.quiet

/-! ### Two histories of one job -/

variable {a b : JobData}

theorem MirrorJob.sameReplay (first : MirrorJob a job) (second : MirrorJob b job)
    (bare : Bare a) (bare' : Bare b) (detail : b.detail = a.detail)
    (final : job.listId = .finish → job.state.isFinished = true) : SameReplay a b := by
  have core : b.core = a.core := second.core.trans first.core.symm
  have told : b.state = a.state ∧ b.dispatchTime = a.dispatchTime ∧ b.runNhosts = a.runNhosts ∧
      b.hosts = a.hosts := by
    unfold JobData.hosts
    cases on : job.listId with
    | pend =>
      obtain ⟨state, time, count, _⟩ := first.pending on
      obtain ⟨state', time', count', _⟩ := second.pending on
      refine ⟨state'.trans state.symm, time'.trans time.symm, count'.trans count.symm, ?_⟩
      rw [count, count', List.take_zero, List.take_zero]
    | run =>
      obtain ⟨state, time, hosts, count⟩ := first.running on
      obtain ⟨state', time', hosts', count'⟩ := second.running on
      refine ⟨state'.trans state.symm, time'.trans time.symm, count'.trans count.symm, ?_⟩
      rw [hosts, hosts', count, count']
    | finish =>
      obtain ⟨_, state, time, placed, unplaced⟩ := first.finished on
      obtain ⟨_, state', time', placed', unplaced'⟩ := second.finished on
      refine ⟨(state' (final on)).trans (state (final on)).symm, time'.trans time.symm, ?_⟩
      by_cases started : job.dispatchTime = 0
      · rw [unplaced started, unplaced' started, List.take_zero, List.take_zero]
        exact ⟨rfl, rfl⟩
      · obtain ⟨hosts, count⟩ := placed started
        obtain ⟨hosts', count'⟩ := placed' started
        rw [hosts, hosts', count, count']
        exact ⟨rfl, rfl⟩
  obtain ⟨state, time, count, hosts⟩ := told
  refine ⟨?_, hosts⟩
  obtain ⟨signal, gpus, reason⟩ := bare
  obtain ⟨signal', gpus', reason'⟩ := bare'
  cases a
  cases b
  simp only [JobData.core, Core.mk.injEq] at core
  simp only [JobData.detail, Detail.mk.injEq] at detail
  simp_all only

end

/-! ### Kills -/

/-- Where `manifest_rebuild` was killed; `written` counts the bytes that reached the new file. -/
inductive RebuildPoint where
  | started
  | renamed
  | written (bytes : Nat)
  deriving DecidableEq, Repr

/-- The file at the path of the manifest: none between the rename and the `open`. -/
def manifestFile (old new : List Event) : RebuildPoint → Option (List Char)
  | .started => some (manifestText old)
  | .renamed => none
  | .written n => some ((manifestText new).take n)

/--
`jobs_replay` on the file that is there.  Without a file it returns at once, before
it has read the sequence file.
-/
def startUp (conf : Conf) (marks : ClosedMarks) (file : Option (List Char)) (seqFile : JobId) :
    Option MbdState :=
  match file with
  | none => some (initialState conf marks [] seqFile)
  | some text => replayRecords conf marks (readManifest text) (readManifest text) seqFile

def rebuiltRecords (m : MbdState) : Option (List Event) :=
  (manifestRebuild m).map MbdState.manifest

/-- Every pending or running job is on the same list again, with all that it had but its stop. -/
def RestoresJobs (before after : MbdState) : Prop :=
  ∀ id, id ≠ .finish → ∀ j ∈ before.list id, j ∈ after.list id ∧
    ∃ job job', before.jobs j = some job ∧ after.jobs j = some job' ∧ job'.core = job.core ∧
      job'.dispatchTime = job.dispatchTime ∧ (id = .run → job'.hosts = job.hosts)

/-- What a start-up reads is the compaction of a state without some of the finished jobs. -/
def SafePoint (m : MbdState) (records : List Event) : RebuildPoint → Prop
  | .started => True
  | .renamed => False
  | .written n => ∃ pending running finished done,
    compactList m compactPending m.pend = some pending ∧
    compactList m compactRunning m.run = some running ∧
    compactList m compactWriteJobFinished ((m.finish.filter (keepFinished m)).take done) =
      some finished ∧
    readManifest ((manifestText records).take n) = pending ++ running ++ finished

def unfinishedRecords (m : MbdState) (records : List Event) : List Event :=
  records.filter fun e => recordJob e ∈ m.pend ++ m.run

/-- Of the jobs that have not finished the same is read as was to be written. -/
def Survives (m : MbdState) (records : List Event) : RebuildPoint → Prop
  | .started => True
  | .renamed => m.pend ++ m.run = []
  | .written n => unfinishedRecords m (readManifest ((manifestText records).take n)) =
      unfinishedRecords m records

/-- No record of such a job is read as another one, as a `JOB_FORK` cut inside its pid is. -/
def NoneMisread (m : MbdState) (records : List Event) : RebuildPoint → Prop
  | .written n => unfinishedRecords m (readManifest ((manifestText records).take n)) <+:
      unfinishedRecords m records
  | _ => True

variable {kept : List JobId} {manifest records read : List Event} {j : JobId}

theorem mem_unfinished : j ∈ m.pend ++ m.run ↔ ∃ id, id ≠ .finish ∧ j ∈ m.list id := by
  rw [mem_append]
  constructor
  · rintro (pending | running)
    · exact ⟨.pend, by decide, pending⟩
    · exact ⟨.run, by decide, running⟩
  · rintro ⟨id, open_, on⟩
    cases id with
    | pend => exact .inl on
    | run => exact .inr on
    | finish => exact absurd rfl open_

theorem own_unfinished (mine : j ∈ m.pend ++ m.run) (records : List Event) :
    (unfinishedRecords m records).filter (recordJob · = j) =
      records.filter (recordJob · = j) := by
  rw [unfinishedRecords, List.filter_filter]
  refine filter_congr fun e _ => ?_
  by_cases same : recordJob e = j
  · simpa [same] using mine
  · simp [same]

theorem manifestText_append (first rest : List Event) :
    manifestText (first ++ rest) = manifestText first ++ manifestText rest :=
  flatMap_append

theorem restoresJobs_of_mirrors (listed : Listed m) (each : ∀ {j job}, m.jobs j = some job →
    job.listId ≠ .finish → ∃ job', m'.jobs j = some job' ∧ MirrorJob job' job ∧ ListedAt j m') :
    RestoresJobs m m' := by
  intro id open_ j member
  obtain ⟨job, found, on⟩ := (listed.listed id j).mp member
  obtain ⟨job', found', mirrored, there⟩ := each found (on ▸ open_)
  have here : 0 < (m'.list id).count j := by
    rw [there id]
    exact presence_pos_iff.mpr ⟨job', found', mirrored.listId.trans on⟩
  refine ⟨count_pos_iff.mp here, job, job', found, found', mirrored.core, ?_,
    fun isRun => mirrored.hosts (on.trans isRun)⟩
  cases onList : job.listId with
  | pend => exact (mirrored.pending onList).2.1
  | run => exact (mirrored.running onList).2.1
  | finish => exact absurd (on.symm.trans onList) open_

theorem Remembered.mirrors (remembered : Remembered conf like m) (wf : Wf conf m)
    (sound : Recoverable conf m) (saved : IdsSaved m) (recovered : recover conf m = some m')
    (found : m.jobs j = some job) :
    ∃ job', m'.jobs j = some job' ∧ MirrorJob job' job ∧ ListedAt j m' := by
  have restored := restored_of_recover wf sound saved recovered
  obtain ⟨job', found', mirrored, _⟩ := remembered.restored restored found
  exact ⟨job', found', mirrored, restored.wf.toListed.listedAt j⟩

theorem IdsSaved.keeping (saved : IdsSaved m) : IdsSaved (keeping m kept manifest) :=
  fun found => saved (keeping_jobs found).1

theorem OneGpuJob.keeping (single : OneGpuJob conf m) :
    OneGpuJob conf (keeping m kept manifest) where
  enough := fun j member job found => single.enough j member job (keeping_jobs found).1
  alone := fun i first j second job found other known =>
    single.alone i first j second job (keeping_jobs found).1 other (keeping_jobs known).1

/-- No two records of one job are of one kind. -/
theorem compactOn_types (wf : JobWf conf j job) {block : List Event}
    (written : compactOn job.listId job = some block) : (block.map Event.type).Nodup := by
  obtain ⟨e, rest, rfl, _, _, follows⟩ := compactOn_cases wf written
  cases follows with
  | waiting => simp
  | running placed _ _ started =>
    obtain ⟨start, rfl, _⟩ := compactWriteJobStart_spec placed started
    split <;> simp [Event.type, eventJobFork]
  | finished finished _ dispatched started =>
    obtain ⟨start, rfl, _⟩ := compactWriteJobStart_spec (finished.placed dispatched) started
    split <;> simp [Event.type, eventJobFork, eventJobFinish]
  | killed => simp [Event.type, eventJobFinish]

/-- A restored job has all its records in the file. -/
theorem read_of_restored (wf : JobWf conf j job) {block : List Event} {job' : JobData}
    (written : compactOn job.listId job = some block) (unfinished : job.listId ≠ .finish)
    (inside : ∀ e ∈ read, recordJob e = j → e ∈ block)
    (told : history conf read j = some (some job')) (core : job'.core = job.core) :
    ∀ e ∈ block, e ∈ read := by
  have types := inj_on_of_nodup_map (compactOn_types wf written)
  obtain ⟨new, rest, rfl, _, _, follows⟩ := compactOn_cases wf written
  obtain ⟨⟨new', known, own⟩, started, forked⟩ := history_sources told
  intro e member
  rcases mem_cons.mp member with rfl | later
  · rwa [types member (inside _ known own) rfl]
  · cases follows with
    | waiting => cases later
    | finished _ isOver | killed _ isOver => exact absurd isOver unfinished
    | running placed same _ wrote =>
      obtain ⟨start, rfl, _⟩ := compactWriteJobStart_spec placed wrote
      rcases mem_cons.mp later with rfl | last
      · have on : job'.listId = .run :=
          (congrArg Core.listId core).trans (congrArg JobData.listId same).symm
        obtain ⟨start', known, own⟩ := started on
        rwa [types member (inside _ known own) rfl]
      · split at last
        next forkTime =>
          cases mem_singleton.mp last
          have pid : job'.pid = job.pid := congrArg Core.pid core
          have time : job'.forkTime = job.forkTime := congrArg Core.forkTime core
          rw [pid, time, ← wf.id] at forked
          exact forked forkTime
        next => cases last

theorem replayRecords_listedAt {marks : ClosedMarks} {seqFile : JobId}
    (done : replayRecords conf marks records manifest seqFile = some m)
    (proper : Proper conf none (records.filter (recordJob · = j))) : ListedAt j m := by
  obtain ⟨r, events, rebuilt⟩ := bind_eq_some_iff.mp done
  obtain ⟨_, _, _, _, _, _, _, rfl⟩ := replayRebuildCounters_spec rebuilt
  have blank := initialState_blank conf marks manifest seqFile
  have listed := replayEvents_listedAt (j := j) (by rwa [blank.jobs]) (blank.listed.listedAt j)
    events
  intro id
  cases id with
  | pend => exact listed .pend
  | run => exact listed .run
  | finish => exact listed .finish

section Replayed

variable {m₁ : MbdState} {marks : ClosedMarks} {seqFile : JobId} (wf : Wf conf m)
  (compacted : manifestRebuild m = some m₁)
  (restarted : replayRecords conf marks read manifest seqFile = some m')

include wf compacted restarted

theorem replay_restores (lasting : Lasting conf like) (remembered : Remembered conf like m)
    (survives : unfinishedRecords m read = unfinishedRecords m m₁.manifest) :
    RestoresJobs m m' := by
  refine restoresJobs_of_mirrors wf.toListed fun {j job} found unfinished => ?_
  cases compact_compacts compacted wf j with
  | freed _ _ isOver => exact absurd (isOver _ found) unfinished
  | kept same _ written block =>
    cases found.symm.trans same
    have mine := mem_unfinished.mpr ⟨_, unfinished, (wf.listed _ j).mpr ⟨job, found, rfl⟩⟩
    have all := own_unfinished mine read
    rw [survives, own_unfinished mine, block] at all
    have mirror := compactOn_block (wf.job found) written
    obtain ⟨_, _, alike⟩ := remembered.known found
    obtain ⟨job', done, _⟩ := mirror.succeeds (lasting.room (lasting.rewrites alike))
    have story := (started_of_replay restarted).told j
    rw [history, ← replayJobs_filter, ← all, done] at story
    exact ⟨job', (Option.some.inj story).symm, mirror.mirrors done,
      replayRecords_listedAt restarted (all ▸ mirror.proper)⟩

/-- The first record that is missing would be one of a job that is back. -/
theorem replay_survives
    (ordered : unfinishedRecords m read <+: unfinishedRecords m m₁.manifest)
    (restores : RestoresJobs m m') :
    unfinishedRecords m read = unfinishedRecords m m₁.manifest := by
  obtain ⟨rest, whole⟩ := ordered
  cases rest with
  | nil => exact (append_nil _).symm.trans whole
  | cons e later =>
    obtain ⟨member, on⟩ := mem_filter.mp (whole ▸ mem_append_right _ mem_cons_self)
    have mine := of_decide_eq_true on
    obtain ⟨id, open_, on⟩ := mem_unfinished.mp mine
    obtain ⟨_, job, job', found, found', core, _⟩ := restores id open_ _ on
    obtain ⟨_, known, onList⟩ := (wf.listed id _).mp on
    cases found.symm.trans known
    have story := (started_of_replay restarted).told (recordJob e)
    rw [found'] at story
    cases compact_compacts compacted wf (recordJob e) with
    | freed _ _ isOver => exact absurd (onList.symm.trans (isOver _ found)) open_
    | kept same _ written block =>
      cases found.symm.trans same
      have own := own_unfinished mine m₁.manifest
      rw [← whole, filter_append, filter_cons_of_pos (by simp), own_unfinished mine, block]
        at own
      have once := own ▸ (compactOn_types (wf.job found) written).of_map
      have known := read_of_restored (wf.job found) written (onList ▸ open_)
        (fun x known about => own ▸ mem_append_left _
          (mem_filter.mpr ⟨known, decide_eq_true about⟩)) story core e
        (own ▸ mem_append_right _ mem_cons_self)
      exact absurd rfl ((nodup_append.mp once).2.2 e
        (mem_filter.mpr ⟨known, decide_eq_true rfl⟩) e mem_cons_self)

end Replayed

section StartUp

variable {point : RebuildPoint} (lasting : Lasting conf like) (remembered : Remembered conf like m)
  (wf : Wf conf m) (sound : Recoverable conf m) (saved : IdsSaved m) (legible : Legible m)

include lasting remembered wf sound saved legible

theorem startUp_restores (single : OneGpuJob conf m) (safe : SafePoint m records point) :
    ∃ m', startUp conf m.marks (manifestFile m.manifest records point) m.seqFile = some m' ∧
      RestoresJobs m m' := by
  cases point with
  | renamed => exact absurd safe id
  | started =>
    obtain ⟨m', recovered⟩ := remembered.recovers wf sound saved single
    refine ⟨m', ?_, restoresJobs_of_mirrors wf.toListed fun found _ =>
      remembered.mirrors wf sound saved recovered found⟩
    simp only [startUp, manifestFile, readManifest_manifestText legible]
    exact recovered
  | written n =>
    obtain ⟨pending, running, finished, done, writtenP, writtenR, writtenF, read⟩ := safe
    have fewer : (m.finish.filter (keepFinished m)).take done <+ m.finish :=
      (take_sublist _ _).trans filter_sublist
    have compacts := fun j => compacts_keeping (ListId.rec pending running finished)
      (fun found => (wf.job found).id) (wf.toListed.listedAt j) fewer rfl
      (ListId.rec writtenP writtenR writtenF)
    have remembered' := remembered.compacts lasting wf compacts
    have sound' := recoverable_of_compacts wf compacts
    obtain ⟨m', recovered⟩ := remembered'.recovers (wf_keeping wf fewer) sound' saved.keeping
      single.keeping
    refine ⟨m', ?_, restoresJobs_of_mirrors wf.toListed fun found unfinished => ?_⟩
    · simp only [startUp, manifestFile, read]
      exact recovered
    · refine remembered'.mirrors (wf_keeping wf fewer) sound' saved.keeping recovered
        (keeping_of_some found fun ended => ?_)
      obtain ⟨_, found', on⟩ := (wf.listed .finish _).mp ended
      cases found.symm.trans found'
      exact absurd on unfinished

theorem startUp_restores_iff (rebuilt : rebuiltRecords m = some records)
    (started : startUp conf m.marks (manifestFile m.manifest records point) m.seqFile = some m') :
    (Survives m records point → RestoresJobs m m') ∧
      (NoneMisread m records point → RestoresJobs m m' → Survives m records point) := by
  cases point with
  | started =>
    simp only [startUp, manifestFile, readManifest_manifestText legible] at started
    exact ⟨fun _ => restoresJobs_of_mirrors wf.toListed fun found _ =>
      remembered.mirrors wf sound saved started found, fun _ _ => trivial⟩
  | renamed =>
    cases started
    refine ⟨fun none id open_ j member => ?_, fun _ restores => ?_⟩
    · have none : m.pend ++ m.run = [] := none
      have there := mem_unfinished.mpr ⟨id, open_, member⟩
      rw [none] at there
      cases there
    · refine eq_nil_iff_forall_not_mem.mpr fun j member => ?_
      obtain ⟨id, open_, on⟩ := mem_unfinished.mp member
      have there := (restores id open_ j on).1
      rw [(initialState_blank ..).lists id] at there
      cases there
  | written n =>
    obtain ⟨m₁, compacted, rfl⟩ := map_eq_some_iff.mp rebuilt
    exact ⟨replay_restores wf compacted started lasting remembered,
      replay_survives wf compacted started⟩

end StartUp

end LavaLite.Mbd
