import LavaLite.Mbd.Handlers

/-
The reports of an sbd, the scheduling cycle and the admin requests as effects.  A report is
sound only when the sbd of a correct run would send it at that moment, as `Expects` says.
-/

namespace LavaLite.Mbd

open Base Batch Kernel Function List Option

section

def RunsAt (m : MbdState) (n : HostName) (j : JobId) : Prop :=
  ∀ job, m.jobs j = some job → job.listId = .run ∧ job.runHosts.head? = some n

/-- If mbd knows the job, it is running with exec host `n`, or finished after it had started. -/
def AtHost (m : MbdState) (n : HostName) (j : JobId) : Prop :=
  ∀ job, m.jobs j = some job →
    (job.listId = .run ∧ job.runHosts.head? = some n) ∨ (job.listId = .finish ∧ 0 < job.forkTime)

def Forked (m : MbdState) (j : JobId) : Prop :=
  ∀ job, m.jobs j = some job → 0 < job.forkTime

/-- The reports mbd can take from the sbd of host `n`. -/
def Expects (m : MbdState) (n : HostName) : SbdMsg → Prop
  | .newJobReply j _ => AtHost m n j
  | .newJobReject j => RunsAt m n j
  | .jobFinish j _ _ => AtHost m n j ∧ Forked m j ∧ j ≤ m.seqFile
  | .signalReply j _ ok => ok = true → AtHost m n j
  | .jobMissing j => RunsAt m n j

/-- What a restriction says about one report from the sbd of host `n`. -/
def Permitted (permits : Permit) (m : MbdState) (n : HostName) : SbdMsg → Prop
  | .newJobReply j _ => ∀ job, m.jobs j = some job → permits m job .forked
  | .newJobReject j => ∀ job, m.jobs j = some job → permits m job .released
  | .jobFinish j _ _ => ∀ job, m.jobs j = some job → permits m job .finished
  | .signalReply j sig ok =>
    ok = true → ∀ job, m.jobs j = some job →
      (isStopSignal sig = true → permits m job (.stopped n)) ∧
        (sig = sigCont → permits m job (.continued n))
  | .jobMissing j => ∀ job, m.jobs j = some job → permits m job .released

instance decidableKnown {found : Option JobData} {asked : JobData → Prop}
    [DecidablePred asked] : Decidable (∀ job, found = some job → asked job) :=
  match found with
  | none => isTrue fun _ known => absurd known (some_ne_none _).symm
  | some job => decidable_of_iff (asked job) (by simp)

instance decidablePermitted {permits : Permit} [∀ m job report, Decidable (permits m job report)]
    {m : MbdState} {n : HostName} : ∀ msg, Decidable (Permitted permits m n msg)
  | .newJobReply _ _ => decidableKnown
  | .newJobReject _ => decidableKnown
  | .jobFinish _ _ _ => decidableKnown
  | .signalReply j sig ok =>
    inferInstanceAs (Decidable (ok = true → ∀ job, m.jobs j = some job →
      (isStopSignal sig = true → permits m job (.stopped n)) ∧
        (sig = sigCont → permits m job (.continued n))))
  | .jobMissing _ => decidableKnown

variable {conf : Conf} {permits : Permit} {m m' : MbdState} {j : JobId} {job : JobData} {now : Time}
  {n : HostName} {ackOk success : Bool} {exitStatus : Int}

theorem resetHostResources_spec (distinct : job.hosts.Nodup)
    (done : resetHostResources m job = some m') :
    ∃ hosts, m' = { m with hosts := hosts } ∧ ∀ h, hostsReset job h (m.hosts h) (hosts h) := by
  obtain ⟨hosts, updated, done⟩ := bind_eq_some_iff.mp done
  cases done
  obtain ⟨listed, others⟩ := updateEach_spec distinct updated
  refine ⟨hosts, rfl, fun h => ?_⟩
  unfold hostsReset
  by_cases member : h ∈ job.hosts
  · rw [if_pos member]
    exact listed h member
  · rw [if_neg member]
    exact others h member

theorem mbdNewJobReply_effects {pid : Int} (clock : 0 < now) (expected : AtHost m n j)
    (permitted : ∀ job, m.jobs j = some job → permits m job .forked)
    (done : mbdNewJobReply m now n j pid ackOk = some m') : Effects conf permits m m' := by
  unfold mbdNewJobReply at done
  split at done
  · cases done
    exact .refl
  next job found =>
    split at done
    · split at done
      next forked =>
        cases done
        exact (Effect.ackReply found forked rfl).single
      next unforked =>
        cases done
        rcases expected job found with ⟨running, isFirst⟩ | ⟨_, forked⟩
        · exact (Effect.fork running isFirst (Int.not_lt.mp unforked) clock
            (permitted job found)
            ((((Change.start found).send n _).setJob
              { job with pid := pid, forkTime := now, state := .running } rfl rfl).log
                _)).single
        · exact absurd forked unforked
    · cases done
      exact .refl

theorem mbdJobRejectDispatch_effect (wf : Wf conf m) (found : m.jobs j = some job)
    (permitted : permits m job .released)
    (done : mbdJobRejectDispatch conf m now j job ackOk = some m') : Effect conf permits m m' := by
  unfold mbdJobRejectDispatch at done
  split at done
  next asserted =>
    obtain ⟨running, onRun⟩ := asserted
    have dispatched : job.state.isDispatched = true := by
      rw [running]
      rfl
    obtain ⟨h, isFirst, done⟩ := bind_eq_some_iff.mp done
    obtain ⟨q, ofQueue, done⟩ := bind_eq_some_iff.mp done
    obtain ⟨m₁, reset, done⟩ := bind_eq_some_iff.mp done
    obtain ⟨hosts, rfl, relates⟩ :=
      resetHostResources_spec ((wf.job found).running onRun).hosts_nodup reset
    have change := (((((Change.start found).setHosts (hostsReset job) relates).setPools
      (changeTokens conf 1 job.res.tokens m.pools)).modifyQueue q
      (countReleased job)).toPending { backToPending job with runHosts := [], runNhosts := 0 } rfl rfl
        onRun).log (.jobPend j now)
    cases ackOk with
    | false =>
      cases done
      exact Effect.release onRun isFirst dispatched ofQueue (Or.inl rfl) (Or.inl rfl)
        permitted change
    | true =>
      cases done
      exact Effect.release onRun isFirst dispatched ofQueue (Or.inl rfl) (Or.inr rfl)
        permitted (change.send h (.newJobReplyAck j))
  next => cases done

theorem mbdNewJobReject_effects (wf : Wf conf m)
    (permitted : ∀ job, m.jobs j = some job → permits m job .released)
    (done : mbdNewJobReject conf m now j ackOk = some m') : Effects conf permits m m' := by
  unfold mbdNewJobReject at done
  split at done
  · cases done
    exact .refl
  next job found =>
    split at done
    · split at done
      · cases done
        exact .refl
      · cases done
    · exact (mbdJobRejectDispatch_effect wf found (permitted job found) done).single

theorem mbdJobFinishFirst_effect (clock : 0 < now) (wf : Wf conf m) (found : m.jobs j = some job)
    (onRun : job.listId = .run) (isFirst : job.runHosts.head? = some n) (forked : 0 < job.forkTime)
    (permitted : permits m job .finished)
    (done : mbdJobFinishFirst conf (m.send n (.jobFinishAck j)) now j job success exitStatus =
      some m') : Effect conf permits m m' := by
  have running := (wf.job found).running onRun
  obtain ⟨q, ofQueue, done⟩ := bind_eq_some_iff.mp done
  obtain ⟨m₁, reset, done⟩ := bind_eq_some_iff.mp done
  obtain ⟨hosts, rfl, relates⟩ := resetHostResources_spec running.hosts_nodup reset
  cases done
  exact Effect.finish onRun isFirst running.state ofQueue forked clock permitted
    (((((((Change.start found).send n _).setHosts (hostsReset job) relates).setPools _).modifyQueue q
      (countFinished job)).toFinished (finishedJob job now success exitStatus) rfl rfl onRun).log _)

theorem mbdJobFinish_effects (clock : 0 < now) (wf : Wf conf m) (expected : AtHost m n j)
    (forked : Forked m j) (saved : j ≤ m.seqFile)
    (permitted : ∀ job, m.jobs j = some job → permits m job .finished)
    (done : mbdJobFinish conf m now n j success exitStatus ackOk = some m') :
    Effects conf permits m m' := by
  unfold mbdJobFinish at done
  split at done
  next unknown =>
    cases ackOk with
    | false =>
      cases done
      exact .refl
    | true =>
      cases done
      refine (Effect.ackFinish saved (fun job found => ?_) rfl).single
      rw [unknown] at found
      cases found
  next job found =>
    obtain ⟨h, isFirst, done⟩ := bind_eq_some_iff.mp done
    split at done
    · cases done
      exact .refl
    next sameHost =>
      have host : n = h := not_not.mp sameHost
      subst host
      split at done
      next ended =>
        cases ackOk with
        | false =>
          cases done
          exact .refl
        | true =>
          cases done
          refine (Effect.ackFinish saved (fun job' found' => ?_) rfl).single
          rw [found] at found'
          cases found'
          rcases expected job found with ⟨onRun, _⟩ | final
          · exact absurd ended
              (Int.not_lt.mpr (Int.le_of_eq ((wf.job found).running onRun).endTime))
          · exact final
      next unended =>
        split at done
        · split at done
          · rcases expected job found with ⟨onRun, _⟩ | ⟨final, _⟩
            · exact (mbdJobFinishFirst_effect clock wf found onRun isFirst
                (forked job found) (permitted job found) done).single
            · exact absurd ((wf.job found).finished final).endTime unended
          · cases done
            exact .refl
        · cases done

theorem mbdJobSignalReply_effects {sig : Int} {ok : Bool} (expected : ok = true → AtHost m n j)
    (permitted : ok = true → ∀ job, m.jobs j = some job →
      (isStopSignal sig = true → permits m job (.stopped n)) ∧
        (sig = sigCont → permits m job (.continued n)))
    (done : mbdJobSignalReply m n j sig ok = some m') : Effects conf permits m m' := by
  unfold mbdJobSignalReply at done
  split at done
  · cases done
    exact .refl
  next job found =>
    split at done
    next delivered =>
      have left : job.listId ≠ .pend := by
        intro pending
        rcases expected delivered job found with ⟨onRun, _⟩ | ⟨final, _⟩
        · rw [pending] at onRun
          cases onRun
        · rw [pending] at final
          cases final
      have host : ∀ (f : HostData → HostData) (h : HostName),
          atHost n f h (m.hosts h) (Function.update m.hosts n (f (m.hosts n)) h) := by
        intro f h
        unfold atHost
        by_cases same : h = n
        · subst same
          simp
        · simp [same]
      obtain ⟨mayStop, mayContinue⟩ := permitted delivered job found
      split at done
      next isStop =>
        obtain ⟨q, ofQueue, done⟩ := bind_eq_some_iff.mp done
        cases done
        exact (Effect.stopped left ofQueue (mayStop isStop) ((((Change.start found).setJob
          { job with state := .suspended } rfl rfl).modifyQueue q countStopped).setHosts
            (atHost n hostStopped) (host hostStopped))).single
      · split at done
        next isCont =>
          obtain ⟨q, ofQueue, done⟩ := bind_eq_some_iff.mp done
          cases done
          exact (Effect.continued left ofQueue (mayContinue isCont) ((((Change.start found).setJob
            { job with state := .running } rfl rfl).modifyQueue q countResumed).setHosts
              (atHost n hostResumed) (host hostResumed))).single
        · cases done
          exact .refl
    next =>
      cases done
      exact .refl

theorem mbdJobMissing_effects (wf : Wf conf m) (expected : RunsAt m n j)
    (permitted : ∀ job, m.jobs j = some job → permits m job .released)
    (done : mbdJobMissing conf m now n j = some m') : Effects conf permits m m' := by
  unfold mbdJobMissing at done
  split at done
  · cases done
    exact .refl
  next job found =>
    split at done
    · cases done
      exact .refl
    · split at done
      · cases done
        exact .refl
      · split at done
        next dispatched =>
          obtain ⟨onRun, isFirst⟩ := expected job found
          obtain ⟨q, ofQueue, done⟩ := bind_eq_some_iff.mp done
          obtain ⟨m₁, reset, done⟩ := bind_eq_some_iff.mp done
          obtain ⟨hosts, rfl, relates⟩ :=
            resetHostResources_spec ((wf.job found).running onRun).hosts_nodup reset
          cases done
          exact (Effect.release onRun isFirst dispatched ofQueue (Or.inr rfl) (Or.inl rfl)
            (permitted job found) ((((((Change.start found).setHosts (hostsReset job) relates).setPools _).modifyQueue q
              (countReleased job)).toPending (backToPending job) rfl rfl onRun).log
                (.jobPend j now))).single
        next =>
          cases done
          exact .refl

end

/-! ### The cycle -/

variable {conf : Conf} {m : MbdState} {j : JobId} {job : JobData} {queue : QueueName}
  {plan : List HostName}

theorem mem_usable {h : HostName} {candidates : List HostName}
    (member : h ∈ candidates.filter fun h =>
      conf.queueHasHost queue h && hostMeetsRequirements conf m job h) :
    conf.queueHasHost queue h = true ∧ hostMeetsRequirements conf m job h = true :=
  Bool.and_eq_true_iff.mp (mem_filter.mp member).2

theorem buildHostPlanMachines_spec (wf : JobWf conf j job) (asked : job.res.machines.length > 0)
    (built : buildHostPlanMachines conf m job queue = some plan) :
    PlanFor conf m job queue plan := by
  unfold buildHostPlanMachines at built
  simp only at built
  split at built
  · cases built
  next enough =>
    split at built
    · cases built
    · cases built
      have order := conf.hashOrder_perm job.res.machines
      have kept := (filter_sublist (p := fun h =>
        conf.queueHasHost queue h && hostMeetsRequirements conf m job h)
        (l := conf.hashOrder job.res.machines))
      refine ⟨kept.nodup (order.nodup_iff.mpr wf.machines), ?_, ?_, ?_⟩
      · have upper := kept.length_le
        rw [order.length_eq] at upper
        rw [wf.machineCount (ne_nil_of_length_pos asked)]
        exact congrArg Nat.cast (Nat.le_antisymm upper (Nat.not_lt.mp enough))
      · exact fun h member => (mem_usable member).1
      · exact fun h member => (mem_usable member).2

theorem buildHostPlan_spec {first : HostName} (wf : JobWf conf j job)
    (built : buildHostPlan conf m job queue = some plan) (isFirst : plan.head? = some first) :
    PlanFor conf m job queue plan := by
  unfold buildHostPlan at built
  split at built
  next asked => exact buildHostPlanMachines_spec wf asked built
  next =>
    simp only at built
    split at built
    · cases built
    next enough =>
      split at built
      · cases built
      · cases built
        have order := conf.qsortHosts_perm (hostPlanCmp m) (conf.hostNames.filter fun h =>
          conf.queueHasHost queue h && hostMeetsRequirements conf m job h)
        have kept := take_sublist job.res.numHosts.toNat (conf.qsortHosts (hostPlanCmp m)
          (conf.hostNames.filter fun h =>
            conf.queueHasHost queue h && hostMeetsRequirements conf m job h))
        refine ⟨kept.nodup (order.nodup_iff.mpr (conf.hosts_nodup.filter _)), ?_, ?_, ?_⟩
        · -- a negative count takes no host, and then there is no first one
          have positive : 0 < job.res.numHosts := by
            by_contra negative
            rw [Int.toNat_of_nonpos (Int.not_lt.mp negative)] at isFirst
            cases isFirst
          rw [length_take, order.length_eq]
          omega
        · exact fun h member => (mem_usable (order.mem_iff.mp (kept.subset member))).1
        · exact fun h member => (mem_usable (order.mem_iff.mp (kept.subset member))).2

variable {permits : Permit} {m' m₁ : MbdState} {job' : JobData}
  {onHost : HostChange} {onQueue : QueueChange} {pools : PoolName → Int} {records : List Event}
  {sent : Outbox} {now : Time} {first : HostName} {gpus : List GpuId} {freeSlots : Int}
  {turn : Turn} {sendOk : JobId → Bool}

theorem assignDevices_spec {job₁ : JobData}
    (change : Change m m' j job job' hostsKept onQueue pools records sent)
    (assigned : assignDevices m' j job' first = some (m₁, job₁)) :
    ∃ gpus text, AssignedOn m' job' first gpus text ∧ job₁ = { job' with gpuAssigned := text } ∧
      Change m m₁ j job { job' with gpuAssigned := text }
        (fun h a b => b = hostsAssigned first gpus h a) onQueue pools records sent := by
  unfold assignDevices at assigned
  have kept : m'.hosts = m.hosts := funext change.hosts
  split at assigned
  next asked =>
    obtain ⟨⟨gpus, text⟩, built, done⟩ := bind_eq_some_iff.mp assigned
    cases done
    refine ⟨gpus, text, ?_, rfl, ?_⟩
    · rw [AssignedOn, if_pos asked]
      exact built
    · have relates : ∀ h, update m'.hosts first { m'.hosts first with gpus := gpus } h =
          hostsAssigned first gpus h (m.hosts h) := by
        intro h
        unfold hostsAssigned
        by_cases same : h = first
        · subst same
          rw [if_pos rfl, update_self, kept]
        · rw [if_neg same, update_of_ne same, kept]
      exact (change.setHosts (fun h a b => b = hostsAssigned first gpus h a)
        relates).setJob { job' with gpuAssigned := text } change.request rfl
  next unasked =>
    cases assigned
    refine ⟨(m'.hosts first).gpus, job'.gpuAssigned, ?_, rfl, ?_⟩
    · rw [AssignedOn, if_neg unasked]
      exact ⟨rfl, rfl⟩
    · refine { change with hosts := fun h => ?_ }
      unfold hostsAssigned
      by_cases same : h = first
      · subst same
        rw [if_pos rfl, kept]
      · rw [if_neg same, kept]

theorem hostUpdateResources_spec (distinct : job'.hosts.Nodup)
    (change : Change m m' j job job' (fun h a b => b = hostsAssigned first gpus h a) onQueue
      pools records sent) (charged : hostUpdateResources m' job' = some m₁) :
    Change m m₁ j job job' (hostsCharged job' first gpus) onQueue pools records sent := by
  obtain ⟨hosts, updated, done⟩ := bind_eq_some_iff.mp charged
  cases done
  obtain ⟨listed, others⟩ := updateEach_spec distinct updated
  refine change.setHosts (hostsCharged job' first gpus) fun h => ?_
  unfold hostsCharged
  by_cases member : h ∈ job'.hosts
  · rw [if_pos member, ← change.hosts h]
    exact (Option.some.inj (listed h member)).symm
  · rw [if_neg member, ← change.hosts h]
    exact others h member

theorem startPlanned_sent (wf : JobWf conf j job) (found : m.jobs j = some job)
    (pending : job.listId = .pend) (built : buildHostPlan conf m job queue = some plan)
    (done : startPlanned conf m now j job queue plan true freeSlots = some turn) :
    ∃ first gpus text, plan.head? = some first ∧ PlanFor conf m job queue plan ∧
      AssignedOn m job first gpus text ∧ Change m turn.state j job (dispatchedJob job plan text now)
        (hostsCharged (dispatchedJob job plan text now) first gpus)
        (atQueue queue (countDispatched (dispatchedJob job plan text now)))
        (changeTokens conf (-1) job.res.tokens m.pools)
        [eventJobStart (dispatchedJob job plan text now)]
        [(first, .newJob (wireJobStart (dispatchedJob job plan text now) queue))] := by
  obtain ⟨⟨m₁, outcome⟩, dispatched, done⟩ := bind_eq_some_iff.mp done
  obtain ⟨first, isFirst, dispatched⟩ := bind_eq_some_iff.mp dispatched
  have planned := buildHostPlan_spec wf built isFirst
  split at dispatched
  · cases dispatched
  · obtain ⟨⟨m₂, job₂⟩, assigned, dispatched⟩ := bind_eq_some_iff.mp dispatched
    have written := (Change.start found).setJob (plannedJob job plan) rfl rfl
    obtain ⟨gpus, text, devices, rfl, change⟩ := assignDevices_spec written assigned
    cases dispatched
    obtain ⟨m₃, charged, done⟩ := bind_eq_some_iff.mp done
    cases done
    have moved := (((change.send first (.newJob (wireJobStart (dispatchedJob job plan text now)
      queue))).log (eventJobStart (dispatchedJob job plan text now))).toRunning
        { plannedJob job plan with
          gpuAssigned := text
          dispatchTime := now
          state := .running } (dispatchedJob job plan text now) rfl rfl rfl pending)
    have distinct : (dispatchedJob job plan text now).hosts.Nodup :=
      planned.distinct.sublist (take_sublist _ _)
    have hosted := hostUpdateResources_spec distinct moved charged
    have complete := (hosted.setPools
      (changeTokens conf (-1) job.res.tokens m₃.pools)).modifyQueue queue
        (countDispatched (dispatchedJob job plan text now))
    have charge : changeTokens conf (-1) job.res.tokens m₃.pools =
        changeTokens conf (-1) job.res.tokens m.pools := by
      rw [hosted.pools]
    exact ⟨first, gpus, text, isFirst, planned, devices,
      { complete with pools := complete.pools.trans charge }⟩

theorem assignDevices_isSome
    (devices : 0 < job.res.numGpus → job.res.numGpus.toNat ≤ (m.hosts first).gpus.length) :
    ∃ m₁ text, assignDevices m j job first = some (m₁, { job with gpuAssigned := text }) := by
  unfold assignDevices
  split
  next asked =>
    rw [buildGpuAssignedStr, if_pos (devices asked)]
    exact ⟨_, _, rfl⟩
  next => exact ⟨m, job.gpuAssigned, rfl⟩

theorem startPlanned_isSome {sendOk : Bool} (isFirst : plan.head? = some first)
    (linked : 0 < (m.hosts first).sbdChan)
    (devices : 0 < job.res.numGpus → job.res.numGpus.toNat ≤ (m.hosts first).gpus.length)
    (distinct : plan.Nodup) :
    ∃ turn, startPlanned conf m now j job queue plan sendOk freeSlots = some turn := by
  have unlinked : ¬ ((m.setJob j (plannedJob job plan)).hosts first).sbdChan ≤ 0 :=
    Int.not_le.mpr linked
  have head : (plannedJob job plan).runHosts.head? = some first := isFirst
  obtain ⟨m₁, text, assigned⟩ : ∃ m₁ text, assignDevices (m.setJob j (plannedJob job plan)) j
      (plannedJob job plan) first = some (m₁, { plannedJob job plan with gpuAssigned := text }) :=
    assignDevices_isSome devices
  rw [← isSome_iff_exists]
  change ((mbdDispatchJob (m.setJob j (plannedJob job plan)) now j (plannedJob job plan) queue
    sendOk).bind _).isSome = true
  rw [mbdDispatchJob, head]
  simp only [bind_eq_bind, bind_some, if_neg unlinked, assigned]
  cases sendOk with
  | false => rfl
  | true =>
    have hosts : (dispatchedJob job plan text now).hosts = plan := take_length
    have charged (table : HostName → HostData) : ∃ result, updateEach (fun h =>
        some (chargeHost (dispatchedJob job plan text now) h))
          (dispatchedJob job plan text now).hosts table = some result :=
      updateEach_isSome (hosts.symm ▸ distinct) fun _ _ => rfl
    simp only [if_true, bind_some]
    change ((hostUpdateResources _ (dispatchedJob job plan text now)).bind _).isSome = true
    rw [hostUpdateResources]
    obtain ⟨result, updated⟩ := charged _
    rw [updated]
    rfl

theorem startPlanned_effect {sendOk : Bool} (wf : Wf conf m) (found : m.jobs j = some job)
    (pending : job.listId = .pend) (ready : job.state = .pending) (ofQueue : job.queue = some queue)
    (clock : 0 < now) (tokens : tokensAvailable conf m job = true)
    (built : buildHostPlan conf m job queue = some plan)
    (unsent : sendOk = false → permits m job .unsent)
    (done : startPlanned conf m now j job queue plan sendOk freeSlots = some turn) :
    Effect conf permits m turn.state ∧ ∃ job', turn.state.jobs = update m.jobs j job' := by
  cases sendOk with
  | true =>
    obtain ⟨first, gpus, text, isFirst, planned, devices, change⟩ :=
      startPlanned_sent (wf.job found) found pending built done
    exact ⟨.dispatch pending ready ofQueue clock planned isFirst tokens devices change, _,
      change.jobs⟩
  | false =>
    obtain ⟨⟨m₁, outcome⟩, dispatched, done⟩ := bind_eq_some_iff.mp done
    obtain ⟨first, isFirst, dispatched⟩ := bind_eq_some_iff.mp dispatched
    have planned := buildHostPlan_spec (wf.job found) built isFirst
    split at dispatched
    · cases dispatched
    · obtain ⟨⟨m₂, job₂⟩, assigned, dispatched⟩ := bind_eq_some_iff.mp dispatched
      have written := (Change.start found).setJob (plannedJob job plan) rfl rfl
      obtain ⟨gpus, text, devices, rfl, change⟩ := assignDevices_spec written assigned
      cases dispatched
      cases done
      exact ⟨.stranded pending planned isFirst devices (unsent rfl) change, _, change.jobs⟩

theorem scheduleJob_effect (wf : Wf conf m) (clock : 0 < now) (pending : j ∈ m.pend)
    (unsent : sendOk j = false → ∀ job, m.jobs j = some job → permits m job .unsent)
    (done : scheduleJob conf now sendOk m j freeSlots = some turn) :
    Effect conf permits m turn.state ∧ ∃ job', turn.state.jobs = update m.jobs j job' := by
  obtain ⟨job, found, done⟩ := bind_eq_some_iff.mp done
  obtain ⟨job', found', onPend⟩ := (wf.listed .pend j).mp pending
  cases Option.some.inj (found.symm.trans found')
  have noted : ∀ reason, Effect conf permits m (notePending m j job reason) ∧
      ∃ job', (notePending m j job reason).jobs = update m.jobs j job' := fun reason =>
    have change := (Change.start found).setJob { job with pendReason := reason } rfl rfl
    ⟨.note onPend change, _, change.jobs⟩
  split at done
  · cases done
    exact noted _
  next isReady =>
    obtain ⟨queue, ofQueue, done⟩ := bind_eq_some_iff.mp done
    have ready : job.state = .pending := by
      simp [jobIsReady] at isReady
      exact isReady.1
    split at done
    · cases done
      exact noted _
    · split at done
      · cases done
        exact noted _
      next tokens =>
        obtain ⟨satisfied, _, done⟩ := bind_eq_some_iff.mp done
        split at done
        · cases done
          exact noted _
        · split at done
          · cases done
            exact noted _
          next plan built =>
            exact startPlanned_effect wf found onPend ready ofQueue clock
              (by simpa using tokens) built (fun lost => unsent lost job found) done

theorem scheduleLoop_effects (clock : 0 < now)
    (unsent : ∀ m j job, sendOk j = false → m.jobs j = some job → permits m job .unsent)
    {waiting : List JobId} (wf : Wf conf m) (distinct : waiting.Nodup)
    (pending : ∀ j ∈ waiting, j ∈ m.pend)
    (done : scheduleLoop conf now sendOk waiting m freeSlots = some m') :
    Effects conf permits m m' := by
  induction waiting generalizing m m' freeSlots with
  | nil =>
    cases done
    exact .refl
  | cons j rest ih =>
    obtain ⟨fresh, distinct⟩ := nodup_cons.mp distinct
    obtain ⟨turn, turned, done⟩ := bind_eq_some_iff.mp done
    have one : Effect conf permits m turn.state ∧ ∃ job', turn.state.jobs = update m.jobs j job' :=
      scheduleJob_effect wf clock (pending j mem_cons_self)
        (fun lost job found => unsent m j job lost found) turned
    obtain ⟨effect, job', others⟩ := one
    split at done
    · cases done
      exact effect.single
    · have wf' := effect.wf wf
      refine effect.single.trans (ih wf' distinct (fun k member => ?_) done)
      have other : k ≠ j := fun same => fresh (same ▸ member)
      obtain ⟨job, found, onPend⟩ :=
        (wf.listed .pend k).mp (pending k (mem_cons_of_mem j member))
      refine (wf'.listed .pend k).mpr ⟨job, ?_, onPend⟩
      rw [others, update_of_ne other]
      exact found

theorem Frame.refl (m : MbdState) : Frame m m where
  jobs := rfl
  pend := List.Perm.refl _
  run := rfl
  finish := rfl
  hosts := fun _ => rfl
  queues := fun _ => rfl
  pools := rfl
  manifest := rfl
  outbox := rfl
  jobIdSeq := Int.le_refl _
  seqFile := rfl
  holds := rfl
  elements := rfl

theorem schedule_effects (wf : Wf conf m) (clock : 0 < now)
    (unsent : ∀ m j job, sendOk j = false → m.jobs j = some job → permits m job .unsent)
    (done : schedule conf m now sendOk = some m') : Effects conf permits m m' := by
  unfold schedule at done
  split at done
  · cases done
    exact .refl
  · have marked : Frame m (markCandidates conf m).1 :=
      { Frame.refl m with hosts := fun _ => rfl }
    simp only at done
    split at done
    · cases done
      exact (Effect.frame marked).single
    · split at done
      · cases done
      · have order := conf.qsort_perm (pendJobCmp conf (markCandidates conf m).1) m.pend
        have sorted : Effect conf permits m { (markCandidates conf m).1 with
            pend := conf.qsort (pendJobCmp conf (markCandidates conf m).1) m.pend } :=
          .frame { marked with pend := order }
        have wf' := sorted.wf wf
        exact sorted.single.trans
          (scheduleLoop_effects clock unsent wf' (wf'.distinct .pend) (fun _ member => member)
            done)

theorem maybeRebuildManifest_effects (permitted : ∀ m job, permits m job .compacted)
    (done : maybeRebuildManifest conf m = some m') : Effects conf permits m m' := by
  unfold maybeRebuildManifest at done
  split at done
  · cases done
    exact .refl
  · exact (Effect.compact (permitted m) done).single

/-! ### Hosts and queues -/

variable {n : HostName}

theorem Frame.modifyHost {f : HostData → HostData} (same : ∀ a, SameAccount a (f a)) :
    Frame m (m.modifyHost n f) :=
  { Frame.refl m with
    hosts := fun h => by
      change SameAccount (m.hosts h) (update m.hosts n (f (m.hosts n)) h)
      by_cases isHost : h = n
      · subst isHost
        rw [update_self]
        exact same _
      · rw [update_of_ne isHost]
        exact Eq.refl _ }

theorem mbdSbdDisconnect_frame : Frame m (mbdSbdDisconnect m n) :=
  Frame.modifyHost fun _ => rfl

theorem hostAdmin_frame {uid : Nat} {close : Bool} : Frame m (hostAdmin conf m uid n close).1 := by
  unfold hostAdmin
  split
  · exact Frame.refl m
  · split
    · exact Frame.refl m
    · have closed : Frame m (m.modifyHost n fun host =>
          { host with status := { host.status with closed := close } }) :=
        Frame.modifyHost fun _ => rfl
      exact { closed with }

theorem queueAdmin_frame {uid : Nat} {q : QueueName} {close : Bool} :
    Frame m (queueAdmin conf m uid q close).1 := by
  unfold queueAdmin
  split
  · exact Frame.refl m
  · split
    · exact Frame.refl m
    · refine { Frame.refl m with queues := fun q' => ?_ }
      change SameCount (m.queues q')
        (update m.queues q { m.queues q with closed := close } q')
      by_cases isQueue : q' = q
      · subst isQueue
        rw [update_self]
        exact Eq.refl _
      · rw [update_of_ne isQueue]
        exact Eq.refl _

end LavaLite.Mbd
