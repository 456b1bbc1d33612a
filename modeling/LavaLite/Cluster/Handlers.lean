import LavaLite.Cluster.System
import LavaLite.Mbd.Acting

/-
Which handler of mbd a step of the system runs.  Nothing is assumed of the state, so this
also serves for states that a start under a new configuration has made.
-/

namespace LavaLite.Cluster

open Base Batch Mbd Sbd Option

def reportJob : SbdMsg → JobId
  | .newJobReply j _ | .newJobReject j | .jobFinish j _ _ | .signalReply j _ _ | .jobMissing j => j

theorem mbdHandle_acts {conf : Conf} {m m' : MbdState} {h : HostName} {now : Time} {ackOk : Bool}
    {msg : SbdMsg} (done : mbdHandle conf m h now ackOk msg = some m') :
    Acts (reportJob msg) m m' := by
  cases msg with
  | newJobReply j pid => exact mbdNewJobReply_acts done
  | newJobReject j => exact mbdNewJobReject_acts done
  | jobFinish j success exitStatus => exact mbdJobFinish_acts done
  | signalReply j sig ok => exact mbdJobSignalReply_acts done
  | jobMissing j => exact mbdJobMissing_acts done

/-- What a step makes of the hosts as registrations and administrators see them. -/
def presenceStep (conf : Conf) (p : HostName → Presence) : Label → HostName → Presence
  | .hostAdmin uid h close =>
    if conf.isManager uid = true ∧ (conf.findHost h).isSome then
      Function.update p h { p h with status := { (p h).status with closed := close }, marked := close }
    else p
  | .register h chan =>
    if (conf.findHost h).isSome ∧ (p h).chan = -1 then
      Function.update p h { p h with chan := chan, status := { (p h).status with unavail := false } }
    else p
  | .mbdDrop h _ =>
    Function.update p h { p h with chan := -1, status := { (p h).status with unavail := true } }
  | .mbdRestart _ => fun h =>
    { p h with chan := -1, status := ⟨readBack (fun h => (p h).marked) h, true⟩ }
  | _ => p

variable {conf : Conf} {m m' : MbdState} {h : HostName} {chan : Int}

theorem hostAdmin_presence {uid : Nat} {close : Bool} : (hostAdmin conf m uid h close).1.presence =
      presenceStep conf m.presence (.hostAdmin uid h close) := by
  simp only [hostAdmin, presenceStep]
  cases conf.isManager uid with
  | false => simp
  | true =>
    cases conf.findHost h with
    | none => simp
    | some hc =>
      funext n
      by_cases same : n = h
      · subst same
        simp [MbdState.presence, MbdState.modifyHost]
      · simp [MbdState.presence, MbdState.modifyHost, Function.update_of_ne same]

theorem mbdSbdRegister_presence (registered : mbdSbdRegister conf m h chan = some m') :
    m'.presence = presenceStep conf m.presence (.register h chan) := by
  unfold mbdSbdRegister at registered
  split at registered
  · cases registered
  next known =>
    split at registered
    · cases registered
    next free =>
      cases registered
      have unbound : (m.presence h).chan = -1 := Decidable.not_not.mp free
      rw [presenceStep, known, if_pos ⟨rfl, unbound⟩, presence_send]
      exact presence_modifyHost ..

theorem mbdSbdRegister_refused (refused : mbdSbdRegister conf m h chan = none) :
    m.presence = presenceStep conf m.presence (.register h chan) := by
  unfold mbdSbdRegister at refused
  simp only [presenceStep]
  split at refused
  next unknown => simp [unknown]
  · split at refused
    next bound => exact (if_neg fun free => bound free.2).symm
    · cases refused

/-- What a step makes of mbd, apart from the messages it sends. -/
inductive Handles (conf : Conf) (s : System) : Label → MbdState → Prop where
  | submit {env : SubmitEnv} {uid gid : Nat} {request : WireJobSubmit} {m : MbdState}
      {reply : Except Status JobId}
      (done : jobRegister conf env s.mbd uid gid request = some (m, reply)) :
      Handles conf s (.submit env uid gid request) m
  | signal {now : Time} {uid : Nat} {jobId : JobId} {arrayIndex sig : Int} {sendOk : JobId → Bool}
      {m : MbdState} {status : Status}
      (done : jobsSignal conf s.mbd now uid jobId arrayIndex sig sendOk = some (m, status)) :
      Handles conf s (.signal now uid jobId arrayIndex sig sendOk) m
  | move {now : Time} {uid : Nat} {jobId : JobId} {toQueue : QueueName} {m : MbdState}
      {status : Status} (done : jobMove conf s.mbd now uid jobId toQueue = some (m, status)) :
      Handles conf s (.move now uid jobId toQueue) m
  | priority {now : Time} {uid : Nat} {jobId : JobId} {value : Int} {m : MbdState}
      {status : Status} (done : jobPriority conf s.mbd now uid jobId value = some (m, status)) :
      Handles conf s (.priority now uid jobId value) m
  | timer {now : Time} {sendOk : JobId → Bool} {m : MbdState}
      (done : mbdTimer conf s.mbd now sendOk = some m) : Handles conf s (.timer now sendOk) m
  | read {h : HostName} {now : Time} {ackOk : Bool} {msg : SbdMsg} {rest : List SbdMsg} {m : MbdState}
      (head : (s.links h).fromSbd = msg :: rest)
      (done : mbdHandle conf s.mbd h now ackOk msg = some m) : Handles conf s (.mbdRead h now ackOk) m
  | restart {kept : HostName → Nat} {m : MbdState}
      (done : jobsReplay conf s.mbd.marks s.mbd.manifest s.mbd.seqFile = some m) :
      Handles conf s (.mbdRestart kept) m
  /-- No job is touched. -/
  | other {label : Label} {m : MbdState} (touches : ∀ i, Touches i s.mbd m)
      (presence : m.presence = presenceStep conf s.mbd.presence label) : Handles conf s label m

theorem step_handles {s s' : System} {label : Label} (taken : step conf s label = some s') :
    ∃ m, Handles conf s label m ∧ ∃ outbox, s'.mbd = { m with outbox := outbox } := by
  have idle : ∀ {m : MbdState}, m = s.mbd →
      s.mbd.presence = presenceStep conf s.mbd.presence label →
      ∃ m', Handles conf s label m' ∧ ∃ outbox, m = { m' with outbox := outbox } := by
    intro m same unmoved
    exact ⟨s.mbd, .other (fun i => (Acts.refl i _).toTouches) unmoved, s.mbd.outbox, same⟩
  cases label with
  | submit env uid gid request =>
    obtain ⟨_, taken⟩ := ite_none_right_eq_some.mp taken
    obtain ⟨⟨m, reply⟩, done, rfl⟩ := map_eq_some_iff.mp taken
    exact ⟨m, .submit done, [], rfl⟩
  | signal now uid jobId arrayIndex sig sendOk =>
    obtain ⟨_, taken⟩ := ite_none_right_eq_some.mp taken
    obtain ⟨⟨m, status⟩, done, rfl⟩ := map_eq_some_iff.mp taken
    exact ⟨m, .signal done, [], rfl⟩
  | move now uid jobId toQueue =>
    obtain ⟨_, taken⟩ := ite_none_right_eq_some.mp taken
    obtain ⟨⟨m, status⟩, done, rfl⟩ := map_eq_some_iff.mp taken
    exact ⟨m, .move done, [], rfl⟩
  | priority now uid jobId value =>
    obtain ⟨_, taken⟩ := ite_none_right_eq_some.mp taken
    obtain ⟨⟨m, status⟩, done, rfl⟩ := map_eq_some_iff.mp taken
    exact ⟨m, .priority done, [], rfl⟩
  | hostAdmin uid host close =>
    cases taken
    exact ⟨_, .other (fun i => hostAdmin_touches) hostAdmin_presence, [], rfl⟩
  | queueAdmin uid queue close =>
    cases taken
    exact ⟨_, .other (fun i => queueAdmin_acts.toTouches) (queueAdmin_acts (i := 0)).presence, [], rfl⟩
  | timer now sendOk =>
    obtain ⟨_, taken⟩ := ite_none_right_eq_some.mp taken
    obtain ⟨m, done, rfl⟩ := map_eq_some_iff.mp taken
    exact ⟨m, .timer done, [], rfl⟩
  | register h chan =>
    simp only [step] at taken
    split at taken
    · split at taken
      next refused =>
        cases taken
        exact idle rfl (mbdSbdRegister_refused refused)
      next m registered =>
        cases taken
        exact ⟨m, .other (fun i => mbdSbdRegister_touches registered)
          (mbdSbdRegister_presence registered), [], rfl⟩
    · cases taken
  | mbdRead h now ackOk =>
    simp only [step] at taken
    split at taken
    · cases taken
    next msg rest head =>
      split at taken
      · obtain ⟨m, done, rfl⟩ := map_eq_some_iff.mp taken
        exact ⟨m, .read head done, [], rfl⟩
      · cases taken
  | mbdDrop h kept =>
    obtain ⟨_, taken⟩ := ite_none_right_eq_some.mp taken
    cases taken
    exact ⟨mbdSbdDisconnect s.mbd h, .other (fun i => .of_kept rfl (fun _ => rfl) rfl rfl rfl)
      (presence_modifyHost ..), s.mbd.outbox, rfl⟩
  | mbdRestart kept =>
    obtain ⟨m, done, rfl⟩ := map_eq_some_iff.mp taken
    exact ⟨m, .restart done, m.outbox, rfl⟩
  | sbdRead h outcome delivered =>
    simp only [step] at taken
    split at taken
    · cases taken
    · obtain ⟨sent, _, rfl⟩ := map_eq_some_iff.mp taken
      exact idle rfl rfl
  | sbdRestart h kept | jobExit h j status =>
    cases taken
    exact idle rfl rfl
  | connect h | sbdDrop h kept =>
    obtain ⟨_, taken⟩ := ite_none_right_eq_some.mp taken
    cases taken
    exact idle rfl rfl
  | resendReply h j | reportFinish h j =>
    obtain ⟨_, taken⟩ := ite_none_right_eq_some.mp taken
    obtain ⟨sent, _, rfl⟩ := map_eq_some_iff.mp taken
    exact idle rfl rfl

end LavaLite.Cluster
