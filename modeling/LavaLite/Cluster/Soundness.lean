import LavaLite.Mbd.Restart
import LavaLite.Cluster.Exchange

/-
Every state of a run is sound: the tables of mbd agree with its lists and with
its manifest, and mbd and the sbds agree about every job.  A step of the system
moves mbd by effects, by a registration or by a restart.
-/

namespace LavaLite.Cluster

open Base Batch Mbd Sbd Kernel List Option
open Function (update update_eq_self update_of_ne update_self)

structure Sound (conf : Conf) (s : System) : Prop where
  wf : Wf conf s.mbd
  recoverable : Recoverable conf s.mbd
  saved : IdsSaved s.mbd
  idle : s.mbd.outbox = []
  linked : ∀ h, HostLink s.mbd h (s.links h) (s.sbds h)

/-- What a restriction on reports and requests asks of a step. -/
def Allows (permits : Permit) (s : System) : Label → Prop
  | .mbdRead h _ _ => ∀ msg rest, (s.links h).fromSbd = msg :: rest → Permitted permits s.mbd h msg
  | .timer _ sendOk => ∀ m j job, sendOk j = false → m.jobs j = some job → permits m job .unsent
  | .move _ _ j target => ∀ job, s.mbd.jobs j = some job → permits s.mbd job (.moved target)
  | .priority _ uid j _ => ∀ job, s.mbd.jobs j = some job → permits s.mbd job (.ranked uid)
  | _ => True

def mayRead (permits : Permit) [∀ m job report, Decidable (permits m job report)] (s : System) :
    Label → Bool
  | .mbdRead h _ _ =>
    match (s.links h).fromSbd with
    | [] => true
    | msg :: _ => decide (Permitted permits s.mbd h msg)
  | .move _ _ j target => (s.mbd.jobs j).all fun job => decide (permits s.mbd job (.moved target))
  | .priority _ uid j _ => (s.mbd.jobs j).all fun job => decide (permits s.mbd job (.ranked uid))
  | _ => true

theorem allows_of_mayRead {permits : Permit} [∀ m job report, Decidable (permits m job report)]
    {s : System} {label : Label} (sends : label.Sends ∨ ∀ m job, permits m job .unsent)
    (checked : mayRead permits s label = true) : Allows permits s label := by
  cases label with
  | mbdRead =>
    intro msg rest next
    simp only [mayRead, next] at checked
    exact of_decide_eq_true checked
  | timer =>
    intro m j job unsent _
    rcases sends with sends | permitted
    · exact absurd unsent (by rw [sends j]; decide)
    · exact permitted m job
  | move | priority =>
    intro job found
    simp only [mayRead, found, all_some] at checked
    exact of_decide_eq_true checked
  | _ => trivial

inductive MbdMoves (conf : Conf) (permits : Permit) (m m' : MbdState) : Label → Prop where
  | acts {label : Label} {m₁ : MbdState} (effects : Effects conf permits m m₁)
      (result : m' = { m₁ with outbox := [] }) : MbdMoves conf permits m m' label
  | registers {env : SubmitEnv} {uid gid : Nat} {request : WireJobSubmit} {m₁ : MbdState}
      (taken : Registers conf (normalizeSubmit conf request) m m₁)
      (result : m' = { m₁ with outbox := [] }) :
      MbdMoves conf permits m m' (.submit env uid gid request)
  | restarts {kept : HostName → Nat} (taken : recover conf m = some m') :
      MbdMoves conf permits m m' (.mbdRestart kept)

variable {conf : Conf} {permits : Permit} {m m' : MbdState} {h : HostName} {link : Link}
  {sbd : SbdState} {msg : SbdMsg} {rest : List SbdMsg} {now : Time} {ackOk : Bool}

theorem HostLink.expects (linked : HostLink m h link sbd) (next : link.fromSbd = msg :: rest) :
    Expects m h msg := by
  have member : msg ∈ link.reports := by
    unfold Link.reports
    rw [next]
    exact mem_cons_self
  have here : ∀ {j}, answers j msg = true → AtHost m h j := by
    intro j about
    rcases (linked.job j).answered msg member about with held | past
    · exact (linked.job j).held held
    · exact fun job found => Or.inr (past job found)
  cases msg with
  | newJobReply j pid => exact here (decide_eq_true rfl)
  | newJobReject j | jobMissing j => exact ((linked.job j).refused _ member (decide_eq_true rfl)).1
  | jobFinish j success exitStatus =>
    have about : answers j (.jobFinish j success exitStatus) = true := decide_eq_true rfl
    exact ⟨here about, (linked.job j).finished _ member (decide_eq_true rfl),
      (linked.job j).saved (Or.inr (Or.inl ⟨_, member, Or.inl about⟩))⟩
  | signalReply j sig ok =>
    intro delivered
    subst delivered
    exact here (by simp [answers])

theorem mbdHandle_effects (wf : Wf conf m) (clock : 0 < now) (expected : Expects m h msg)
    (permitted : Permitted permits m h msg)
    (done : mbdHandle conf m h now ackOk msg = some m') : Effects conf permits m m' := by
  cases msg with
  | newJobReply j pid => exact mbdNewJobReply_effects clock expected permitted done
  | newJobReject j => exact mbdNewJobReject_effects wf permitted done
  | jobFinish j success exitStatus =>
    exact mbdJobFinish_effects clock wf expected.1 expected.2.1 expected.2.2 permitted done
  | signalReply j sig ok => exact mbdJobSignalReply_effects expected permitted done
  | jobMissing j => exact mbdJobMissing_effects wf expected permitted done

theorem HostLink.popped (linked : HostLink m h link sbd) (next : link.fromSbd = msg :: rest) :
    HostLink m h { link with fromSbd := rest } sbd := by
  refine linked.lose prefix_rfl ?_ (fun _ member => member) linked.fresh
  unfold Link.reports
  rw [next]
  exact sublist_cons_self _ _

theorem HostLink.unclaimed {j : JobId} (linked : HostLink m h link sbd)
    (next : link.fromSbd = msg :: rest) (refusal : refuses j msg = true) :
    ({ link with fromSbd := rest } : Link).claims j = 0 := by
  have once := (linked.job j).once
  unfold Link.reports at once
  rw [next, cons_append, countP_cons, if_pos refusal] at once
  unfold Link.claims Link.reports
  dsimp only
  omega

theorem HostLink.permitted {links : HostName → Link} {sbds : HostName → SbdState}
    (wf : Wf conf m) (idle : m.outbox = []) (linked : HostLink m h link (sbds h))
    (next : link.fromSbd = msg :: rest) (popped : links h = { link with fromSbd := rest }) :
    Permitted (linkPermit links sbds) m h msg := by
  have member : msg ∈ link.reports := by
    unfold Link.reports
    rw [next]
    exact mem_cons_self
  have refused : ∀ {j job}, refuses j msg = true → m.jobs j = some job →
      linkPermit links sbds m job .released := by
    intro j job refusal found n first
    obtain ⟨runs, notHeld⟩ := (linked.job j).refused msg member refusal
    have here : n = h := Option.some.inj (first.symm.trans (runs job found).2)
    subst here
    rw [(wf.job found).id, idle]
    refine ⟨notHeld, ?_⟩
    change (links n).claims j = 0
    rw [popped]
    exact linked.unclaimed next refusal
  cases msg with
  | newJobReply j pid => exact fun _ _ => trivial
  | newJobReject j | jobMissing j => exact fun job found => refused (decide_eq_true rfl) found
  | jobFinish j success exitStatus =>
    intro job found running n first
    rcases (linked.job j).answered _ member (decide_eq_true rfl) with held | past
    · rcases (linked.job j).held held job found with ⟨_, here⟩ | ⟨final, _⟩
      · rw [← Option.some.inj (here.symm.trans first), (wf.job found).id]
        exact held
      · exact absurd (running.symm.trans final) (by decide)
    · exact absurd (running.symm.trans (past job found).1) (by decide)
  | signalReply j sig ok => exact fun _ _ _ => ⟨fun _ => trivial, fun _ => trivial⟩

variable {s s' : System} {label : Label} {links : HostName → Link} {sbds : HostName → SbdState}

theorem outbox_eq (idle : m.outbox = []) : m = { m with outbox := [] } := by
  rw [← idle]

theorem mbdSbdRegister_spec {chan : Int} (done : mbdSbdRegister conf m h chan = some m') :
    ∃ bound, Frame m bound ∧ m' = bound.send h (.registerAck (buildSbdRunList bound h)) := by
  unfold mbdSbdRegister at done
  split at done
  · cases done
  · split at done
    · cases done
    · cases done
      refine ⟨m.modifyHost h fun host =>
        { host with
          sbdChan := chan
          status := { host.status with unavail := false } }, Frame.modifyHost fun _ => rfl, rfl⟩

def Label.Manages : Label → Prop
  | .signal .. | .move .. | .priority .. | .hostAdmin .. | .queueAdmin .. => True
  | _ => False

theorem Label.Manages.allows (kind : label.Manages) (moves : ∀ m job q, permits m job (.moved q))
    (ranks : ∀ m job uid, permits m job (.ranked uid)) : Allows permits s label := by
  cases label with
  | move => exact fun _ _ => moves _ _ _
  | priority => exact fun _ _ => ranks _ _ _
  | signal | hostAdmin | queueAdmin => trivial
  | _ => cases kind

/-- What a step does, by the kind of its label. -/
inductive Proceeds (conf : Conf) (s : System) : Label → System → Prop where
  | submits {env : SubmitEnv} {uid gid : Nat} {request : WireJobSubmit} {m : MbdState}
      (taken : Registers conf (normalizeSubmit conf request) s.mbd m) :
      Proceeds conf s (.submit env uid gid request) (afterMbd s m)
  | manages {label : Label} {m : MbdState} (kind : label.Manages)
      (effects : ∀ permits, Allows permits s label → Effects conf permits s.mbd m) :
      Proceeds conf s label (afterMbd s m)
  | ticks {now : Time} {sendOk : JobId → Bool} {m m' : MbdState} (clock : 0 < now)
      (scheduled : schedule conf s.mbd now sendOk = some m)
      (rebuilt : maybeRebuildManifest conf m = some m') :
      Proceeds conf s (.timer now sendOk) (afterMbd s m')
  | connects {h : HostName} (down : (s.links h).side = .down) :
      Proceeds conf s (.connect h)
        (s.setLink h { s.links h with side := .fresh, queued := [], toSbd := [] })
  | rejects {h : HostName} {chan : Int} (fresh : (s.links h).side = .fresh) :
      Proceeds conf s (.register h chan) (s.setLink h { s.links h with side := .dead, queued := [] })
  | joins {h : HostName} {chan : Int} {bound : MbdState} (fresh : (s.links h).side = .fresh)
      (framed : Frame s.mbd bound) :
      Proceeds conf s (.register h chan) (afterMbd
        (s.setLink h
          { s.links h with
            side := .joined
            fromSbd := (s.links h).queued
            queued := [] }) (bound.send h (.registerAck (buildSbdRunList bound h))))
  | reads {h : HostName} {now : Time} {ackOk : Bool} {msg : SbdMsg} {rest : List SbdMsg}
      {m : MbdState} (next : (s.links h).fromSbd = msg :: rest) (clock : 0 < now)
      (done : mbdHandle conf s.mbd h now ackOk msg = some m) :
      Proceeds conf s (.mbdRead h now ackOk)
        (afterMbd (s.setLink h { s.links h with fromSbd := rest }) m)
  | drops {h : HostName} {kept : Nat} :
      Proceeds conf s (.mbdDrop h kept)
        { s.setLink h ((s.links h).closedByMbd kept) with mbd := mbdSbdDisconnect s.mbd h }
  | obeys {h : HostName} {outcome : StartOutcome} {delivered : Bool} {msg : MbdMsg}
      {rest : List MbdMsg} {sbd : SbdState} {sent : List SbdMsg}
      (next : (s.links h).toSbd = msg :: rest)
      (done : sbdHandle (s.sbds h) msg outcome delivered = some (sbd, sent)) :
      Proceeds conf s (.sbdRead h outcome delivered)
        ((s.setSbd h sbd).setLink h (sendFromSbd { s.links h with toSbd := rest } sent))
  | hangsUp {h : HostName} {kept : Nat} :
      Proceeds conf s (.sbdDrop h kept)
        ((s.setSbd h (sbdMbdLinkDown (s.sbds h))).setLink h ((s.links h).closedBySbd kept))
  | reloads {h : HostName} {kept : Nat} :
      Proceeds conf s (.sbdRestart h kept)
        ((s.setSbd h (sbdJobStateLoadAll (s.sbds h))).setLink h ((s.links h).closedBySbd kept))
  | exits {h : HostName} {j : JobId} {status : Int} :
      Proceeds conf s (.jobExit h j status) (s.setSbd h (jobExited (s.sbds h) j status))
  | resends {h : HostName} {j : JobId} {sent : List SbdMsg}
      (done : jobNewDrive (s.sbds h) j = some sent) :
      Proceeds conf s (.resendReply h j) (s.setLink h (sendFromSbd (s.links h) sent))
  | reports {h : HostName} {j : JobId} {sent : List SbdMsg}
      (done : jobFinishDrive (s.sbds h) j = some sent) :
      Proceeds conf s (.reportFinish h j) (s.setLink h (sendFromSbd (s.links h) sent))
  | restarts {kept : HostName → Nat} {m : MbdState}
      (replayed : jobsReplay conf s.mbd.marks s.mbd.manifest s.mbd.seqFile = some m) :
      Proceeds conf s (.mbdRestart kept)
        { s with
          mbd := m
          links := fun h => (s.links h).mbdGone (kept h) }

theorem proceeds_of_step (wf : Wf conf s.mbd) (taken : step conf s label = some s') :
    Proceeds conf s label s' := by
  cases label with
  | submit env uid gid request =>
    obtain ⟨_, taken⟩ := ite_none_right_eq_some.mp taken
    obtain ⟨⟨m, answer⟩, done, rfl⟩ := map_eq_some_iff.mp taken
    exact .submits (jobRegister_spec wf.idsCounted done)
  | signal now uid jobId arrayIndex sig sendOk =>
    obtain ⟨clock, taken⟩ := ite_none_right_eq_some.mp taken
    obtain ⟨⟨m, answer⟩, done, rfl⟩ := map_eq_some_iff.mp taken
    exact .manages trivial fun _ _ => (jobsSignal_requests clock wf done).effects
  | move now uid jobId toQueue =>
    obtain ⟨_, taken⟩ := ite_none_right_eq_some.mp taken
    obtain ⟨⟨m, answer⟩, done, rfl⟩ := map_eq_some_iff.mp taken
    exact .manages trivial fun _ allowed => (jobMove_requested wf allowed done).effects
  | priority now uid jobId value =>
    obtain ⟨_, taken⟩ := ite_none_right_eq_some.mp taken
    obtain ⟨⟨m, answer⟩, done, rfl⟩ := map_eq_some_iff.mp taken
    exact .manages trivial fun _ allowed => (jobPriority_requested wf allowed done).effects
  | hostAdmin uid host close =>
    cases taken
    exact .manages trivial fun _ _ => (Effect.frame hostAdmin_frame).single
  | queueAdmin uid queue close =>
    cases taken
    exact .manages trivial fun _ _ => (Effect.frame queueAdmin_frame).single
  | timer now sendOk =>
    obtain ⟨clock, taken⟩ := ite_none_right_eq_some.mp taken
    obtain ⟨m', done, rfl⟩ := map_eq_some_iff.mp taken
    obtain ⟨m, scheduled, rebuilt⟩ := bind_eq_some_iff.mp done
    exact .ticks clock scheduled rebuilt
  | connect h =>
    obtain ⟨down, taken⟩ := ite_none_right_eq_some.mp taken
    cases taken
    exact .connects down
  | register h chan =>
    obtain ⟨fresh, taken⟩ := ite_none_right_eq_some.mp taken
    split at taken
    · cases taken
      exact .rejects fresh.1
    next m done =>
      obtain ⟨bound, framed, rfl⟩ := mbdSbdRegister_spec done
      cases taken
      exact .joins fresh.1 framed
  | mbdRead h now ackOk =>
    simp only [step] at taken
    split at taken
    · cases taken
    next msg rest next =>
      obtain ⟨ready, taken⟩ := ite_none_right_eq_some.mp taken
      obtain ⟨m, done, rfl⟩ := map_eq_some_iff.mp taken
      exact .reads next ready.1 done
  | mbdDrop h kept =>
    obtain ⟨_, taken⟩ := ite_none_right_eq_some.mp taken
    cases taken
    exact .drops
  | sbdRead h outcome delivered =>
    simp only [step] at taken
    split at taken
    · cases taken
    next msg rest next =>
      obtain ⟨⟨sbd, sent⟩, done, rfl⟩ := map_eq_some_iff.mp taken
      exact .obeys next done
  | sbdDrop h kept =>
    obtain ⟨_, taken⟩ := ite_none_right_eq_some.mp taken
    cases taken
    exact .hangsUp
  | sbdRestart h kept =>
    cases taken
    exact .reloads
  | jobExit h j status =>
    cases taken
    exact .exits
  | resendReply h j =>
    obtain ⟨_, taken⟩ := ite_none_right_eq_some.mp taken
    obtain ⟨sent, done, rfl⟩ := map_eq_some_iff.mp taken
    exact .resends done
  | reportFinish h j =>
    obtain ⟨_, taken⟩ := ite_none_right_eq_some.mp taken
    obtain ⟨sent, done, rfl⟩ := map_eq_some_iff.mp taken
    exact .reports done
  | mbdRestart kept =>
    obtain ⟨m, replayed, rfl⟩ := map_eq_some_iff.mp taken
    exact .restarts replayed

theorem Sound.stays (sound : Sound conf s) : MbdMoves conf permits s.mbd s.mbd label :=
  .acts .refl (outbox_eq sound.idle)

theorem mbdMoves_of_step (sound : Sound conf s) (allowed : Allows permits s label)
    (compacts : ∀ m job, permits m job .compacted) (legible : label.Rereads s)
    (taken : step conf s label = some s') : MbdMoves conf permits s.mbd s'.mbd label := by
  cases proceeds_of_step sound.wf taken with
  | submits registered => exact .registers registered rfl
  | manages _ effects => exact .acts (effects permits allowed) rfl
  | ticks clock scheduled rebuilt =>
    exact .acts ((schedule_effects sound.wf clock allowed scheduled).trans
      (maybeRebuildManifest_effects compacts rebuilt)) rfl
  | joins _ framed => exact .acts (Effect.frame framed).single rfl
  | @reads h _ _ msg rest _ next clock done =>
    exact .acts (mbdHandle_effects sound.wf clock ((sound.linked h).expects next)
      (allowed msg rest next) done) rfl
  | @drops h kept =>
    have framed : Frame s.mbd (mbdSbdDisconnect s.mbd h) := mbdSbdDisconnect_frame
    exact .acts (Effect.frame framed).single (outbox_eq (framed.outbox.trans sound.idle))
  | restarts replayed => exact .restarts ((Legible.jobsReplay legible conf).symm.trans replayed)
  | connects | rejects | obeys | hangsUp | reloads | exits | resends | reports => exact sound.stays

theorem wf_clear (wf : Wf conf m) : Wf conf { m with outbox := [] } where
  toListed := wf.toListed.congr rfl fun id => by cases id <;> rfl
  job := wf.job
  ids := wf.ids
  saved := wf.saved

theorem MbdMoves.sound (moves : MbdMoves conf permits m m' label) (wf : Wf conf m)
    (recoverable : Recoverable conf m) (saved : IdsSaved m) :
    Wf conf m' ∧ Recoverable conf m' ∧ IdsSaved m' ∧ m'.outbox = [] := by
  cases moves with
  | acts effects result =>
    subst result
    exact ⟨wf_clear (effects.keeps (Wf conf) Effect.wf wf),
      (effects.keeps_of_wf (Recoverable conf) (fun wf sound effect => effect.recoverable sound wf)
        wf recoverable).congr rfl rfl,
      effects.keeps IdsSaved Effect.idsSaved saved, rfl⟩
  | registers taken result =>
    subst result
    exact ⟨wf_clear (taken.wf wf), (taken.recoverable recoverable).congr rfl rfl,
      taken.idsSaved wf saved, rfl⟩
  | restarts taken =>
    have restored := restored_of_recover wf recoverable saved taken
    exact ⟨restored.wf, restored.recoverable, restored.idsSaved saved, restored.outbox⟩

theorem HostLink.clear (linked : HostLink m h link sbd) :
    HostLink { m with outbox := [] } h link sbd :=
  linked.keep (fun _ => Or.inr (Or.inl (Follows.of_eq rfl))) (Int.le_refl _)

theorem linked_of_effects {m₁ : MbdState} (wf : Wf conf m) (saved : IdsSaved m)
    (idle : m.outbox = []) (linked : ∀ h, HostLink m h (links h) (sbds h))
    (effects : Effects conf (linkPermit links sbds) m m₁) (h : HostName) :
    HostLink { m₁ with outbox := [] } h (deliverAll links m₁.outbox h) (sbds h) := by
  have start : Linked links sbds m := by
    intro h
    rw [idle]
    exact linked h
  have both : IdsSaved m₁ ∧ Linked links sbds m₁ :=
    effects.keeps_of_wf (fun m => IdsSaved m ∧ Linked links sbds m)
      (fun wf both effect => ⟨effect.idsSaved both.1,
        linked_of_effect wf both.1 both.2 (fun _ _ _ may => may) effect⟩) wf ⟨saved, start⟩
  exact (both.2 h).clear

theorem linked_of_host (linked : ∀ h, HostLink m h (links h) (sbds h))
    (here : HostLink m h link sbd) (n : HostName) :
    HostLink m n (update links h link n) (update sbds h sbd n) := by
  by_cases same : n = h
  · subst same
    rw [update_self, update_self]
    exact here
  · rw [update_of_ne same, update_of_ne same]
    exact linked n

theorem linked_of_link (linked : ∀ h, HostLink m h (links h) (sbds h))
    (here : HostLink m h link (sbds h)) (n : HostName) :
    HostLink m n (update links h link n) (sbds n) := by
  have both := linked_of_host linked here n
  rwa [update_eq_self] at both

theorem reports_closedBySbd (link : Link) (kept : Nat) :
    (link.closedBySbd kept).reports.Sublist link.reports := by
  unfold Link.reports Link.closedBySbd
  dsimp only
  rw [append_nil]
  split
  · exact (take_sublist _ _).trans (sublist_append_left _ _)
  · exact sublist_append_left _ _

theorem HostLink.closedBySbd (linked : HostLink m h link sbd) (kept : Nat) :
    HostLink m h (link.closedBySbd kept) sbd :=
  linked.lose nil_prefix (reports_closedBySbd link kept) nofun fun _ => rfl

theorem HostLink.closedByMbd (linked : HostLink m h link sbd) (kept : Nat) :
    HostLink m h (link.closedByMbd kept) sbd := by
  unfold Link.closedByMbd
  split
  · exact linked.lose (List.take_prefix _ _) (sublist_append_right _ _) (fun _ member => member)
      nofun
  · exact linked.lose prefix_rfl (sublist_append_right _ _) (fun _ member => member)
      linked.fresh

theorem HostLink.mbdGone (linked : HostLink m h link sbd) (kept : Nat) :
    HostLink m h (link.mbdGone kept) sbd := by
  unfold Link.mbdGone
  split
  · exact linked.lose (List.take_prefix _ _) (sublist_append_right _ _) (fun _ member => member)
      nofun
  · exact linked.lose prefix_rfl (nil_sublist _) nofun nofun
  · exact linked.lose prefix_rfl (sublist_append_right _ _) (fun _ member => member)
      linked.fresh

theorem Restored.follows (restored : Restored conf m m') (j : JobId) : Follows m m' j := by
  intro replayed found
  obtain ⟨job, live, mirrored⟩ := restored.mirror found
  refine ⟨job, live, mirrored.listId, fun on => ?_, fun forked => ?_⟩
  · rw [(mirrored.running on).2.2.1]
  · have same : replayed.forkTime = job.forkTime := congrArg Core.forkTime mirrored.core
    rw [same]
    exact forked

theorem Sound.linked_register (sound : Sound conf s) {bound : MbdState}
    (isFresh : (s.links h).side = .fresh) (framed : Frame s.mbd bound) :
    let opened : System := s.setLink h
      { s.links h with side := .joined, fromSbd := (s.links h).queued, queued := [] }
    let answered := afterMbd opened (bound.send h (.registerAck (buildSbdRunList bound h)))
    ∀ n, HostLink answered.mbd n (answered.links n) (answered.sbds n) := by
  intro opened answered n
  have linked := sound.linked h
  have opens : HostLink s.mbd h (opened.links h) (s.sbds h) := by
    change HostLink s.mbd h (update s.links h _ h) (s.sbds h)
    rw [update_self]
    refine linked.lose prefix_rfl ?_ nofun nofun
    unfold Link.reports
    simp
  have follows : ∀ {n link sbd}, HostLink s.mbd n link sbd → HostLink bound n link sbd :=
    fun linked => linked.keep (fun j => Or.inr (Or.inl (Follows.of_eq (by rw [framed.jobs]))))
      (Int.le_of_eq framed.seqFile.symm)
  have queued : (bound.send h (.registerAck (buildSbdRunList bound h))).outbox =
      [(h, .registerAck (buildSbdRunList bound h))] := by
    change bound.outbox ++ _ = _
    rw [framed.outbox, sound.idle]
    rfl
  have links : answered.links =
      deliver opened.links h (.registerAck (buildSbdRunList bound h)) := by
    change deliverAll opened.links _ = _
    rw [queued]
    rfl
  have sent : HostLink bound n (answered.links n) (s.sbds n) := by
    rw [links, deliver_apply]
    have bindsWf : Listed bound := (framed.wf sound.wf).toListed
    have bindsIds : IdsSaved bound := by
      intro j job found
      rw [framed.jobs] at found
      rw [framed.seqFile]
      exact sound.saved found
    have shape : opened.links h =
        { s.links h with side := .joined, fromSbd := (s.links h).queued, queued := [] } :=
      update_self ..
    by_cases here : n = h
    · subst here
      rw [if_pos ⟨rfl, by rw [shape]⟩]
      refine (follows opens).register (by rw [shape]) ?_ ?_ bindsWf bindsIds
      · rw [shape]
        exact linked.fresh isFresh
      · rw [shape]
        intro j r member
        unfold Link.reports at member
        rw [append_nil] at member
        exact linked.queued j r member
    · rw [if_neg fun both => here both.1]
      have same : opened.links n = s.links n := update_of_ne here _ _
      rw [same]
      exact follows (sound.linked n)
  exact sent.keep (fun _ => Or.inr (Or.inl (Follows.of_eq rfl))) (Int.le_refl _)

theorem Sound.linked_step (sound : Sound conf s) (legible : label.Rereads s)
    (taken : step conf s label = some s') : ∀ h, HostLink s'.mbd h (s'.links h) (s'.sbds h) := by
  have wf := sound.wf
  have acts : ∀ {m₁ : MbdState}, Effects conf (linkPermit s.links s.sbds) s.mbd m₁ →
      ∀ h, HostLink (afterMbd s m₁).mbd h ((afterMbd s m₁).links h) ((afterMbd s m₁).sbds h) :=
    fun effects => linked_of_effects wf sound.saved sound.idle sound.linked effects
  cases proceeds_of_step wf taken with
  | submits registered =>
    have start : Linked s.links s.sbds s.mbd := by
      intro h
      rw [sound.idle]
      exact sound.linked h
    exact fun h => (linked_of_registers wf start registered h).clear
  | manages kind effects =>
    exact acts (effects _ (kind.allows (fun _ _ _ => trivial) fun _ _ _ => trivial))
  | ticks clock scheduled rebuilt =>
    exact acts ((schedule_effects wf clock (fun _ _ _ _ _ => trivial) scheduled).trans
      (maybeRebuildManifest_effects (fun _ _ => trivial) rebuilt))
  | @connects h _ =>
    exact linked_of_link sound.linked ((sound.linked h).lose nil_prefix
      (by unfold Link.reports; simp) nofun fun _ => rfl)
  | @rejects h chan _ =>
    refine linked_of_link sound.linked ((sound.linked h).lose prefix_rfl ?_ nofun nofun)
    unfold Link.reports
    simp
  | joins fresh framed => exact sound.linked_register fresh framed
  | @reads h _ _ msg rest _ next clock done =>
    have linked := sound.linked h
    have permitted : Permitted (linkPermit (update s.links h
        { s.links h with fromSbd := rest }) s.sbds) s.mbd h msg :=
      HostLink.permitted wf sound.idle linked next (update_self ..)
    exact linked_of_effects wf sound.saved sound.idle
      (linked_of_link sound.linked (linked.popped next))
      (mbdHandle_effects wf clock (linked.expects next) permitted done)
  | @drops h kept =>
    have framed : Frame s.mbd (mbdSbdDisconnect s.mbd h) := mbdSbdDisconnect_frame
    exact fun n => (linked_of_link sound.linked ((sound.linked h).closedByMbd kept) n).keep
      (fun j => Or.inr (Or.inl (Follows.of_eq (by rw [framed.jobs]))))
      (Int.le_of_eq framed.seqFile.symm)
  | @obeys h _ _ _ _ _ _ next done =>
    exact linked_of_host sound.linked ((sound.linked h).read next done)
  | @hangsUp h kept =>
    exact linked_of_host sound.linked ((sound.linked h).closedBySbd kept).linkDown
  | @reloads h kept =>
    exact linked_of_host sound.linked ((sound.linked h).closedBySbd kept).loadAll
  | @exits h j status =>
    intro n
    have here : HostLink s.mbd h (s.links h) (jobExited (s.sbds h) j status) :=
      (sound.linked h).exited
    have both := linked_of_host sound.linked here n
    rwa [update_eq_self] at both
  | @resends h _ _ done => exact linked_of_link sound.linked ((sound.linked h).resend done)
  | @reports h _ _ done => exact linked_of_link sound.linked ((sound.linked h).reportFinish done)
  | @restarts kept _ replayed =>
    have restored := restored_of_recover wf sound.recoverable sound.saved
      ((Legible.jobsReplay legible conf).symm.trans replayed)
    exact fun h => ((sound.linked h).mbdGone (kept h)).keep
      (fun j => Or.inr (Or.inl (Restored.follows restored j))) (Int.le_of_eq restored.seqFile.symm)

theorem allows_anyReport (s : System) (label : Label) : Allows anyReport s label := by
  cases label with
  | mbdRead h now ackOk =>
    intro msg rest _
    cases msg <;> simp [Permitted, anyReport]
  | _ => first | trivial | exact fun _ _ _ _ _ => trivial | exact fun _ _ => trivial

theorem Sound.step (sound : Sound conf s) (legible : label.Rereads s)
    (taken : Cluster.step conf s label = some s') : Sound conf s' := by
  have moves := mbdMoves_of_step sound (allows_anyReport s label) (fun _ _ => trivial) legible
    taken
  obtain ⟨wf, recoverable, saved, idle⟩ := moves.sound sound.wf sound.recoverable sound.saved
  exact ⟨wf, recoverable, saved, idle, sound.linked_step legible taken⟩

/-! ### Runs -/

variable {guard : System → Label → Prop} {t : System}

theorem sound_initial (conf : Conf) : Sound conf (initial conf) where
  wf :=
    { toListed := (initialState_blank conf _ [] 0).listed
      job := nofun
      ids := nofun
      saved := ⟨Int.le_refl 0, Int.le_refl 0⟩ }
  recoverable :=
    { mirror := nofun
      listed := by
        intro start result blank done
        cases done
        exact blank.listed }
  saved := nofun
  idle := rfl
  linked := by
    intro h
    have silent : ∀ j, ¬ Mentions Link.none { jobs := [] } j := by
      rintro j (⟨_, member, _⟩ | ⟨_, member, _⟩ | ⟨_, member, _⟩) <;> cases member
    exact ⟨fun j => JobLink.of_silent (silent j), nodup_nil, nofun, nofun, nofun, nofun⟩

theorem initial_everyJob (conf : Conf) (asks : Request → Prop) : EveryJob asks (initial conf).mbd :=
  fun _ job found => absurd found (some_ne_none job).symm

theorem Sound.restored (sound : Sound conf s) (replayed : recover conf s.mbd = some m) :
    Restored conf s.mbd m :=
  restored_of_recover sound.wf sound.recoverable sound.saved replayed

theorem Sound.steps (sound : Sound conf s) (run : Leads conf (Legibly guard) s t) : Sound conf t :=
  Steps.invariant (Sound conf) sound (fun sound may taken => sound.step may.2 taken) run

theorem Reachable.sound (reached : Reachable conf (Legibly guard) s) : Sound conf s :=
  (sound_initial conf).steps reached

theorem Reachable.legibly (noRestart : ∀ s label, guard s label → label.NoRestart)
    (reached : Reachable conf guard s) : Reachable conf (Legibly guard) s := by
  refine Steps.mono (fun s label may => ⟨may, ?_⟩) reached
  have quiet := noRestart s label may
  cases label with
  | mbdRestart kept => exact absurd quiet id
  | _ => trivial

/--
What every kind of move of mbd keeps, under the restrictions the guard puts on
reports, submissions and restarts, holds of mbd wherever a run from a sound state
leads.
-/
theorem Sound.mbd_invariant (holds : MbdState → Prop)
    (allowed : ∀ {s label}, guard s label → Allows permits s label) (start : holds s.mbd)
    (acted : ∀ {m m' : MbdState}, Wf conf m → holds m → Effect conf permits m m' → holds m')
    (registered : ∀ {s : System} {env : SubmitEnv} {uid gid : Nat} {request : WireJobSubmit}
      {m' : MbdState}, guard s (.submit env uid gid request) → Wf conf s.mbd → holds s.mbd →
      Registers conf (normalizeSubmit conf request) s.mbd m' → holds m')
    (restarted : ∀ {s : System} {kept : HostName → Nat} {m' : MbdState},
      guard s (.mbdRestart kept) → Sound conf s → holds s.mbd →
      recover conf s.mbd = some m' → holds m')
    (cleared : ∀ {m : MbdState}, holds m → holds { m with outbox := [] }) (sound : Sound conf s)
    (run : Leads conf (Legibly guard) s t)
    (compacts : ∀ m job, permits m job .compacted := by exact fun _ _ => trivial) :
    holds t.mbd := by
  refine Steps.invariant_over (Sound conf) (fun s => holds s.mbd) sound.steps start ?_ run
  intro s s' label sound held may taken
  cases mbdMoves_of_step sound (allowed may.1) compacts may.2 taken with
  | acts effects result =>
    rw [result]
    exact cleared (effects.keeps_of_wf holds acted sound.wf held)
  | registers done result =>
    rw [result]
    exact cleared (registered may.1 sound.wf held done)
  | restarts done => exact restarted may.1 sound held done

end LavaLite.Cluster
