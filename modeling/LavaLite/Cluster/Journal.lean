import LavaLite.Mbd.Journal
import LavaLite.Sbd.StateFile
import LavaLite.Cluster.Recovery

/-
Runs together with the records the handlers wrote in them.  Across lost messages and restarts
a job has at most one holder, the one its history names, and leaves it only after its end was
written, which happens once.
-/

namespace LavaLite.Cluster

open Base Batch Mbd Sbd Kernel Function List

/-! ### Runs with a journal -/

/-- The system, the archives of its manifest, and every record a handler wrote. -/
structure Logged where
  system : System
  archives : List Event
  told : List Event

def Logged.history (r : Logged) : List Event :=
  r.archives ++ r.system.mbd.manifest

def manifestWritten (conf : Conf) (s s' : System) : Label → List Event
  | .timer now sendOk =>
    match schedule conf s.mbd now sendOk with
    | some m => m.manifest
    | none => s'.mbd.manifest
  | _ => s'.mbd.manifest

def manifestArchived (conf : Conf) (s : System) : Label → List Event
  | .timer now sendOk =>
    match schedule conf s.mbd now sendOk with
    | some m => if (m.finish.length : Int) < conf.finishThreshold then [] else m.manifest
    | none => []
  | _ => []

def loggedStep (conf : Conf) (r : Logged) (label : Label) : Option Logged :=
  (step conf r.system label).map fun s' =>
    { system := s'
      archives := r.archives ++ manifestArchived conf r.system label
      told := r.told ++ (manifestWritten conf r.system s' label).drop r.system.mbd.manifest.length }

def loggedInitial (conf : Conf) : Logged :=
  { system := initial conf
    archives := []
    told := [] }

def LoggedRun (conf : Conf) (guard : System → Label → Prop) : Logged → Prop :=
  Steps (loggedStep conf) (fun r label => guard r.system label) (loggedInitial conf)

/-! ### The moves of a system -/

/-- The sbd has the job, or is about to be told to start it. -/
def Speaks (link : Link) (sbd : SbdState) (j : JobId) : Prop :=
  Held sbd j ∨ ∃ msg ∈ link.toSbd, starts j msg = true

/-- What happens at one host while mbd does nothing about its jobs. -/
structure Settled (link link' : Link) (sbd sbd' : SbdState) (j : JobId) : Prop where
  speaks : Speaks link' sbd' j → Speaks link sbd j
  keeps : Held sbd j → Held sbd' j ∨ ∃ msg ∈ link.toSbd, releases j msg = true
  orders : ∀ start, .newJob start ∈ link'.toSbd → .newJob start ∈ link.toSbd

inductive Moves (conf : Conf) (s : System) (label : Label) : System → Prop where
  /-- A handler of mbd runs, after its message was taken from the connection. -/
  | acts {links : HostName → Link} {m : MbdState}
      (shown : ∀ h, (links h).toSbd = (s.links h).toSbd)
      (linked : ∀ h, HostLink s.mbd h (links h) (s.sbds h))
      (effects : Effects conf (uncompacted (linkPermit links s.sbds)) s.mbd m)
      (kept : manifestArchived conf s label = [])
      (written : ∀ s', s'.mbd.manifest = m.manifest → manifestWritten conf s s' label = m.manifest) :
      Moves conf s label (afterMbd { s with links := links } m)
  /-- The scheduler runs and the manifest is compacted. -/
  | compacts {m m' : MbdState}
      (scheduled : ∃ now sendOk, label = .timer now sendOk ∧
        schedule conf s.mbd now sendOk = some m ∧ conf.finishThreshold ≤ m.finish.length)
      (effects : Effects conf (uncompacted (linkPermit s.links s.sbds)) s.mbd m)
      (compacted : manifestRebuild m = some m')
      (kept : manifestArchived conf s label = m.manifest)
      (written : ∀ s', manifestWritten conf s s' label = m.manifest) :
      Moves conf s label (afterMbd s m')
  | registers {ws : WireJobSubmit} {m : MbdState} (taken : Registers conf ws s.mbd m)
      (kept : manifestArchived conf s label = [])
      (written : ∀ s', s'.mbd.manifest = m.manifest → manifestWritten conf s s' label = m.manifest) :
      Moves conf s label (afterMbd s m)
  | restarts {kept : HostName → Nat} {m : MbdState} (isRestart : label = .mbdRestart kept)
      (restored : Restored conf s.mbd m) :
      Moves conf s label
        { s with
          mbd := m
          links := fun h => (s.links h).mbdGone (kept h) }
  /-- Something happens at an sbd or at a connection. -/
  | settles {s' : System} (jobs : s'.mbd.jobs = s.mbd.jobs)
      (manifest : s'.mbd.manifest = s.mbd.manifest) (seqFile : s'.mbd.seqFile = s.mbd.seqFile)
      (settled : ∀ h j, Settled (s.links h) (s'.links h) (s.sbds h) (s'.sbds h) j)
      (kept : manifestArchived conf s label = [])
      (written : manifestWritten conf s s' label = s'.mbd.manifest) :
      Moves conf s label s'

variable {conf : Conf} {s s' : System} {label : Label} {h : HostName} {j : JobId} {m : MbdState}
  {msg : MbdMsg} {links : HostName → Link} {sbds : HostName → SbdState} {link : Link}
  {sbd sbd' : SbdState}

theorem Permitted.uncompacted {permits : Permit} {msg : SbdMsg}
    (permitted : Permitted permits m h msg) : Permitted (uncompacted permits) m h msg := by
  cases msg with
  | newJobReply i pid | newJobReject i | jobFinish i success exitStatus | jobMissing i =>
    exact fun job found => ⟨nofun, permitted job found⟩
  | signalReply i sig ok =>
    exact fun delivered job found =>
      ⟨fun stop => ⟨nofun, (permitted delivered job found).1 stop⟩,
        fun cont => ⟨nofun, (permitted delivered job found).2 cont⟩⟩

theorem settled_of_host (here : ∀ j, Settled (links h) link (sbds h) sbd j) (n : HostName)
    (j : JobId) : Settled (links n) (update links h link n) (sbds n) (update sbds h sbd n) j := by
  by_cases same : n = h
  · subst same
    rw [update_self, update_self]
    exact here j
  · rw [update_of_ne same, update_of_ne same]
    exact ⟨id, Or.inl, fun _ => id⟩

theorem settled_of_link (here : ∀ j, Settled (links h) link (sbds h) (sbds h) j) (n : HostName)
    (j : JobId) : Settled (links n) (update links h link n) (sbds n) (sbds n) j := by
  have both := settled_of_host here n j
  rwa [update_eq_self] at both

theorem Settled.lose {link' : Link} (orders : link'.toSbd <+: link.toSbd)
    (held : Held sbd' j ↔ Held sbd j) : Settled link link' sbd sbd' j := by
  refine ⟨?_, fun holds => Or.inl (held.mpr holds), fun _ member => orders.subset member⟩
  rintro (holds | ⟨msg, member, starting⟩)
  · exact Or.inl (held.mp holds)
  · exact Or.inr ⟨msg, orders.subset member, starting⟩

theorem Settled.say (sent : List SbdMsg) : Settled link (sendFromSbd link sent) sbd sbd j := by
  have same : (sendFromSbd link sent).toSbd = link.toSbd := toSbd_sendFromSbd ..
  exact .lose (same ▸ prefix_rfl) Iff.rfl

theorem toSbd_closedByMbd (link : Link) (kept : Nat) :
    (link.closedByMbd kept).toSbd <+: link.toSbd := by
  unfold Link.closedByMbd
  split
  · exact take_prefix _ _
  · exact prefix_rfl

theorem toSbd_mbdGone (link : Link) (kept : Nat) : (link.mbdGone kept).toSbd <+: link.toSbd := by
  unfold Link.mbdGone
  split
  · exact take_prefix _ _
  · exact prefix_rfl
  · exact prefix_rfl

theorem Settled.read {rest : List MbdMsg} {sent : List SbdMsg} (orders : link.toSbd = msg :: rest)
    (handled : Handled m sbd sbd' j msg sent) :
    Settled link (sendFromSbd { link with toSbd := rest } sent) sbd sbd' j := by
  have first : msg ∈ link.toSbd := by
    rw [orders]
    exact mem_cons_self
  constructor
  · rintro (held | ⟨order, member, starting⟩)
    · exact (handled.gained held).imp id fun starting => ⟨msg, first, starting⟩
    · rw [toSbd_sendFromSbd] at member
      exact Or.inr ⟨order, by rw [orders]; exact mem_cons_of_mem _ member, starting⟩
  · exact fun held => (handled.lost held).imp id fun releasing => ⟨msg, first, releasing⟩
  · intro start member
    rw [toSbd_sendFromSbd] at member
    rw [orders]
    exact mem_cons_of_mem _ member

theorem mem_deliverAll {n : HostName} {outbox : Outbox}
    (member : msg ∈ (deliverAll links outbox n).toSbd) :
    msg ∈ (links n).toSbd ∨ (n, msg) ∈ outbox := by
  induction outbox generalizing links with
  | nil => exact Or.inl member
  | cons entry outbox ih =>
    rcases ih member with before | later
    · change msg ∈ (deliver links entry.1 entry.2 n).toSbd at before
      rw [deliver_apply] at before
      split at before
      next here =>
        rcases mem_append.mp before with old | new
        · exact Or.inl old
        · rw [mem_singleton.mp new, here.1]
          exact Or.inr mem_cons_self
      next => exact Or.inl before
    · exact Or.inr (mem_cons_of_mem _ later)

theorem Sound.settled_register (sound : Sound conf s) {bound : MbdState}
    (framed : Frame s.mbd bound) (orders : link.toSbd = (s.links h).toSbd) (n : HostName)
    (j : JobId) : Settled (s.links n) ((afterMbd (s.setLink h link)
      (bound.send h (.registerAck (buildSbdRunList bound h)))).links n) (s.sbds n) (s.sbds n)
      j := by
  have queued : (bound.send h (.registerAck (buildSbdRunList bound h))).outbox =
      [(h, .registerAck (buildSbdRunList bound h))] := by
    change bound.outbox ++ _ = _
    rw [framed.outbox, sound.idle]
    rfl
  have old : ∀ start, .newJob start ∈ ((afterMbd (s.setLink h link)
      (bound.send h (.registerAck (buildSbdRunList bound h)))).links n).toSbd →
      .newJob start ∈ (s.links n).toSbd := by
    intro start member
    rcases mem_deliverAll member with old | new
    · change .newJob start ∈ (update s.links h link n).toSbd at old
      by_cases same : n = h
      · subst same
        rwa [update_self, orders] at old
      · rwa [update_of_ne same] at old
    · rw [queued] at new
      cases mem_singleton.mp new
  refine ⟨?_, Or.inl, old⟩
  rintro (held | ⟨msg, member, starting⟩)
  · exact Or.inl held
  · cases msg with
    | newJob start => exact Or.inr ⟨_, old start member, starting⟩
    | newJobReplyAck | jobFinishAck | jobSignal | registerAck => cases starting

theorem Sound.moves (sound : Sound conf s) (legible : label.Rereads s)
    (taken : Cluster.step conf s label = some s') : Moves conf s label s' := by
  have wf := sound.wf
  cases proceeds_of_step wf taken with
  | submits registered => exact .registers registered rfl fun _ same => same
  | manages kind effects =>
    have allowed : Allows (uncompacted (linkPermit s.links s.sbds)) s label :=
      kind.allows (fun _ _ _ => ⟨nofun, trivial⟩) fun _ _ _ => ⟨nofun, trivial⟩
    refine .acts (fun _ => rfl) sound.linked (effects _ allowed) ?_ fun _ same =>
      Eq.trans ?_ same
    all_goals
      revert kind
      cases label <;> first | exact fun _ => rfl | exact nofun
  | @ticks now sendOk m _ clock scheduled rebuilt =>
    have effects : Effects conf (uncompacted (linkPermit s.links s.sbds)) s.mbd m :=
      schedule_effects wf clock (fun _ _ _ _ _ => ⟨nofun, trivial⟩) scheduled
    unfold maybeRebuildManifest at rebuilt
    split at rebuilt
    next few =>
      cases rebuilt
      refine .acts (fun _ => rfl) sound.linked effects ?_ fun s' _ => ?_
      · simp only [manifestArchived, scheduled, if_pos few]
      · simp only [manifestWritten, scheduled]
    next many =>
      refine .compacts ⟨now, sendOk, rfl, scheduled, Int.not_lt.mp many⟩ effects rebuilt ?_ fun s' => ?_
      · simp only [manifestArchived, scheduled, if_neg many]
      · simp only [manifestWritten, scheduled]
  | @reads h _ _ msg rest m next clock done =>
    have linked := sound.linked h
    have permitted : Permitted (linkPermit (update s.links h
        { s.links h with fromSbd := rest }) s.sbds) s.mbd h msg :=
      HostLink.permitted wf sound.idle linked next (update_self ..)
    refine .acts (fun n => ?_) (linked_of_link sound.linked (linked.popped next))
      (mbdHandle_effects wf clock (linked.expects next) (Permitted.uncompacted permitted) done)
      rfl fun _ same => same
    by_cases same : n = h
    · subst same
      rw [update_self]
    · rw [update_of_ne same]
  | connects =>
    exact .settles rfl rfl rfl (settled_of_link fun _ => .lose nil_prefix Iff.rfl) rfl rfl
  | rejects =>
    exact .settles rfl rfl rfl (settled_of_link fun _ => .lose prefix_rfl Iff.rfl) rfl rfl
  | joins _ framed =>
    exact .settles framed.jobs framed.manifest framed.seqFile
      (sound.settled_register framed rfl) rfl rfl
  | @drops h kept =>
    have framed : Frame s.mbd (mbdSbdDisconnect s.mbd h) := mbdSbdDisconnect_frame
    exact .settles framed.jobs framed.manifest framed.seqFile
      (settled_of_link fun _ => .lose (toSbd_closedByMbd _ _) Iff.rfl) rfl rfl
  | @obeys h _ _ _ _ _ _ next done =>
    have handled := ((sound.linked h).handled next done).1
    exact .settles rfl rfl rfl (settled_of_host fun i => .read next (handled i)) rfl rfl
  | hangsUp =>
    exact .settles rfl rfl rfl
      (settled_of_host fun _ => .lose nil_prefix held_linkDown) rfl rfl
  | reloads =>
    exact .settles rfl rfl rfl
      (settled_of_host fun _ => .lose nil_prefix held_loadAll) rfl rfl
  | @exits h j status =>
    refine .settles rfl rfl rfl (fun n i => ?_) rfl rfl
    have here : ∀ i, Settled (s.links h) (s.links h) (s.sbds h) (jobExited (s.sbds h) j status) i :=
      fun _ => .lose prefix_rfl held_exited
    have both := settled_of_host here n i
    rwa [update_eq_self] at both
  | @resends _ _ sent _ | @reports _ _ sent _ =>
    exact .settles rfl rfl rfl (settled_of_link fun _ => .say sent) rfl rfl
  | restarts replayed =>
    exact .restarts rfl (sound.restored ((Legible.jobsReplay legible conf).symm.trans replayed))

/-! ### The holders of a job -/

/-- Whoever has a job, or is about to be told to start it, is where the journal puts it. -/
def Posted (told : List Event) (links : HostName → Link) (sbds : HostName → SbdState) : Prop :=
  ∀ h j, Speaks (links h) (sbds h) j → lastPlace told j = some h

structure Telling (links : HostName → Link) (sbds : HostName → SbdState) (told : List Event)
    (m : MbdState) : Prop where
  saved : IdsSaved m
  linked : Linked links sbds m
  attests : Attests told m
  posted : Posted told (deliverAll links m.outbox) sbds

variable {permits : Permit} {m' : MbdState} {told records : List Event}

def StartsKnown (m : MbdState) (msg : MbdMsg) : Prop :=
  ∀ start, msg = .newJob start → ∃ job, m.jobs start.jobId = some job ∧ start.uid = job.uid ∧
    start.gid = job.gid ∧ start.username = job.user

theorem StartsKnown.isSome (known : StartsKnown m msg) (starting : starts j msg = true) :
    (m.jobs j).isSome = true := by
  cases msg with
  | newJob start =>
    obtain ⟨job, found, _⟩ := known start rfl
    rw [← (of_decide_eq_true starting : start.jobId = j), found]
    rfl
  | newJobReplyAck | jobFinishAck | jobSignal | registerAck => cases starting

theorem Effect.sends (wf : Wf conf m) (effect : Effect conf permits m m') :
    ∃ sent, m'.outbox = m.outbox ++ sent ∧ ∀ entry ∈ sent, StartsKnown m' entry.2 := by
  have single : ∀ {n : HostName} {msg : MbdMsg}, (∀ start, msg ≠ .newJob start) →
      ∀ entry ∈ [(n, msg)], StartsKnown m' entry.2 :=
    fun quiet => forall_mem_singleton.mpr fun start same => absurd same (quiet start)
  cases effect with
  | frame framed =>
    exact ⟨[], framed.outbox.trans (append_nil _).symm, forall_mem_nil _⟩
  | ackReply _ _ sends | ackFinish _ _ sends =>
    subst sends
    exact ⟨_, rfl, single nofun⟩
  | dispatch _ _ _ _ _ _ _ _ change =>
    refine ⟨_, change.outbox, forall_mem_singleton.mpr fun start same => ?_⟩
    cases same
    refine ⟨_, ?_, rfl, rfl, rfl⟩
    rw [← change.jobs_self]
    exact congrArg _ (wf.job change.found).id
  | signalSent _ _ change | fork _ _ _ _ _ change | finish _ _ _ _ _ _ _ change =>
    exact ⟨_, change.outbox, single nofun⟩
  | release _ _ _ _ _ acks _ change =>
    rcases acks with rfl | rfl
    · exact ⟨_, change.outbox, forall_mem_nil _⟩
    · exact ⟨_, change.outbox, single nofun⟩
  | note _ change | hold _ _ _ change | unhold _ _ _ change | stopped _ _ _ change
  | continued _ _ _ change | priority _ _ change | kill _ _ _ _ change | move _ _ _ _ _ change
  | stranded _ _ _ _ _ change =>
    exact ⟨_, change.outbox, forall_mem_nil _⟩
  | compact _ compacted =>
    obtain ⟨_, _, rfl⟩ := manifestRebuild_spec compacted
    exact ⟨[], (append_nil _).symm, forall_mem_nil _⟩

theorem Telling.effect (telling : Telling links sbds told m) (wf : Wf conf m)
    (effect : Effect conf (uncompacted (linkPermit links sbds)) m m') :
    ∃ records, Journaled m m' records ∧ Telling links sbds (told ++ records) m' := by
  obtain ⟨records, journaled⟩ := effect.journaled wf
  obtain ⟨sent, outbox, known⟩ := Effect.sends wf effect
  have wf' := effect.wf wf
  have attests := telling.attests.journaled telling.saved journaled
  have linked := linked_of_effect wf telling.saved telling.linked (fun _ _ _ may => may.2) effect
  refine ⟨records, journaled, effect.idsSaved telling.saved, linked, attests, fun h j speaks => ?_⟩
  -- a job mbd does not know any more, or knows as finished, is where it was before
  have before : Speaks (deliverAll links m.outbox h) (sbds h) j →
      (∀ job, m'.jobs j = some job → job.listId = .finish) →
      lastPlace (told ++ records) j = some h := by
    intro spoke past
    rcases journaled.place told j with same | ⟨job, found, open_⟩
    · exact same.trans (telling.posted h j spoke)
    · exact absurd (past job found) open_
  have running : ∀ {job}, m'.jobs j = some job → job.listId = .run → job.runHosts.head? = some h →
      lastPlace (told ++ records) j = some h := fun found run first =>
    (attests.running wf' found run).trans first
  rcases speaks with held | ⟨msg, member, starting⟩
  · cases found : m'.jobs j with
    | none => exact before (Or.inl held) fun job known => by rw [found] at known; cases known
    | some job =>
      rcases ((linked h).job j).held held job found with ⟨run, first⟩ | ⟨past, _⟩
      · exact running found run first
      · refine before (Or.inl held) fun other known => ?_
        rw [found] at known
        cases known
        exact past
  · cases found : m'.jobs j with
    | none =>
      rw [outbox, deliverAll_append] at member
      rcases mem_deliverAll member with old | new
      · exact before (Or.inr ⟨msg, old, starting⟩) fun job known => by
          rw [found] at known
          cases known
      · have there := (known _ new).isSome starting
        rw [found] at there
        cases there
    | some job =>
      obtain ⟨run, first⟩ := (((linked h).job j).started msg member starting).1 job found
      exact running found run first

theorem Telling.effects (telling : Telling links sbds told m) (wf : Wf conf m)
    (effects : Effects conf (uncompacted (linkPermit links sbds)) m m') :
    ∃ records, m'.manifest = m.manifest ++ records ∧ Telling links sbds (told ++ records) m' ∧
      (Kept told m → Kept (told ++ records) m') := by
  refine effects.keeps_of_wf (fun m' => ∃ records, m'.manifest = m.manifest ++ records ∧
    Telling links sbds (told ++ records) m' ∧ (Kept told m → Kept (told ++ records) m')) ?_ wf ?_
  · rintro m₁ m₂ wf₁ ⟨records, manifest, telling, kept⟩ effect
    obtain ⟨more, journaled, after⟩ := telling.effect wf₁ effect
    refine ⟨records ++ more, ?_, ?_, fun before => ?_⟩
    · rw [journaled.manifest, manifest, append_assoc]
    · rw [← append_assoc]
      exact after
    · rw [← append_assoc]
      exact (kept before).journaled after.attests journaled
  · refine ⟨[], (append_nil _).symm, ?_, fun before => ?_⟩
    · rw [append_nil]
      exact telling
    · rw [append_nil]
      exact before

/-! ### The journal along a run -/

/-- The system agrees with its journal, and the history with the journal. -/
structure Chronicled (r : Logged) : Prop where
  attests : Attests r.told r.system.mbd
  posted : Posted r.told r.system.links r.system.sbds
  places : ∀ j, lastPlace r.history j = lastPlace r.told j

variable {guard : System → Label → Prop} {r r' : Logged}

theorem loggedStep_spec (taken : loggedStep conf r label = some r') :
    step conf r.system label = some r'.system ∧
      r'.archives = r.archives ++ manifestArchived conf r.system label ∧ r'.told = r.told ++
        (manifestWritten conf r.system r'.system label).drop r.system.mbd.manifest.length := by
  obtain ⟨s', moved, result⟩ := Option.map_eq_some_iff.mp taken
  cases result
  exact ⟨moved, rfl, rfl⟩

theorem Posted.speaks {links' : HostName → Link} {sbds' : HostName → SbdState}
    (posted : Posted told links sbds)
    (fewer : ∀ h j, Speaks (links' h) (sbds' h) j → Speaks (links h) (sbds h) j) :
    Posted told links' sbds' :=
  fun h j speaks => posted h j (fewer h j speaks)

theorem Chronicled.grown (chronicled : Chronicled r) (j : JobId) :
    lastPlace (r.history ++ records) j = lastPlace (r.told ++ records) j := by
  rw [lastPlace_append, lastPlace_append, chronicled.places]

theorem Chronicled.append (chronicled : Chronicled r) (archives : r'.archives = r.archives)
    (told : r'.told = r.told ++ records)
    (manifest : r'.system.mbd.manifest = r.system.mbd.manifest ++ records)
    (attests : Attests (r.told ++ records) r'.system.mbd)
    (posted : Posted (r.told ++ records) r'.system.links r'.system.sbds) : Chronicled r' := by
  constructor
  · rw [told]
    exact attests
  · rw [told]
    exact posted
  · intro j
    rw [told, Logged.history, archives, manifest, ← append_assoc]
    exact chronicled.grown j

theorem Chronicled.step (chronicled : Chronicled r) (sound : Sound conf r.system)
    (legible : label.Rereads r.system) (taken : loggedStep conf r label = some r') :
    Chronicled r' ∧ (Remembered conf (SameRoom conf) r.system.mbd → Kept r.told r.system.mbd →
      Kept r'.told r'.system.mbd) := by
  obtain ⟨s', archives', told'⟩ := r'
  obtain ⟨moved, archives, told⟩ := loggedStep_spec taken
  dsimp only at moved archives told
  have telling : ∀ {links : HostName → Link}, (∀ h, (links h).toSbd = (r.system.links h).toSbd) →
      (∀ h, HostLink r.system.mbd h (links h) (r.system.sbds h)) →
      Telling links r.system.sbds r.told r.system.mbd := by
    intro links shown linked
    refine ⟨sound.saved, fun h => ?_, chronicled.attests, ?_⟩
    · rw [sound.idle]
      exact linked h
    · rw [sound.idle]
      refine chronicled.posted.speaks fun h j speaks => ?_
      exact speaks.imp id fun ⟨msg, member, starting⟩ => ⟨msg, shown h ▸ member, starting⟩
  cases sound.moves legible moved with
  | acts shown linked effects kept written =>
    obtain ⟨records, manifest, after, keeps⟩ := (telling shown linked).effects sound.wf effects
    rw [kept, append_nil] at archives
    rw [written _ rfl, manifest, drop_left] at told
    refine ⟨chronicled.append archives told manifest ?_ after.posted, fun _ before => ?_⟩
    · exact after.attests.congr rfl (Int.le_refl _)
    · rw [told]
      exact (keeps before).mono fun _ => Or.inl
  | compacts _ effects compacted kept written =>
    obtain ⟨records, manifest, after, keeps⟩ :=
      (telling (fun _ => rfl) sound.linked).effects sound.wf effects
    have wf := effects.keeps (Wf conf) Effect.wf sound.wf
    obtain ⟨attests, forgets⟩ := after.attests.compacted wf compacted
    have restated := after.attests.restated wf compacted
    rw [kept] at archives
    rw [written, manifest, drop_left] at told
    subst archives told
    refine ⟨⟨attests.congr rfl (Int.le_refl _), ?_, fun j => ?_⟩, fun _ before => ?_⟩
    · obtain ⟨_, _, rfl⟩ := manifestRebuild_spec compacted
      exact after.posted
    · change lastPlace (r.archives ++ _ ++ _) j = _
      rw [lastPlace_append, manifest, ← append_assoc]
      have grown : lastPlace (r.archives ++ r.system.mbd.manifest ++ records) j =
          lastPlace (r.told ++ records) j := chronicled.grown j
      rw [grown]
      exact restated j
    · exact (forgets (keeps before)).mono fun _ => Or.inl
  | registers submitted kept written =>
    obtain ⟨records, manifest, quiet, attests, more⟩ :=
      chronicled.attests.registers sound.wf submitted
    rw [kept, append_nil] at archives
    rw [written _ rfl, manifest, drop_left] at told
    refine ⟨chronicled.append archives told manifest (attests.congr rfl (Int.le_refl _)) ?_,
      fun _ before => ?_⟩
    · intro h j speaks
      rw [lastPlace_append, foldl_placeAfter_eq fun e member => (quiet e member).keeps]
      change Speaks (deliverAll r.system.links _ h) _ j at speaks
      rw [submitted.outbox, sound.idle] at speaks
      exact chronicled.posted h j speaks
    · rw [told]
      exact (before.registers quiet attests more).mono fun _ => Or.inl
  | restarts isRestart restored =>
    subst isRestart
    have same : told' = r.told := by
      rw [told]
      change r.told ++ List.drop _ (MbdState.manifest _) = _
      rw [restored.manifest, drop_length, append_nil]
    have whole : archives' = r.archives := archives.trans (append_nil _)
    subst same whole
    refine ⟨⟨chronicled.attests.restored restored, ?_, fun j => ?_⟩, fun remembered before => ?_⟩
    · refine chronicled.posted.speaks fun h j => ?_
      exact (Settled.lose (toSbd_mbdGone _ _) Iff.rfl).speaks
    · rw [Logged.history]
      dsimp only
      rw [restored.manifest]
      exact chronicled.places j
    · refine before.mono fun j there => Or.inl ?_
      obtain ⟨job, found⟩ := Option.isSome_iff_exists.mp there
      obtain ⟨replayed, found', _⟩ := remembered.restored restored found
      exact Option.isSome_iff_exists.mpr ⟨replayed, found'⟩
  | settles jobs manifest seqFile settled kept written =>
    rw [kept, append_nil] at archives
    rw [written, manifest, drop_length] at told
    have attests := chronicled.attests.congr jobs (Int.le_of_eq seqFile.symm)
    refine ⟨chronicled.append archives told (manifest.trans (append_nil _).symm) ?_ ?_,
      fun _ before => ?_⟩
    · rw [append_nil]
      exact attests
    · rw [append_nil]
      exact chronicled.posted.speaks fun h j => (settled h j).speaks
    · rw [told, append_nil]
      exact before.mono fun j there => Or.inl (by rw [jobs]; exact there)

/-! ### Agreement -/

theorem LoggedRun.reachable (run : LoggedRun conf guard r) : Reachable conf guard r.system := by
  induction run with
  | refl => exact .refl
  | tail _ last ih =>
    obtain ⟨label, may, taken⟩ := last
    exact ih.tail ⟨label, may, (loggedStep_spec taken).1⟩

theorem loggedInitial_chronicled (conf : Conf) : Chronicled (loggedInitial conf) where
  attests := .nil fun _ => rfl
  posted := by
    rintro h j (⟨_, member, _⟩ | ⟨_, member, _⟩) <;> cases member
  places := fun _ => rfl

theorem LoggedRun.chronicled (run : LoggedRun conf (Legibly guard) r) : Chronicled r :=
  Steps.invariant_over (fun r => Sound conf r.system) Chronicled
    (fun run => (LoggedRun.reachable run).sound) (loggedInitial_chronicled conf)
    (fun sound chronicled may taken => (chronicled.step sound may.2 taken).1) run

theorem LoggedRun.kept (run : LoggedRun conf (Legibly (hostsRecorded conf)) r) :
    Kept r.told r.system.mbd := by
  refine Steps.invariant_over (fun r => LoggedRun conf (Legibly (hostsRecorded conf)) r)
    (fun r => Kept r.told r.system.mbd) id ?_ ?_ run
  · rintro j ⟨e, member, _⟩
    cases member
  · intro r r' label run kept may taken
    exact (run.chronicled.step (LoggedRun.reachable run).sound may.2 taken).2
      (LoggedRun.reachable run).sameRoom kept

def loggedOf (conf : Conf) (check : System → Label → Bool) (labels : List Label) : Option Logged :=
  execute (loggedStep conf) (fun r label => check r.system label) (loggedInitial conf) labels

theorem loggedRun_of_loggedOf {check : System → Label → Bool} {labels : List Label}
    (sound : ∀ label ∈ labels, ∀ s, check s label = true → guard s label)
    (executed : loggedOf conf check labels = some r) : LoggedRun conf guard r :=
  steps_of_execute (fun label member r => sound label member r.system) executed

def holds (r : Logged) (h : HostName) (j : JobId) : Bool :=
  (r.system.sbds h).jobs.any fun job => job.jobId = j

theorem holds_iff : holds r h j = true ↔ Held (r.system.sbds h) j := by
  simp [holds, Held]

/-! ### State files -/

/-- A step, with the state files on the host if an sbd is started again: it has what they say. -/
def storedStep (conf : Conf) (r : Logged) (move : Label × StateDir) : Option Logged :=
  (loggedStep conf r move.1).map fun r' =>
    match move.1 with
    | .sbdRestart h _ => { r' with system := r'.system.setSbd h (move.2.load (r.system.sbds h)) }
    | _ => r'

/-- The state files are read back as they were written, and those of other jobs are skipped. -/
def readsBack (s : System) (move : Label × StateDir) : Bool :=
  match move.1 with
  | .sbdRestart h _ => move.2.load (s.sbds h) = sbdJobStateLoadAll (s.sbds h)
  | _ => true

def StoredRun (conf : Conf) (guard : System → Label → Prop) : Logged → Prop :=
  Steps (storedStep conf) (fun r move => guard r.system move.1 ∧ readsBack r.system move = true)
    (loggedInitial conf)

variable {move : Label × StateDir}

theorem storedStep_eq (back : readsBack r.system move = true) :
    storedStep conf r move = loggedStep conf r move.1 := by
  obtain ⟨label, dir⟩ := move
  cases label with
  | sbdRestart h kept =>
    have back : dir.load (r.system.sbds h) = sbdJobStateLoadAll (r.system.sbds h) :=
      of_decide_eq_true back
    simp [storedStep, loggedStep, step, System.setSbd, System.setLink, back]
  | _ => exact Option.map_id'

/-- Run a list of labels with the same state files all the time. -/
def storedOf (conf : Conf) (check : System → Label → Bool) (dir : StateDir) (labels : List Label) :
    Option Logged :=
  execute (storedStep conf) (fun r move => check r.system move.1 && readsBack r.system move)
    (loggedInitial conf) (labels.map (·, dir))

theorem storedRun_of_storedOf {check : System → Label → Bool} {dir : StateDir}
    {labels : List Label} (sound : ∀ label ∈ labels, ∀ s, check s label = true → guard s label)
    (executed : storedOf conf check dir labels = some r) : StoredRun conf guard r := by
  refine steps_of_execute (fun move member r checked => ?_) executed
  obtain ⟨label, inList, rfl⟩ := List.mem_map.mp member
  obtain ⟨allowed, back⟩ := Bool.and_eq_true_iff.mp checked
  exact ⟨sound label inList r.system allowed, back⟩

/-- State files with nothing but the fields of the protocol. -/
def bareFiles : StateDir :=
  ⟨fun _ => freshRecord, []⟩

theorem StoredRun.logged (run : StoredRun conf guard r) : LoggedRun conf guard r := by
  refine Steps.invariant (LoggedRun conf guard) .refl (fun before may taken => ?_) run
  rw [storedStep_eq may.2] at taken
  exact before.tail ⟨_, may.1, taken⟩

/-! ### One holder -/

/--
In every run whose restarts can read their manifests and state files, a job is in the list of
at most one sbd, and the history has that host as the first host of its latest start.
-/
theorem single_holder (run : StoredRun conf (Legibly anyStep) r)
    (held : Held (r.system.sbds h) j) :
    (∀ n, Held (r.system.sbds n) j → n = h) ∧ LatestStart r.history j h := by
  have chronicled := run.logged.chronicled
  have here := chronicled.posted h j (Or.inl held)
  refine ⟨fun n other => ?_, latestStart_of_lastPlace ((chronicled.places j).trans here)⟩
  exact Option.some.inj ((chronicled.posted n j (Or.inl other)).symm.trans here)

theorem single_holder_oneWaits :
    ∃ r, StoredRun smallConf (Legibly anyStep) r ∧ Held (r.system.sbds "h1") 1 ∧
      (∀ n, Held (r.system.sbds n) 1 → n = "h1") ∧ LatestStart r.history 1 "h1" := by
  obtain ⟨r, executed, held⟩ : ∃ r ∈ storedOf smallConf (rereading fun _ _ => true) bareFiles
      (oneWaits ++ [.mbdRestart fun _ => 0, .sbdRestart "h1" 0]), holds r "h1" 1 = true := by
    decide +kernel
  have run : StoredRun smallConf (Legibly anyStep) r :=
    storedRun_of_storedOf (fun _ _ _ => legibly_of_rereading fun _ => trivial) executed
  have held := holds_iff.mp held
  exact ⟨r, run, held, single_holder run held⟩

/--
A job runs on the first host.  The name of a second job returns the first one in
the manifest, and after a restart mbd starts it on the second host.
-/
def forgedReturn : List Label :=
  join "h1" 5 ++ [submitAt 1 plainRequest, .timer 2 fun _ => true] ++ start "h1" 3 77 ++
    [submitAt 4 { plainRequest with name := forgedName "JOB_PEND 1 5 1" },
      .mbdRestart fun _ => 0] ++ join "h2" 6 ++
    [.timer 7 fun _ => true, .sbdRead "h2" (.started 88) true]

theorem not_single_holder :
    (loggedOf smallConf (fun _ _ => true) forgedReturn).map
        (fun r => (holds r "h1" 1, holds r "h2" 1)) = some (true, true) ∧
      ¬ ∀ (conf : Conf) (r : Logged), LoggedRun conf anyStep r → ∀ h j, Held (r.system.sbds h) j →
          (∀ n, Held (r.system.sbds n) j → n = h) ∧ LatestStart r.history j h := by
  refine ⟨by decide +kernel, fun always => ?_⟩
  obtain ⟨r, executed, first, second⟩ : ∃ r ∈ loggedOf smallConf (fun _ _ => true) forgedReturn,
      holds r "h1" 1 = true ∧ holds r "h2" 1 = true := by decide +kernel
  have run : LoggedRun smallConf anyStep r :=
    loggedRun_of_loggedOf (fun _ _ _ _ => trivial) executed
  have same := (always smallConf r run "h1" 1 (holds_iff.mp first)).1 "h2" (holds_iff.mp second)
  exact absurd same (by decide)

/-! ### One end -/

theorem LoggedRun.released {msg : MbdMsg} (run : LoggedRun conf (Legibly (hostsRecorded conf)) r)
    (held : Held (r.system.sbds h) j) (member : msg ∈ (r.system.links h).toSbd)
    (releasing : releases j msg = true) : r.told.countP (isFinishOf j) = 1 := by
  have chronicled := run.chronicled
  have past := (((LoggedRun.reachable run).sound.linked h).job j).past msg member releasing
  have started := exists_start_of_lastPlace (chronicled.posted h j (Or.inl held))
  rcases run.kept j started with there | finished
  · obtain ⟨job, found⟩ := Option.isSome_iff_exists.mp there
    rw [chronicled.attests.counted found, if_pos (past job found).1]
  · exact finished

theorem Sound.drops {s s' : System} (sound : Sound conf s) (legible : label.Rereads s)
    (taken : Cluster.step conf s label = some s') (held : Held (s.sbds h) j)
    (dropped : ¬ Held (s'.sbds h) j) : ∃ msg ∈ (s.links h).toSbd, releases j msg = true := by
  cases sound.moves legible taken with
  | acts | compacts | registers | restarts => exact absurd held dropped
  | settles _ _ _ settled _ _ => exact ((settled h j).keeps held).resolve_left dropped

/--
In every run whose submissions record a host count that can be read back and whose
restarts can read their manifests and state files, the end of a job is written at most once,
and an sbd drops a job only after its end was written.
-/
theorem finish_once (run : StoredRun conf (Legibly (hostsRecorded conf)) r) (j : JobId) :
    r.told.countP (isFinishOf j) ≤ 1 ∧
      ∀ move r' h, move.1.Rereads r.system → readsBack r.system move = true →
        storedStep conf r move = some r' → Held (r.system.sbds h) j → ¬ Held (r'.system.sbds h) j →
        ∃ e ∈ r.told, isFinishOf j e = true := by
  have logged := run.logged
  refine ⟨logged.chronicled.attests.once j, fun move r' h legible back taken held dropped => ?_⟩
  rw [storedStep_eq back] at taken
  obtain ⟨msg, member, releasing⟩ := (LoggedRun.reachable logged).sound.drops legible
    (loggedStep_spec taken).1 held dropped
  refine List.countP_pos_iff.mp ?_
  rw [logged.released held member releasing]
  exact Nat.one_pos

def finishAgain : List Label :=
  join "h1" 5 ++ [submitAt 1 plainRequest, .timer 2 fun _ => true] ++ start "h1" 3 77 ++
    [.jobExit "h1" 1 0, .reportFinish "h1" 1, .mbdRead "h1" 4 true, .mbdRestart fun _ => 0,
      .sbdRestart "h1" 0, .jobExit "h1" 1 0] ++ join "h1" 6 ++ [.reportFinish "h1" 1, .mbdRead "h1" 7 true]

theorem finish_once_finishAgain :
    ∃ r r', StoredRun smallConf (Legibly (hostsRecorded smallConf)) r ∧
      storedStep smallConf r (.sbdRead "h1" .failed true, bareFiles) = some r' ∧
      Held (r.system.sbds "h1") 1 ∧ ¬ Held (r'.system.sbds "h1") 1 ∧
      r.told.countP (isFinishOf 1) ≤ 1 ∧ ∃ e ∈ r.told, isFinishOf 1 e = true := by
  obtain ⟨r, executed, held, r', taken, gone⟩ :
      ∃ r ∈ storedOf smallConf (rereading fun _ _ => true) bareFiles finishAgain,
        holds r "h1" 1 = true ∧ ∃ r' ∈ storedStep smallConf r (.sbdRead "h1" .failed true, bareFiles),
          ¬ holds r' "h1" 1 = true := by
    decide +kernel
  have recorded : HostsRecorded smallConf plainRequest := by
    unfold HostsRecorded
    decide +kernel
  have asks : ∀ label ∈ finishAgain, label.Asks (HostsRecorded smallConf) := by
    simpa [finishAgain, join, start, submitAt, Label.Asks] using recorded
  have run : StoredRun smallConf (Legibly (hostsRecorded smallConf)) r :=
    storedRun_of_storedOf (fun label member _ => legibly_of_rereading fun _ => asks label member)
      executed
  have held := holds_iff.mp held
  have gone : ¬ Held (r'.system.sbds "h1") 1 := fun still => gone (holds_iff.mpr still)
  obtain ⟨once, told⟩ := finish_once run 1
  exact ⟨r, r', run, taken, held, gone, once,
    told (.sbdRead "h1" .failed true, bareFiles) r' "h1" trivial rfl taken held gone⟩

/--
The host count of a submission is recorded as it was sent; a restart cannot read
it back and forgets the running job, and its end is acknowledged unwritten.
-/
def forgottenFinish : List Label :=
  join "h1" 5 ++ [submitAt 1 { plainRequest with numHosts := -1 }, .timer 2 fun _ => true] ++
    start "h1" 3 77 ++ [.mbdRestart fun _ => 0, .sbdDrop "h1" 0] ++ join "h1" 6 ++
    [.jobExit "h1" 1 0, .reportFinish "h1" 1, .mbdRead "h1" 8 true]

theorem finish_lost :
    ((loggedOf smallConf (rereading fun _ _ => true) forgottenFinish).bind fun r =>
        (loggedStep smallConf r (.sbdRead "h1" .failed true)).map fun r' =>
          (holds r "h1" 1, holds r' "h1" 1, r.told.any (isFinishOf 1))) =
        some (true, false, false) ∧
      ¬ ∀ (conf : Conf) (r : Logged), LoggedRun conf (Legibly anyStep) r → ∀ j,
        r.told.countP (isFinishOf j) ≤ 1 ∧
          ∀ label r' h, label.Rereads r.system → loggedStep conf r label = some r' →
            Held (r.system.sbds h) j → ¬ Held (r'.system.sbds h) j →
            ∃ e ∈ r.told, isFinishOf j e = true := by
  refine ⟨by decide +kernel, fun always => ?_⟩
  obtain ⟨r, executed, held, untold, r', taken, gone⟩ :
      ∃ r ∈ loggedOf smallConf (rereading fun _ _ => true) forgottenFinish, holds r "h1" 1 = true ∧
        (¬ ∃ e ∈ r.told, isFinishOf 1 e = true) ∧
        ∃ r' ∈ loggedStep smallConf r (.sbdRead "h1" .failed true), ¬ holds r' "h1" 1 = true := by
    decide +kernel
  have run : LoggedRun smallConf (Legibly anyStep) r :=
    loggedRun_of_loggedOf (fun _ _ _ => legibly_of_rereading fun _ => trivial) executed
  exact untold ((always smallConf r run 1).2 (.sbdRead "h1" .failed true) r' "h1" trivial taken
    (holds_iff.mp held) fun still => gone (holds_iff.mpr still))

end LavaLite.Cluster
