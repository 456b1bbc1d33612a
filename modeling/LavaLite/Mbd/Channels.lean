import LavaLite.Kernel.Run
import LavaLite.Mbd.Replay

/-
The channels of mbd.  A channel is a slot of a table that is taken again as soon as
its socket is closed.  The slot of a registered sbd is bound to its host twice: in
`sbd_chan_hash` and in the `sbd_chan` of the host.
-/

namespace LavaLite.Mbd

open Base Batch Kernel Function Option

/-! ### Messages -/

/-- The operations `valid_batch_op` lets through. -/
inductive BatchOp where
  | jobSubmit
  | jobSubmitAck
  | jobSignal
  | jobSignalAck
  | jobInfo
  | jobInfoAck
  | hostInfo
  | hostInfoAck
  | queueInfo
  | queueInfoAck
  | groupInfo
  | groupInfoAck
  | sbdRegister
  | sbdRegisterAck
  | newJob
  | newJobReply
  | newJobReplyAck
  | jobFinish
  | jobFinishAck
  | sbdJobSignal
  | sbdJobSignalReply
  | tokenInfo
  | tokenInfoAck
  | queueAdmin
  | queueAdminAck
  | hostAdmin
  | hostAdminAck
  | jobMove
  | jobMoveAck
  | jobPriority
  | jobPriorityAck
  | jobMissing
  deriving DecidableEq, Repr

structure Packet where
  /-- `xdr_pack_hdr` succeeds. -/
  decoded : Bool
  /-- `none` for an operation that `valid_batch_op` refuses. -/
  operation : Option BatchOp
  /-- `auth_verify_header` succeeds. -/
  verified : Bool
  /-- The version is `CURRENT_PROTOCOL_VERSION`. -/
  current : Bool
  /-- The host name of a registration, if it decodes. -/
  hostname : Option HostName
  /-- The answer to a registration can be built and signed. -/
  acked : Bool
  /-- The handler of a client's request succeeds. -/
  served : Bool
  deriving DecidableEq, Repr

inductive Incoming where
  /-- `chan_has_error`: the peer is gone. -/
  | failed
  /-- `chan_dequeue` finds no message. -/
  | missing
  | packet (p : Packet)
  deriving DecidableEq, Repr

def Packet.rejected (p : Packet) : Bool :=
  !(p.decoded && p.operation.isSome && p.verified && p.current)

/-! ### The table -/

/--
The channels and their bindings.  A socket is the number of the connection it
belongs to; `registered` remembers what each connection has registered as.
-/
structure NetState where
  sock : Nat → Option Nat
  sbdChanHash : Nat → Option HostName
  sbdChan : HostName → Option Nat
  accepted : Nat
  registered : Nat → Option HostName

def chanMbd : Nat := 0

def chanTimer : Nat := 1

def networkInit : NetState :=
  { sock := fun c => if c = chanMbd ∨ c = chanTimer then some c else none
    sbdChanHash := fun _ => none
    sbdChan := fun _ => none
    accepted := 2
    registered := fun _ => none }

/-- In a table of `chanMax` channels. -/
def chanFindFree (chanMax : Nat) (sock : Nat → Option Nat) : Option Nat :=
  (List.range chanMax).find? fun c => (sock c).isNone

/-- `mbd_accept`: `known` when the address is in the table and epoll takes the socket. -/
def mbdAccept (chanMax : Nat) (t : NetState) (known : Bool) : NetState :=
  match chanFindFree chanMax t.sock with
  | none => t
  | some c =>
    -- a refused connection is closed again and leaves its slot free
    if known then
      { t with
        sock := update t.sock c (some t.accepted)
        accepted := t.accepted + 1 }
    else t

/-- Closing a closed channel does nothing. -/
def chanShutdown (t : NetState) (c : Nat) : NetState :=
  { t with sock := update t.sock c none }

def sbdDisconnect (t : NetState) (h : HostName) : NetState :=
  match t.sbdChan h with
  | none => t
  | some c =>
    chanShutdown
      { t with
        sbdChan := update t.sbdChan h none
        sbdChanHash := update t.sbdChanHash c none } c

/-- `ll_hash_insert` without update: an entry that is there stays. -/
def hashInsert (table : Nat → Option HostName) (c : Nat) (h : HostName) : Nat → Option HostName :=
  match table c with
  | some _ => table
  | none => update table c (some h)

def sbdBind (t : NetState) (c : Nat) (h : HostName) : NetState :=
  { t with
    sbdChan := update t.sbdChan h (some c)
    sbdChanHash := hashInsert t.sbdChanHash c h
    registered :=
      match t.sock c with
      | some conn => update t.registered conn (some h)
      | none => t.registered }

/-- `mbd_sbd_register`, with its result. -/
def sbdRegister (conf : Conf) (t : NetState) (c : Nat) (p : Packet) : NetState × Bool :=
  match p.hostname with
  | none => (chanShutdown t c, false)
  | some h =>
    match conf.findHost h with
    | none => (chanShutdown t c, false)
    | some _ =>
      match t.sbdChan h with
      | some _ => (chanShutdown t c, false)
      | none =>
        if p.acked then (sbdBind t c h, true)
        else (sbdDisconnect (sbdBind t c h) h, false)

def closesOnFailure : BatchOp → Bool
  | .jobSubmit | .jobSignal | .groupInfo | .queueInfo | .jobInfo | .hostInfo | .hostAdmin
  | .jobMove | .jobPriority => true
  | _ => false

/-- A channel that is not bound to a host. -/
def route (conf : Conf) (t : NetState) (c : Nat) : Incoming → NetState
  | .failed => chanShutdown t c
  | .missing => chanShutdown t c
  | .packet p =>
    if p.rejected then chanShutdown t c
    else
      match p.operation with
      | some .sbdRegister =>
        let (t, ok) := sbdRegister conf t c p
        if ok then t else chanShutdown t c
      | some op => if closesOnFailure op && !p.served then chanShutdown t c else t
      | none => t

/--
`mbd_sbd_route`: the channel of host `h`.  Only a lost connection is taken off the
host; after any other failure the channel is closed and the host keeps its number.
-/
def sbdRoute (t : NetState) (h : HostName) (c : Nat) : Incoming → NetState
  | .failed => sbdDisconnect t h
  | .missing => chanShutdown t c
  | .packet p => if p.rejected then chanShutdown t c else t

/-- `mbd_message`; `none` is the failed assertion. -/
def mbdMessage (conf : Conf) (t : NetState) (c : Nat) (incoming : Incoming) : Option NetState :=
  match t.sbdChanHash c with
  | some h => if t.sbdChan h = some c then some (sbdRoute t h c incoming) else none
  | none => some (route conf t c incoming)

inductive NetLabel where
  | accept (known : Bool)
  | message (c : Nat) (incoming : Incoming)
  deriving DecidableEq, Repr

def isClient (t : NetState) (c : Nat) : Bool :=
  (t.sock c).isSome && c != chanMbd && c != chanTimer

def netStep (chanMax : Nat) (conf : Conf) (t : NetState) : NetLabel → Option NetState
  | .accept known => some (mbdAccept chanMax t known)
  | .message c incoming => if isClient t c then mbdMessage conf t c incoming else none

/-! ### The bindings -/

/-- Every binding is made twice, on an open channel that registered as its host. -/
structure Bindings (t : NetState) : Prop where
  paired : Paired t.sbdChanHash t.sbdChan
  registered : ∀ c h, t.sbdChanHash c = some h →
    ∃ conn, t.sock c = some conn ∧ t.registered conn = some h

def Disconnected (t : NetState) (h : HostName) : Prop :=
  ∀ c conn, t.sock c = some conn → t.registered conn ≠ some h

def registration (h : HostName) : Incoming :=
  .packet
    { decoded := true
      operation := some .sbdRegister
      verified := true
      current := true
      hostname := some h
      acked := true
      served := true }

/-- The bindings, and what the numbers of the connections say. -/
structure Tidy (t : NetState) : Prop extends Bindings t where
  bound : ∀ c conn h, t.sock c = some conn → t.registered conn = some h → t.sbdChanHash c = some h
  apart : ∀ c d conn, t.sock c = some conn → t.sock d = some conn → c = d
  numbered : ∀ c conn, t.sock c = some conn → conn < t.accepted
  past : ∀ conn h, t.registered conn = some h → conn < t.accepted

/-- No message on a bound channel fails the checks that close the channel. -/
def NetLabel.Accepted (t : NetState) : NetLabel → Prop
  | .accept _ => True
  | .message _ .failed => True
  | .message c .missing => t.sbdChanHash c = none
  | .message c (.packet p) => t.sbdChanHash c = none ∨ p.rejected = false

instance decidableAccepted (t : NetState) (label : NetLabel) : Decidable (label.Accepted t) :=
  match label with
  | .accept _ => isTrue trivial
  | .message _ .failed => isTrue trivial
  | .message c .missing => inferInstanceAs (Decidable (t.sbdChanHash c = none))
  | .message c (.packet p) =>
    inferInstanceAs (Decidable (t.sbdChanHash c = none ∨ p.rejected = false))

variable {chanMax : Nat} {conf : Conf} {t t' : NetState} {c : Nat} {h : HostName}
  {incoming : Incoming} {label : NetLabel}

theorem networkInit_tidy : Tidy networkInit where
  paired := fun _ _ => ⟨nofun, nofun⟩
  registered := nofun
  bound := nofun
  past := nofun
  apart := by
    intro c d conn first second
    simp only [networkInit] at first second
    split at first
    · split at second
      · exact (Option.some.inj first).trans (Option.some.inj second).symm
      · cases second
    · cases first
  numbered := by
    intro c conn open_
    simp only [networkInit] at open_
    split at open_
    next reserved =>
      cases open_
      rcases reserved with rfl | rfl <;> decide
    next => cases open_

theorem sock_of_shutdown {d conn : Nat} (open_ : (chanShutdown t c).sock d = some conn) :
    d ≠ c ∧ t.sock d = some conn := by
  change update t.sock c none d = some conn at open_
  by_cases same : d = c
  · rw [same, update_self] at open_
    cases open_
  · rw [update_of_ne same] at open_
    exact ⟨same, open_⟩

theorem Tidy.shutdown (tidy : Tidy t) (free : t.sbdChanHash c = none) :
    Tidy (chanShutdown t c) where
  paired := tidy.paired
  registered := by
    intro d h bound
    obtain ⟨conn, open_, registered⟩ := tidy.registered d h bound
    have other : d ≠ c := fun same => by
      change t.sbdChanHash d = some h at bound
      rw [same, free] at bound
      cases bound
    exact ⟨conn, (update_of_ne other _ _).trans open_, registered⟩
  bound := fun d conn h open_ => tidy.bound d conn h (sock_of_shutdown open_).2
  apart := fun d e conn first second =>
    tidy.apart d e conn (sock_of_shutdown first).2 (sock_of_shutdown second).2
  numbered := fun d conn open_ => tidy.numbered d conn (sock_of_shutdown open_).2
  past := tidy.past

theorem Tidy.disconnect (tidy : Tidy t) : Tidy (sbdDisconnect t h) := by
  unfold sbdDisconnect
  split
  · exact tidy
  next c bound =>
    have named := (tidy.paired c h).mpr bound
    constructor
    · refine ⟨tidy.paired.unbind named, fun d n still => ?_⟩
      change update t.sbdChanHash c none d = some n at still
      by_cases same : d = c
      · rw [same, update_self] at still
        cases still
      · rw [update_of_ne same] at still
        obtain ⟨conn, open_, registered⟩ := tidy.registered d n still
        exact ⟨conn, (update_of_ne same _ _).trans open_, registered⟩
    · intro d conn n open_ registered
      obtain ⟨other, before⟩ := sock_of_shutdown open_
      exact (update_of_ne other _ _).trans (tidy.bound d conn n before registered)
    · exact fun d e conn first second =>
        tidy.apart d e conn (sock_of_shutdown first).2 (sock_of_shutdown second).2
    · exact fun d conn open_ => tidy.numbered d conn (sock_of_shutdown open_).2
    · exact tidy.past

theorem Tidy.bind {conn : Nat} (tidy : Tidy t) (free : t.sbdChanHash c = none)
    (unbound : t.sbdChan h = none) (open_ : t.sock c = some conn) : Tidy (sbdBind t c h) := by
  have shape : sbdBind t c h =
      { t with
        sbdChan := update t.sbdChan h (some c)
        sbdChanHash := update t.sbdChanHash c (some h)
        registered := update t.registered conn (some h) } := by
    simp only [sbdBind, hashInsert, free, open_]
  rw [shape]
  -- another open channel belongs to another connection
  have other : ∀ {d conn'}, d ≠ c → t.sock d = some conn' → conn' ≠ conn :=
    fun apart isOpen same => apart (tidy.apart _ c conn (same ▸ isOpen) open_)
  constructor
  · refine ⟨tidy.paired.bind free unbound, fun d n named => ?_⟩
    dsimp only at named ⊢
    by_cases same : d = c
    · rw [same, update_self] at named
      exact ⟨conn, same ▸ open_, by rw [update_self, named]⟩
    · rw [update_of_ne same] at named
      obtain ⟨conn', isOpen, registered⟩ := tidy.registered d n named
      exact ⟨conn', isOpen, (update_of_ne (other same isOpen) _ _).trans registered⟩
  · intro d conn' n isOpen registered
    dsimp only at isOpen registered ⊢
    by_cases same : d = c
    · rw [same, open_] at isOpen
      cases isOpen
      rw [update_self] at registered
      rw [same, update_self, registered]
    · rw [update_of_ne (other same isOpen)] at registered
      rw [update_of_ne same]
      exact tidy.bound d conn' n isOpen registered
  · exact tidy.apart
  · exact tidy.numbered
  · intro conn' n registered
    dsimp only at registered
    by_cases same : conn' = conn
    · rw [same]
      exact tidy.numbered c conn open_
    · rw [update_of_ne same] at registered
      exact tidy.past conn' n registered

theorem Tidy.accept (tidy : Tidy t) (known : Bool) : Tidy (mbdAccept chanMax t known) := by
  unfold mbdAccept
  split
  · exact tidy
  next c found =>
    split
    next =>
      unfold chanFindFree at found
      have empty := List.find?_some found
      have free := isNone_iff_eq_none.mp empty
      have slots : ∀ {d conn}, update t.sock c (some t.accepted) d = some conn →
          (d = c ∧ conn = t.accepted) ∨ (d ≠ c ∧ t.sock d = some conn) := by
        intro d conn open_
        by_cases same : d = c
        · rw [same, update_self] at open_
          exact Or.inl ⟨same, (Option.some.inj open_).symm⟩
        · rw [update_of_ne same] at open_
          exact Or.inr ⟨same, open_⟩
      refine ⟨⟨tidy.paired, fun d h bound => ?_⟩, fun d conn h open_ registered => ?_,
        fun d e conn first second => ?_, fun d conn open_ => ?_,
        fun conn h registered => Nat.lt_succ_of_lt (tidy.past conn h registered)⟩
      · obtain ⟨conn, open_, registered⟩ := tidy.registered d h bound
        have other : d ≠ c := fun same => by
          rw [same, free] at open_
          cases open_
        exact ⟨conn, (update_of_ne other _ _).trans open_, registered⟩
      · rcases slots open_ with ⟨_, new⟩ | ⟨_, old⟩
        · exact absurd (tidy.past conn h registered) (by rw [new]; exact Nat.lt_irrefl _)
        · exact tidy.bound d conn h old registered
      · rcases slots first with ⟨atD, new⟩ | ⟨_, old⟩ <;>
          rcases slots second with ⟨atE, new'⟩ | ⟨_, old'⟩
        · exact atD.trans atE.symm
        · exact absurd (tidy.numbered e conn old') (by rw [new]; exact Nat.lt_irrefl _)
        · exact absurd (tidy.numbered d conn old) (by rw [new']; exact Nat.lt_irrefl _)
        · exact tidy.apart d e conn old old'
      · rcases slots open_ with ⟨_, new⟩ | ⟨_, old⟩
        · rw [new]
          exact Nat.lt_succ_self _
        · exact Nat.lt_succ_of_lt (tidy.numbered d conn old)
    next => exact tidy

theorem Tidy.register {conn : Nat} {p : Packet} (tidy : Tidy t) (free : t.sbdChanHash c = none)
    (open_ : t.sock c = some conn) :
    Tidy (if (sbdRegister conf t c p).2 then (sbdRegister conf t c p).1
      else chanShutdown (sbdRegister conf t c p).1 c) := by
  have closes : Tidy (chanShutdown (chanShutdown t c) c) := (tidy.shutdown free).shutdown free
  unfold sbdRegister
  split
  · exact closes
  next h _ =>
    split
    · exact closes
    · split
      · exact closes
      next unbound =>
        have bound := tidy.bind free unbound open_
        split
        · exact bound
        · have gone : (sbdDisconnect (sbdBind t c h) h).sbdChanHash c = none := by
            have number : (sbdBind t c h).sbdChan h = some c := update_self ..
            unfold sbdDisconnect
            rw [number]
            exact update_self ..
          exact bound.disconnect.shutdown gone

theorem Tidy.route {conn : Nat} (tidy : Tidy t) (free : t.sbdChanHash c = none)
    (open_ : t.sock c = some conn) : Tidy (route conf t c incoming) := by
  have closes := tidy.shutdown free
  cases incoming with
  | failed | missing => exact closes
  | packet p =>
    unfold Mbd.route
    dsimp only
    split
    · exact closes
    · split
      · exact tidy.register free open_
      · split
        · exact closes
        · exact tidy
      · exact tidy

theorem Tidy.sbdRoute (tidy : Tidy t) (bound : t.sbdChanHash c = some h)
    (accepted : (NetLabel.message c incoming).Accepted t) : Tidy (sbdRoute t h c incoming) := by
  have taken : t.sbdChanHash c ≠ none := by
    rw [bound]
    exact some_ne_none h
  cases incoming with
  | failed => exact tidy.disconnect
  | missing => exact absurd accepted taken
  | packet p =>
    have passes := accepted.resolve_left taken
    unfold Mbd.sbdRoute
    dsimp only
    rw [if_neg (by rw [passes]; decide)]
    exact tidy

theorem Tidy.step (tidy : Tidy t) (accepted : label.Accepted t)
    (taken : netStep chanMax conf t label = some t') : Tidy t' := by
  cases label with
  | accept known =>
    cases taken
    exact tidy.accept known
  | message c incoming =>
    simp only [netStep] at taken
    split at taken
    next client =>
      unfold mbdMessage at taken
      split at taken
      next h bound =>
        split at taken
        · cases taken
          exact tidy.sbdRoute bound accepted
        · cases taken
      next free =>
        cases taken
        simp only [isClient, Bool.and_eq_true] at client
        obtain ⟨conn, open_⟩ := isSome_iff_exists.mp client.1.1
        exact tidy.route free open_
    next => cases taken

theorem Tidy.disconnected_iff (tidy : Tidy t) : Disconnected t h ↔ t.sbdChan h = none := by
  rw [eq_none_iff_forall_not_mem]
  constructor
  · intro gone d bound
    obtain ⟨conn, open_, registered⟩ := tidy.registered d h ((tidy.paired d h).mpr bound)
    exact gone d conn open_ registered
  · intro unbound c conn open_ registered
    exact unbound c ((tidy.paired c h).mp (tidy.bound c conn h open_ registered))

theorem Tidy.rejoins (tidy : Tidy t) (known : (conf.findHost h).isSome = true)
    (gone : Disconnected t h) (client : isClient t c = true) (free : t.sbdChanHash c = none) :
    ∃ t', netStep chanMax conf t (.message c (registration h)) = some t' ∧
      t'.sbdChanHash c = some h ∧ t'.sbdChan h = some c := by
  have unbound := tidy.disconnected_iff.mp gone
  obtain ⟨host, found⟩ := isSome_iff_exists.mp known
  refine ⟨sbdBind t c h, ?_, ?_, update_self ..⟩
  · simp only [netStep, if_pos client, mbdMessage, free]
    simp [Mbd.route, registration, Packet.rejected, sbdRegister, found, unbound]
  · change hashInsert t.sbdChanHash c h c = some h
    unfold hashInsert
    rw [free]
    exact update_self ..

theorem tidy_of_run
    (run : Steps (netStep chanMax conf) (fun t label => label.Accepted t) networkInit t) : Tidy t :=
  Steps.invariant Tidy networkInit_tidy (fun tidy accepted taken => tidy.step accepted taken) run

end LavaLite.Mbd
