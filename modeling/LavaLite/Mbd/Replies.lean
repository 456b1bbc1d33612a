import Mathlib.Algebra.BigOperators.Group.List.Basic
import LavaLite.Batch.Messages

/-
The buffers of the replies to the queue list and the job list: what
`queues_info` and `jobs_info_list` (`dispatch.c`) ask for, and what the encoder
writes.  The sizes of structures are those of the platform.
-/

namespace LavaLite.Mbd

open Base Batch.Messages List Option
open Kernel (Codec Fields)

/-! ### What the encoder writes -/

theorem length_xdrInt64 (v : Int64) : (xdrInt64.encode v).length = 8 :=
  length_toBytes 8 v.toUInt64.toNat

/-- The bytes `xdr_string` adds to fill up the last unit of a text. -/
def fillBytes (s : CString) : Nat :=
  (4 - s.val.length % 4) % 4

theorem length_xdrWrapstring (s : CString) :
    (xdrWrapstring.encode s).length = s.val.length + 4 + fillBytes s := by
  change (toBytes 4 s.val.length ++ (xdrOpaque s.val.length).encode ⟨s.val, rfl⟩).length = _
  rw [length_append, length_toBytes, length_xdrOpaque, fillBytes]
  omega

variable {α : Type} {m : XdrMem} {siz : Nat}

theorem length_xdrArray {size : Nat} (c : Codec UInt8 α) (l : CArray size α) :
    ((xdrArray size c).encode l).length = 4 + (l.val.map fun v => (c.encode v).length).sum := by
  change (toBytes 4 l.val.length ++ l.val.flatMap c.encode).length = _
  rw [length_append, length_toBytes, length_flatMap]

theorem length_xdrWireJobInfo (job : WireJobInfo) : (xdrWireJobInfo.encode job).length = 4876 := by
  simp only [xdrWireJobInfo, Fields.codec, Fields.field, Fields.start, length_append,
    length_nil, length_xdrInt32, length_xdrUint32, length_xdrInt64, length_xdrOpaque]

def WireQueueInfo.names (q : WireQueueInfo) : List CString :=
  q.hosts.val ++ q.users.val

def nameBytes (names : List CString) : Nat :=
  (names.map fun s => s.val.length + 4).sum

def fillTotal (names : List CString) : Nat :=
  (names.map fillBytes).sum

theorem length_xdrWireQueueInfo (q : WireQueueInfo) : (xdrWireQueueInfo.encode q).length =
      368 + nameBytes (WireQueueInfo.names q) + fillTotal (WireQueueInfo.names q) := by
  have strings (names : CArray 8 CString) : ((xdrArray 8 xdrWrapstring).encode names).length =
      4 + (nameBytes names.val + fillTotal names.val) := by
    rw [length_xdrArray, nameBytes, fillTotal, ← sum_map_add]
    simp only [length_xdrWrapstring]
  simp only [xdrWireQueueInfo, Fields.codec, Fields.field, Fields.start, length_append,
    length_nil, length_xdrInt32, length_xdrOpaque, strings, WireQueueInfo.names, nameBytes,
    fillTotal, map_append, sum_append]
  omega

/-! ### What the handlers ask for -/

def jobsInfoSize (reply : WireJobInfoArray) : Nat :=
  4880 * reply.jobs.val.length + 16 + packetHeaderSize + 64

/-- `siz` in `queues_info`: the loop over the queues and what is added behind it. -/
def queuesInfoSize (reply : WireQueueInfoArray) : Nat :=
  reply.queues.val.foldl
      (fun siz q => siz + nameBytes q.hosts.val + nameBytes q.users.val + 8) 0 +
    392 * reply.queues.val.length + 16 + packetHeaderSize + 64

def queuesFill (reply : WireQueueInfoArray) : Nat :=
  (reply.queues.val.map fun q => fillTotal (WireQueueInfo.names q)).sum

/-- The memory stream of `enqueue_payload`; `chan_alloc_buf` takes the size as an `int`. -/
def replyBuffer (siz : Nat) : Option XdrMem :=
  if 0 ≤ toInt32 siz then some (freshBuffer (toInt32 siz).toNat (by unfold toInt32; omega))
  else none

/-- The message `enqueue_payload` puts on the channel, if it gets that far. -/
def replyMessage {α : Type} (siz : Nat) (c : Codec UInt8 α) (reply : α) (hdr : ProtocolHeader) :
    Option (XdrMem × ProtocolHeader) := do
  let m ← replyBuffer siz
  llEncodeMsg m (some reply) c hdr

def messageBytes {α : Type} (c : Codec UInt8 α) (reply : α) : Nat :=
  packetHeaderSize + (c.encode reply).length

/-! ### When the reply fits -/

theorem put_room {m' : XdrMem} {written : List UInt8} (put : m.put written = some m') :
    m.pos + written.length ≤ m.bytes.length ∧ m'.bytes.length = m.bytes.length := by
  unfold XdrMem.put at put
  split at put
  case isTrue room =>
    cases put
    refine ⟨room, ?_⟩
    simp only [length_append, length_take, length_drop]
    omega
  case isFalse => cases put

theorem encodeFrame_room {body : List UInt8} {hdr : ProtocolHeader} {r : XdrMem × ProtocolHeader}
    (encoded : encodeFrame m body hdr = some r) :
    packetHeaderSize + body.length ≤ m.bytes.length := by
  obtain ⟨m₁, put₁, rest⟩ := bind_eq_some_iff.mp encoded
  obtain ⟨m₂, put₂, -⟩ := bind_eq_some_iff.mp rest
  obtain ⟨room₁, same₁⟩ := put_room put₁
  obtain ⟨room₂, -⟩ := put_room put₂
  rw [XdrMem.setpos_bytes] at room₁ same₁
  rw [length_xdrPackHdr, XdrMem.setpos_bytes, same₁] at room₂
  rw [XdrMem.setpos_pos (Nat.le_trans (Nat.le_add_left _ _) room₂)] at room₁
  exact room₁

theorem replyBuffer_of_fits (fits : (siz : Int) ≤ intMax) :
    replyBuffer siz = some (freshBuffer siz (by unfold intMax at fits; omega)) := by
  have size : toInt32 siz = siz := toInt32_of_fits (by unfold intMin; omega) fits
  simp only [replyBuffer, size, Int.toNat_natCast, if_pos (Int.natCast_nonneg siz)]

theorem replyBuffer_length (made : replyBuffer siz = some m) :
    (m.bytes.length : Int) = toInt32 siz := by
  unfold replyBuffer at made
  split at made
  case isTrue positive =>
    rw [← Option.some.inj made, freshBuffer, length_replicate]
    exact Int.toNat_of_nonneg positive
  case isFalse => cases made

/-- Beyond `INT_MAX` the buffer is not made, or is far smaller than the message. -/
theorem replyMessage_isSome_iff {c : Codec UInt8 α} {reply : α} (hdr : ProtocolHeader)
    (close : siz ≤ 3 * messageBytes c reply) : (replyMessage siz c reply hdr).isSome ↔
      messageBytes c reply ≤ siz ∧ (siz : Int) ≤ intMax := by
  unfold messageBytes at close ⊢
  constructor
  · intro sent
    obtain ⟨r, made⟩ := isSome_iff_exists.mp sent
    simp only [replyMessage, bind_eq_bind, bind_eq_some_iff] at made
    obtain ⟨m, buffer, encoded⟩ := made
    have room : packetHeaderSize + (c.encode reply).length ≤ m.bytes.length :=
      encodeFrame_room encoded
    have length := replyBuffer_length buffer
    unfold toInt32 at length
    unfold intMax
    omega
  · rintro ⟨room, fits⟩
    have large : packetHeaderSize + (c.encode reply).length ≤
        (freshBuffer siz (by unfold intMax at fits; omega)).bytes.length := by
      rw [freshBuffer, length_replicate]
      exact room
    obtain ⟨m', encoded, -⟩ := encodeFrame_of_fits hdr large (by omega)
    rw [replyMessage, replyBuffer_of_fits fits]
    exact isSome_iff_exists.mpr ⟨_, encoded⟩

theorem messageBytes_jobs (reply : WireJobInfoArray) :
    messageBytes xdrWireJobInfoArray reply = 68 + 4876 * reply.jobs.val.length := by
  change packetHeaderSize + ((xdrArray 4880 xdrWireJobInfo).encode reply.jobs).length = _
  simp only [length_xdrArray, length_xdrWireJobInfo, map_const', sum_replicate_nat,
    packetHeaderSize]
  omega

theorem queuesInfoSize_eq (reply : WireQueueInfoArray) :
    queuesInfoSize reply = (reply.queues.val.map fun q => nameBytes (WireQueueInfo.names q)).sum +
      400 * reply.queues.val.length + 144 := by
  have loop (queues : List WireQueueInfo) (siz : Nat) : queues.foldl
      (fun siz q => siz + nameBytes q.hosts.val + nameBytes q.users.val + 8) siz =
      siz + (queues.map fun q => nameBytes (WireQueueInfo.names q)).sum + 8 * queues.length := by
    induction queues generalizing siz with
    | nil => rfl
    | cons q queues ih =>
      have names : nameBytes (WireQueueInfo.names q) =
          nameBytes q.hosts.val + nameBytes q.users.val := by
        simp only [WireQueueInfo.names, nameBytes, map_append, sum_append]
      rw [foldl_cons, ih, map_cons, sum_cons, length_cons, names]
      omega
  rw [queuesInfoSize, loop, packetHeaderSize]
  omega

theorem messageBytes_queues (reply : WireQueueInfoArray) :
    messageBytes xdrWireQueueInfoArray reply =
      (reply.queues.val.map fun q => nameBytes (WireQueueInfo.names q)).sum +
        368 * reply.queues.val.length + queuesFill reply + 68 := by
  change packetHeaderSize + ((xdrArray 392 xdrWireQueueInfo).encode reply.queues).length = _
  simp only [length_xdrArray, length_xdrWireQueueInfo, sum_map_add, map_const',
    sum_replicate_nat, packetHeaderSize, queuesFill]
  omega

/-- The reserve is 76 bytes and 32 for each queue, and the padding of the names has to fit in. -/
theorem queues_fit_iff (reply : WireQueueInfoArray) :
    messageBytes xdrWireQueueInfoArray reply ≤ queuesInfoSize reply ↔
      queuesFill reply ≤ 32 * reply.queues.val.length + 76 := by
  rw [messageBytes_queues, queuesInfoSize_eq]
  omega

theorem queues_close (reply : WireQueueInfoArray) :
    queuesInfoSize reply ≤ 3 * messageBytes xdrWireQueueInfoArray reply := by
  rw [messageBytes_queues, queuesInfoSize_eq]
  omega

theorem replies_fit_iff (hdr : ProtocolHeader) :
    (∀ reply : WireJobInfoArray, messageBytes xdrWireJobInfoArray reply ≤ jobsInfoSize reply ∧
        ((replyMessage (jobsInfoSize reply) xdrWireJobInfoArray reply hdr).isSome ↔
          (jobsInfoSize reply : Int) ≤ intMax)) ∧
    ∀ reply : WireQueueInfoArray, (messageBytes xdrWireQueueInfoArray reply ≤ queuesInfoSize reply ↔
        queuesFill reply ≤ 32 * reply.queues.val.length + 76) ∧
      ((replyMessage (queuesInfoSize reply) xdrWireQueueInfoArray reply hdr).isSome ↔
        queuesFill reply ≤ 32 * reply.queues.val.length + 76 ∧
          (queuesInfoSize reply : Int) ≤ intMax) := by
  constructor
  · intro reply
    have large : messageBytes xdrWireJobInfoArray reply ≤ jobsInfoSize reply := by
      rw [messageBytes_jobs, jobsInfoSize, packetHeaderSize]
      omega
    have close : jobsInfoSize reply ≤ 3 * messageBytes xdrWireJobInfoArray reply := by
      rw [messageBytes_jobs, jobsInfoSize, packetHeaderSize]
      omega
    rw [replyMessage_isSome_iff hdr close]
    exact ⟨large, and_iff_right large⟩
  · intro reply
    rw [replyMessage_isSome_iff hdr (queues_close reply), queues_fit_iff]
    exact ⟨Iff.rfl, Iff.rfl⟩

def farmHost (i : Fin 37) : CString :=
  ⟨[110, 49, 48, 48 + UInt8.ofNat (i / 10), 48 + UInt8.ofNat (i % 10)], by revert i; decide⟩

def farmHosts : List CString :=
  (List.finRange 37).map farmHost

/-- The reply of a cluster with one queue on these hosts. -/
def farmReply : WireQueueInfoArray where
  queues := ⟨[{
    name := ⟨List.replicate 64 0, length_replicate⟩
    description := ⟨List.replicate 256 0, length_replicate⟩
    hosts := ⟨farmHosts, by decide⟩, users := ⟨[], by decide⟩
    priority := 1, maxJobs := 0, numJobs := 0, numPend := 0, numRun := 0, numSusp := 0
    numHeld := 0, numCpusUsed := 0, numHostsUsed := 0, status := 0 }], by decide⟩

theorem queue_list_refused :
    (farmHosts.map (·.val)).Nodup ∧
      ¬messageBytes xdrWireQueueInfoArray farmReply ≤ queuesInfoSize farmReply ∧
      ¬(replyMessage (queuesInfoSize farmReply) xdrWireQueueInfoArray farmReply
        plainHeader).isSome := by
  have small : ¬messageBytes xdrWireQueueInfoArray farmReply ≤ queuesInfoSize farmReply := by
    rw [queues_fit_iff]
    decide
  refine ⟨by decide, small, ?_⟩
  rw [replyMessage_isSome_iff plainHeader (queues_close farmReply)]
  exact fun sent => small sent.1

end LavaLite.Mbd
