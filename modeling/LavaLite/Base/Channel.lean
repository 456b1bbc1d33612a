import LavaLite.Base.Protocol
import LavaLite.Kernel.Framing
import LavaLite.Kernel.Run

/-
The receiving side of a channel: `doread` collects a message in the buffer at the head of the
receive list, over as many calls as the kernel makes of it, and the consumer takes the buffer
off the list when the channel is readable.
-/

namespace LavaLite.Base

open List

open Kernel (Framing Steps anyStep)

/-! ### Reading -/

/-- `struct chan_buffer`, with the bytes in front of `pos`. -/
structure ChanBuffer where
  data : List UInt8
  pos : Int
  len : Int
  deriving DecidableEq

inductive ChanEvents where
  | epollnone
  | epollin
  | epollerr
  deriving DecidableEq

/-- `struct chan_data`, of which the reader uses the receive list and the events. -/
structure ChanData where
  recv : List ChanBuffer
  events : ChanEvents
  deriving DecidableEq

/-- Which of the allocations of a call succeed. -/
structure Allocations where
  buffer : Bool
  header : Bool
  payload : Bool

/-- What the kernel makes of a `read`. -/
inductive Reading where
  /-- `EAGAIN`, `EWOULDBLOCK` or `EINTR`. -/
  | again
  /-- Another error. -/
  | failed
  /-- The end of the file. -/
  | closed
  /-- At most `n + 1` bytes of those that are there. -/
  | bytes (n : Nat)

/-- The result of `read(sock, _, count)`; no bytes are the end of the file. -/
inductive ReadResult where
  | again
  | failed
  | got (bytes : List UInt8)

/-- The result of a `read` and the bytes still on the socket. -/
def sysRead (reading : Reading) (count : Int) (sock : List UInt8) : ReadResult × List UInt8 :=
  match reading with
  | .again => (.again, sock)
  | .failed => (.failed, sock)
  | .closed => (.got [], sock)
  | .bytes n =>
    if sock = [] then (.again, sock)
    else (.got (sock.take (min (n + 1) count.toNat)), sock.drop (min (n + 1) count.toNat))

def ChanBuffer.extend (b : ChanBuffer) (bytes : List UInt8) : ChanBuffer :=
  { b with data := b.data ++ bytes, pos := b.pos + bytes.length }

/-- The header is complete: parse it and allocate for the payload. -/
def parseHeader (alloc : Allocations) (rcvbuf : ChanBuffer) (rest : List ChanBuffer)
    (events : ChanEvents) : Option ChanData :=
  match xdrPackHdr.decode rcvbuf.data with
  | none => some ⟨rcvbuf :: rest, .epollerr⟩
  | some (hdr, _) =>
    if 0 < hdr.length.toInt then
      -- the size is a sum of `int`s, and has no value beyond `INT32_MAX`
      if intMax < packetHeaderSize + hdr.length.toInt then none
      else if alloc.payload then
        some ⟨{ rcvbuf with len := packetHeaderSize + hdr.length.toInt } :: rest, events⟩
      else some ⟨rcvbuf :: rest, .epollerr⟩
    else if hdr.length.toInt = 0 then some ⟨rcvbuf :: rest, .epollin⟩
    else some ⟨rcvbuf :: rest, events⟩

/-- Both phases of `doread`, on the buffer at the head of the list. -/
def readInto (alloc : Allocations) (reading : Reading) (sock : List UInt8) (rcvbuf : ChanBuffer)
    (rest : List ChanBuffer) (events : ChanEvents) : Option (ChanData × List UInt8) :=
  if rcvbuf.len = packetHeaderSize ∧ rcvbuf.pos < packetHeaderSize then
    match sysRead reading (packetHeaderSize - rcvbuf.pos) sock with
    | (.again, sock) => some (⟨rcvbuf :: rest, events⟩, sock)
    | (.failed, sock) => some (⟨rcvbuf :: rest, .epollerr⟩, sock)
    | (.got [], sock) => some (⟨rcvbuf :: rest, .epollerr⟩, sock)
    | (.got bytes, sock) =>
      let rcvbuf := rcvbuf.extend bytes
      if rcvbuf.pos = packetHeaderSize then
        (parseHeader alloc rcvbuf rest events).map (·, sock)
      else some (⟨rcvbuf :: rest, events⟩, sock)
  else if rcvbuf.pos < rcvbuf.len then
    match sysRead reading (rcvbuf.len - rcvbuf.pos) sock with
    | (.again, sock) => some (⟨rcvbuf :: rest, events⟩, sock)
    | (.failed, sock) => some (⟨rcvbuf :: rest, .epollerr⟩, sock)
    | (.got [], sock) => some (⟨rcvbuf :: rest, .epollerr⟩, sock)
    | (.got bytes, sock) =>
      let rcvbuf := rcvbuf.extend bytes
      some (⟨rcvbuf :: rest, if rcvbuf.pos = rcvbuf.len then .epollin else events⟩, sock)
  else some (⟨rcvbuf :: rest, events⟩, sock)

/-- The channel afterwards and what is left on the socket; `none` is an overflow. -/
def doread (alloc : Allocations) (reading : Reading) (sock : List UInt8) (chan : ChanData) :
    Option (ChanData × List UInt8) :=
  match chan.recv with
  | [] =>
    if alloc.buffer = false then some ({ chan with events := .epollerr }, sock)
    else if alloc.header = false then some (⟨[⟨[], 0, 0⟩], .epollerr⟩, sock)
    else readInto alloc reading sock ⟨[], 0, packetHeaderSize⟩ [] chan.events
  | rcvbuf :: rest =>
    if rcvbuf.len = 0 then
      if alloc.header = false then some ({ chan with events := .epollerr }, sock)
      else readInto alloc reading sock ⟨[], 0, packetHeaderSize⟩ rest chan.events
    else readInto alloc reading sock rcvbuf rest chan.events

/-- `chan_dequeue` on a valid channel. -/
def chanDequeue (chan : ChanData) : Option (ChanBuffer × ChanData) :=
  match chan.recv with
  | [] => none
  | b :: rest => some (b, { chan with recv := rest })

/-! ### A channel and its consumer -/

/-- A channel, the bytes its peer has sent that are not read yet, and what was dequeued. -/
structure Receiver where
  chan : ChanData
  sock : List UInt8
  delivered : List ChanBuffer
  closed : Bool

def Receiver.start (stream : List UInt8) : Receiver :=
  { chan := ⟨[], .epollnone⟩, sock := stream, delivered := [], closed := false }

/-- The consumer takes a message when there is one and closes the channel on an error. -/
def Receiver.consume (r : Receiver) : Receiver :=
  match r.chan.events with
  | .epollnone => r
  | .epollerr => { r with closed := true }
  | .epollin =>
    match chanDequeue r.chan with
    | none => r
    | some (b, chan) => { r with chan := chan, delivered := r.delivered ++ [b] }

def Receiver.after (r : Receiver) (result : Option (ChanData × List UInt8)) : Option Receiver :=
  result.map fun (chan, sock) => { r with chan := chan, sock := sock }.consume

/-- One call of the reader by `chan_epoll`, and the consumer after it. -/
def Receiver.poll (alloc : Allocations) (reading : Reading) (r : Receiver) : Option Receiver :=
  if r.closed then some r
  else r.after (doread alloc reading r.sock ⟨r.chan.recv, .epollnone⟩)

/-! ### Messages as frames -/

def announced (header : List UInt8) : Int :=
  match xdrPackHdr.decode header with
  | none => 0
  | some (hdr, _) => hdr.length.toInt

theorem announced_of_decode {header rest : List UInt8} {hdr : ProtocolHeader}
    (decoded : xdrPackHdr.decode header = some (hdr, rest)) :
    announced header = hdr.length.toInt := by
  unfold announced
  generalize xdrPackHdr.decode header = result at decoded
  subst decoded
  rfl

/-- The lengths for which the size of the message is an `int`. -/
def Announces (header : List UInt8) : Prop :=
  0 ≤ announced header ∧ packetHeaderSize + announced header ≤ intMax

instance (header : List UInt8) : Decidable (Announces header) :=
  inferInstanceAs (Decidable (_ ∧ _))

/-- A message is a header and as many bytes as it announces. -/
def messageFraming : Framing UInt8 where
  size := packetHeaderSize
  size_pos := by decide
  body header := if Announces header then some (announced header).toNat else none

theorem isFrame_of_announced {data : List UInt8} (valid : Announces (data.take packetHeaderSize))
    (length : (data.length : Int) = packetHeaderSize + announced (data.take packetHeaderSize)) :
    messageFraming.IsFrame data := by
  refine ⟨(announced (data.take packetHeaderSize)).toNat, if_pos valid, ?_⟩
  have nonneg := valid.1
  change data.length = packetHeaderSize + _
  omega

def ChanBuffer.whole (data : List UInt8) : ChanBuffer :=
  { data := data, pos := data.length, len := data.length }

theorem parseHeader_eq {alloc : Allocations} {data : List UInt8} {rest : List ChanBuffer}
    {events : ChanEvents} {pos len : Int} (length : data.length = packetHeaderSize) :
    parseHeader alloc ⟨data, pos, len⟩ rest events = if 0 < announced data then
        if intMax < packetHeaderSize + announced data then none else if alloc.payload then
          some ⟨⟨data, pos, packetHeaderSize + announced data⟩ :: rest, events⟩
        else some ⟨⟨data, pos, len⟩ :: rest, .epollerr⟩
      else if announced data = 0 then some ⟨⟨data, pos, len⟩ :: rest, .epollin⟩
      else some ⟨⟨data, pos, len⟩ :: rest, events⟩ := by
  obtain ⟨hdr, decoded⟩ := xdrPackHdr_takes data (Nat.le_of_eq length.symm)
  rw [announced_of_decode decoded]
  unfold parseHeader
  generalize xdrPackHdr.decode data = result at decoded
  subst decoded
  rfl

theorem sysRead_bytes {sock : List UInt8} (n : Nat) {count : Int} (available : sock ≠ [])
    (wanted : 0 < count) :
    ∃ b bytes sock', sysRead (.bytes n) count sock = (.got (b :: bytes), sock') ∧
      sock = b :: bytes ++ sock' ∧ ((b :: bytes).length : Int) ≤ count := by
  have positive : min (n + 1) count.toNat ≠ 0 := by omega
  obtain ⟨b, bytes, taken⟩ : ∃ b bytes, sock.take (min (n + 1) count.toNat) = b :: bytes := by
    apply exists_cons_of_ne_nil
    rw [Ne, take_eq_nil_iff]
    exact not_or.mpr ⟨positive, available⟩
  refine ⟨b, bytes, sock.drop (min (n + 1) count.toNat), ?_, ?_, ?_⟩
  · rw [sysRead, if_neg available, taken]
  · rw [← taken, take_append_drop]
  · rw [← taken, length_take]
    omega

/-! ### What a call can do -/

/-- The receive list of a channel that has read a part of a message. -/
inductive Held : List ChanBuffer → List UInt8 → Prop where
  | empty : Held [] []
  | header {data : List UInt8} (short : data.length < packetHeaderSize) :
      Held [⟨data, data.length, packetHeaderSize⟩] data
  | payload {data : List UInt8} {len : Int} (valid : Announces (data.take packetHeaderSize))
      (size : len = packetHeaderSize + announced (data.take packetHeaderSize))
      (enough : packetHeaderSize ≤ data.length) (short : data.length < len) :
      Held [⟨data, data.length, len⟩] data

theorem Held.unfinished {recv : List ChanBuffer} {held : List UInt8} (holds : Held recv held) :
    messageFraming.Unfinished held := by
  cases holds with
  | empty => exact .inl (by decide)
  | header short => exact .inl short
  | payload valid size enough short =>
    refine .inr ⟨(announced (held.take packetHeaderSize)).toNat, if_pos valid, ?_⟩
    have nonneg := valid.1
    change held.length < packetHeaderSize + _
    omega

/-- The outcome of a call on a channel that holds a part of a message. -/
inductive Polled (alloc : Allocations) (reading : Reading) (r : Receiver) (held : List UInt8) :
    Option Receiver → Prop where
  | waits {recv : List ChanBuffer} (quiet : reading = .again ∨ r.sock = [])
      (holds : Held recv held) :
      Polled alloc reading r held (some { r with chan := ⟨recv, .epollnone⟩ })
  | fails {chan : ChanData} {sock : List UInt8}
      (fault : reading = .failed ∨ reading = .closed ∨ alloc.buffer = false ∨
        alloc.header = false ∨ alloc.payload = false) :
      Polled alloc reading r held (some { r with chan := chan, sock := sock, closed := true })
  | grows {chunk sock : List UInt8} {recv : List ChanBuffer} (split : r.sock = chunk ++ sock)
      (taken : chunk ≠ []) (holds : Held recv (held ++ chunk)) :
      Polled alloc reading r held (some { r with chan := ⟨recv, .epollnone⟩, sock := sock })
  | delivers {chunk sock : List UInt8} (split : r.sock = chunk ++ sock) (taken : chunk ≠ [])
      (isFrame : messageFraming.IsFrame (held ++ chunk)) :
      Polled alloc reading r held (some
        { r with
          chan := ⟨[], .epollin⟩
          sock := sock
          delivered := r.delivered ++ [.whole (held ++ chunk)] })
  | wedges {chunk sock : List UInt8} (split : r.sock = chunk ++ sock) (taken : chunk ≠ [])
      (length : (held ++ chunk).length = packetHeaderSize) (negative : announced (held ++ chunk) < 0) :
      Polled alloc reading r held (some
        { r with
          chan := ⟨[⟨held ++ chunk, packetHeaderSize, packetHeaderSize⟩], .epollnone⟩
          sock := sock })
  | overflows {chunk sock : List UInt8} (split : r.sock = chunk ++ sock)
      (length : (held ++ chunk).length = packetHeaderSize)
      (large : intMax < packetHeaderSize + announced (held ++ chunk)) :
      Polled alloc reading r held none

variable {alloc : Allocations} {reading : Reading} {r : Receiver}

theorem after_quiet (recv : List ChanBuffer) (sock : List UInt8) :
    r.after (some (⟨recv, .epollnone⟩, sock)) =
      some { r with chan := ⟨recv, .epollnone⟩, sock := sock } :=
  rfl

theorem after_readable (b : ChanBuffer) (rest : List ChanBuffer) (sock : List UInt8) :
    r.after (some (⟨b :: rest, .epollin⟩, sock)) =
      some { r with chan := ⟨rest, .epollin⟩, sock := sock, delivered := r.delivered ++ [b] } :=
  rfl

theorem extend_eq (data : List UInt8) (len : Int) (bytes : List UInt8) :
    (⟨data, data.length, len⟩ : ChanBuffer).extend bytes =
      ⟨data ++ bytes, (data ++ bytes).length, len⟩ := by
  rw [length_append]
  rfl

theorem parseHeader_polled {data chunk sock : List UInt8} (split : r.sock = chunk ++ sock)
    (taken : chunk ≠ []) (length : (data ++ chunk).length = packetHeaderSize) :
    Polled alloc reading r data (r.after ((parseHeader alloc
      ⟨data ++ chunk, (data ++ chunk).length, packetHeaderSize⟩ [] .epollnone).map (·, sock))) := by
  have header : (data ++ chunk).take packetHeaderSize = data ++ chunk :=
    take_of_length_le length.le
  rw [parseHeader_eq length]
  split_ifs with positive large granted zero
  · exact .overflows split length large
  · rw [Option.map_some, after_quiet]
    apply Polled.grows split taken
    apply Held.payload
    · rw [header]
      exact ⟨Int.le_of_lt positive, Int.not_lt.mp large⟩
    · rw [header]
    · exact Nat.le_of_eq length.symm
    · omega
  · exact .fails (.inr (.inr (.inr (.inr (by simpa using granted)))))
  · rw [Option.map_some, after_readable]
    have isFrame : messageFraming.IsFrame (data ++ chunk) := by
      apply isFrame_of_announced
      · rw [header, Announces, zero]
        decide
      · rw [header, zero, length, Int.add_zero]
    have whole : (⟨data ++ chunk, (data ++ chunk).length, packetHeaderSize⟩ : ChanBuffer) =
        .whole (data ++ chunk) := by
      rw [ChanBuffer.whole, length]
    rw [whole]
    exact .delivers split taken isFrame
  · rw [Option.map_some, after_quiet, length]
    exact .wedges split taken length (by omega)

theorem readInto_header {data : List UInt8} (short : data.length < packetHeaderSize) :
    Polled alloc reading r data (r.after
      (readInto alloc reading r.sock ⟨data, data.length, packetHeaderSize⟩ [] .epollnone)) := by
  have first : (data.length : Int) < packetHeaderSize := by exact_mod_cast short
  rw [readInto, if_pos ⟨rfl, first⟩]
  cases reading with
  | again => exact .waits (.inl rfl) (.header short)
  | failed => exact .fails (.inl rfl)
  | closed => exact .fails (.inr (.inl rfl))
  | bytes n =>
    by_cases available : r.sock = []
    · have nothing : sysRead (.bytes n) (packetHeaderSize - data.length) r.sock =
          (.again, r.sock) := if_pos available
      simp only [nothing, after_quiet]
      exact .waits (.inr available) (.header short)
    · have wanted : (0 : Int) < packetHeaderSize - data.length := by omega
      obtain ⟨b, bytes, sock, result, split, most⟩ := sysRead_bytes n available wanted
      have length : (data ++ b :: bytes).length = data.length + (b :: bytes).length :=
        length_append
      simp only [result, extend_eq]
      split_ifs with full
      · exact parseHeader_polled split (cons_ne_nil b bytes) (by exact_mod_cast full)
      · rw [after_quiet]
        exact .grows split (cons_ne_nil b bytes) (.header (by omega))

theorem readInto_payload {data : List UInt8} {len : Int}
    (valid : Announces (data.take packetHeaderSize))
    (size : len = packetHeaderSize + announced (data.take packetHeaderSize))
    (enough : packetHeaderSize ≤ data.length) (short : data.length < len) :
    Polled alloc reading r data
      (r.after (readInto alloc reading r.sock ⟨data, data.length, len⟩ [] .epollnone)) := by
  have second : ¬(len = packetHeaderSize ∧ (data.length : Int) < packetHeaderSize) := by omega
  rw [readInto, if_neg second, if_pos short]
  cases reading with
  | again => exact .waits (.inl rfl) (.payload valid size enough short)
  | failed => exact .fails (.inl rfl)
  | closed => exact .fails (.inr (.inl rfl))
  | bytes n =>
    by_cases available : r.sock = []
    · have nothing : sysRead (.bytes n) (len - data.length) r.sock = (.again, r.sock) :=
        if_pos available
      simp only [nothing, after_quiet]
      exact .waits (.inr available) (.payload valid size enough short)
    · have wanted : 0 < len - data.length := by omega
      obtain ⟨b, bytes, sock, result, split, most⟩ := sysRead_bytes n available wanted
      have length : (data ++ b :: bytes).length = data.length + (b :: bytes).length :=
        length_append
      have header : (data ++ b :: bytes).take packetHeaderSize = data.take packetHeaderSize :=
        take_append_of_le_length enough
      have taken := cons_ne_nil b bytes
      simp only [result, extend_eq]
      split_ifs with full
      · rw [after_readable, ← full]
        apply Polled.delivers split taken
        apply isFrame_of_announced
        · rw [header]
          exact valid
        · rw [header, full, size]
      · rw [after_quiet]
        apply Polled.grows split taken
        apply Held.payload
        · rw [header]
          exact valid
        · rw [header]
          exact size
        · omega
        · omega

theorem poll_polled {held : List UInt8} (holds : Held r.chan.recv held)
    (openly : r.closed = false) : Polled alloc reading r held (r.poll alloc reading) := by
  rw [Receiver.poll, openly, if_neg Bool.false_ne_true, doread]
  generalize r.chan.recv = recv at holds
  cases holds with
  | empty =>
    simp only
    split_ifs with buffer header
    · exact .fails (.inr (.inr (.inl buffer)))
    · exact .fails (.inr (.inr (.inr (.inl header))))
    · exact readInto_header (by decide)
  | header short =>
    have begun : (packetHeaderSize : Int) ≠ 0 := by decide
    simp only [if_neg begun]
    exact readInto_header short
  | payload valid size enough short =>
    rename_i len
    have begun : len ≠ 0 := by omega
    simp only [if_neg begun]
    exact readInto_payload valid size enough short

/-! ### Runs -/

/-- A channel has read a stream up to some point: whole messages, and a part of one. -/
structure Reads (stream : List UInt8) (frames : List (List UInt8)) (held : List UInt8)
    (r : Receiver) : Prop where
  openly : r.closed = false
  holds : Held r.chan.recv held
  delivered : r.delivered = frames.map .whole
  isFrame : ∀ x ∈ frames, messageFraming.IsFrame x
  stream_eq : frames.flatten ++ (held ++ r.sock) = stream

/-- A stream of messages that ends anywhere: every header at the front of one announces its size. -/
def Sane (stream : List UInt8) : Prop :=
  ∃ (frames : List (List UInt8)) (tail : List UInt8), stream = frames.flatten ++ tail ∧
    (∀ x ∈ frames, messageFraming.IsFrame x) ∧ messageFraming.Unfinished tail

variable {stream held : List UInt8} {frames : List (List UInt8)}

theorem reads_start (stream : List UInt8) : Reads stream [] [] (.start stream) where
  openly := rfl
  holds := .empty
  delivered := rfl
  isFrame := by simp
  stream_eq := rfl

theorem refused_of_announced {part : List UInt8} (length : part.length = packetHeaderSize)
    (rest : List UInt8) (invalid : ¬Announces part) : messageFraming.Refused (part ++ rest) := by
  constructor
  · rw [length_append, length]
    exact Nat.le_add_right _ _
  · rw [Framing.take_size_append rest length.ge]
    change (if Announces (part.take packetHeaderSize) then _ else _) = _
    rw [take_of_length_le length.le, if_neg invalid]

theorem Reads.announces (reads : Reads stream frames held r) (sane : Sane stream)
    {chunk sock : List UInt8} (split : r.sock = chunk ++ sock)
    (length : (held ++ chunk).length = packetHeaderSize) : Announces (held ++ chunk) := by
  obtain ⟨all, tail, rfl, isFrame, unfinished⟩ := sane
  obtain ⟨more, rfl, rest⟩ := Framing.frames_split reads.isFrame isFrame unfinished reads.stream_eq
  by_contra invalid
  have refused := refused_of_announced length sock invalid
  rw [append_assoc, ← split, rest] at refused
  exact Framing.not_refused (fun x member => isFrame x (mem_append_right _ member)) unfinished
    refused

theorem shorter_of_split {all chunk rest : List UInt8} (split : all = chunk ++ rest)
    (taken : chunk ≠ []) : rest.length < all.length := by
  have positive := length_pos_of_ne_nil taken
  rw [split, length_append]
  omega

/-- A call ends the channel for a fault, or reads on and takes bytes when there are any. -/
def Proceeds (stream : List UInt8) (alloc : Allocations) (reading : Reading) (r r' : Receiver) :
    Prop :=
  r'.closed = true ∧ (reading = .failed ∨ reading = .closed ∨ alloc.buffer = false ∨
      alloc.header = false ∨ alloc.payload = false) ∨
    ∃ frames held, Reads stream frames held r' ∧
      ((reading = .again ∨ r.sock = []) ∧ r'.sock = r.sock ∨ r'.sock.length < r.sock.length)

/-- Deaf or undefined: the header of the next message does not announce a size. -/
def Stuck (r : Receiver) (held : List UInt8) (result : Option Receiver) : Prop :=
  ∃ chunk sock, r.sock = chunk ++ sock ∧ (held ++ chunk).length = packetHeaderSize ∧
    ¬Announces (held ++ chunk) ∧ ∀ r' ∈ result, r'.closed = r.closed ∧
      r'.chan.recv = [⟨held ++ chunk, packetHeaderSize, packetHeaderSize⟩]

theorem Reads.next (reads : Reads stream frames held r) (alloc : Allocations) (reading : Reading) :
    (∃ r', r.poll alloc reading = some r' ∧ Proceeds stream alloc reading r r') ∨
      Stuck r held (r.poll alloc reading) := by
  have polled : Polled alloc reading r held (r.poll alloc reading) :=
    poll_polled reads.holds reads.openly
  generalize r.poll alloc reading = result at polled
  cases polled with
  | waits quiet holds =>
    exact .inl ⟨_, rfl, .inr ⟨frames, held, ⟨reads.openly, holds, reads.delivered, reads.isFrame,
      reads.stream_eq⟩, .inl ⟨quiet, rfl⟩⟩⟩
  | fails fault => exact .inl ⟨_, rfl, .inl ⟨rfl, fault⟩⟩
  | grows split taken holds =>
    refine .inl ⟨_, rfl, .inr ⟨frames, _, ⟨reads.openly, holds, reads.delivered, reads.isFrame, ?_⟩,
      .inr (shorter_of_split split taken)⟩⟩
    rw [append_assoc, ← split, reads.stream_eq]
  | delivers split taken isFrame =>
    rename_i chunk sock
    refine .inl ⟨_, rfl, .inr ⟨frames ++ [held ++ chunk], [], ⟨reads.openly, .empty, ?_, ?_, ?_⟩,
      .inr (shorter_of_split split taken)⟩⟩
    · rw [map_append, ← reads.delivered]
      rfl
    · intro x member
      rcases mem_append.mp member with member | member
      · exact reads.isFrame x member
      · exact mem_singleton.mp member ▸ isFrame
    · rw [flatten_append, flatten_singleton, nil_append, append_assoc,
        append_assoc, ← split, reads.stream_eq]
  | wedges split _ length negative =>
    refine .inr ⟨_, _, split, length, fun valid => absurd valid.1 (Int.not_le.mpr negative), ?_⟩
    intro r' same
    cases same
    exact ⟨rfl, rfl⟩
  | overflows split length large =>
    exact .inr ⟨_, _, split, length, fun valid => absurd valid.2 (Int.not_le.mpr large), nofun⟩

theorem Reads.poll (reads : Reads stream frames held r) (sane : Sane stream) (alloc : Allocations)
    (reading : Reading) :
    ∃ r', r.poll alloc reading = some r' ∧ Proceeds stream alloc reading r r' := by
  rcases reads.next alloc reading with outcome | ⟨_, _, split, length, invalid, _⟩
  · exact outcome
  · exact absurd (reads.announces sane split length) invalid

def granted : Allocations :=
  { buffer := true, header := true, payload := true }

/-- A call that gets at most `n + 1` bytes, or that would block or is interrupted. -/
def arrival : Option Nat → Reading
  | none => .again
  | some n => .bytes n

def Receiver.pollAll (r : Receiver) (arrivals : List (Option Nat)) : Option Receiver :=
  arrivals.foldlM (fun r a => r.poll granted (arrival a)) r

theorem Reads.pollAll (sane : Sane stream) (arrivals : List (Option Nat))
    (reads : Reads stream frames held r) :
    ∃ r' frames' held', r.pollAll arrivals = some r' ∧ Reads stream frames' held' r' ∧
      (r'.sock = [] ∨ r'.sock.length + arrivals.countP Option.isSome ≤ r.sock.length) := by
  induction arrivals generalizing r frames held with
  | nil => exact ⟨r, frames, held, rfl, reads, .inr (Nat.le_refl _)⟩
  | cons a arrivals ih =>
    obtain ⟨r', polled, outcome⟩ := reads.poll sane granted (arrival a)
    have faultless : ¬(arrival a = .failed ∨ arrival a = .closed ∨ granted.buffer = false ∨
        granted.header = false ∨ granted.payload = false) := by
      cases a <;> simp [arrival, granted]
    obtain ⟨frames', held', reads', progress⟩ := outcome.resolve_left fun closed => faultless closed.2
    obtain ⟨last, frames'', held'', run, reads'', ends⟩ := ih reads'
    refine ⟨last, frames'', held'', ?_, reads'', ?_⟩
    · rw [Receiver.pollAll, foldlM_cons, polled]
      exact run
    · rcases ends with done | ends
      · exact .inl done
      have counted : (a :: arrivals).countP Option.isSome ≤
          arrivals.countP Option.isSome + 1 := by
        rw [countP_cons]
        split <;> omega
      rcases progress with ⟨quiet, same⟩ | less
      · rw [same] at ends
        cases a with
        | none => exact .inr ends
        | some n =>
          -- a call that gets bytes and changes nothing finds none
          have nothing : r.sock = [] := quiet.resolve_left (by simp [arrival])
          rw [nothing, length_nil] at ends
          exact .inl (eq_nil_of_length_eq_zero (by omega))
      · exact .inr (by omega)

/-! ### Delivery -/

/-- A message whose header has the length of the payload; its size is an `int`. -/
structure Message where
  hdr : ProtocolHeader
  payload : List UInt8
  length_eq : hdr.length.toInt = payload.length
  fits : (payload.length : Int) ≤ intMax - packetHeaderSize

def Message.bytes (m : Message) : List UInt8 :=
  xdrPackHdr.encode m.hdr ++ m.payload

theorem Message.isFrame (m : Message) : messageFraming.IsFrame m.bytes := by
  have size := length_xdrPackHdr m.hdr
  have header : m.bytes.take packetHeaderSize = xdrPackHdr.encode m.hdr := by
    rw [bytes, ← size, take_left]
  have length : announced (xdrPackHdr.encode m.hdr) = m.payload.length := by
    have decoded := xdrPackHdr.decode_encode m.hdr []
    rw [append_nil] at decoded
    exact (announced_of_decode decoded).trans m.length_eq
  have fits := m.fits
  apply isFrame_of_announced
  · rw [header, Announces, length]
    omega
  · rw [header, length, bytes, length_append, size]
    rfl

theorem sane_messages (messages : List Message) : Sane (messages.flatMap Message.bytes) := by
  refine ⟨messages.map Message.bytes, [], ?_, ?_, .inl (by decide)⟩
  · rw [append_nil, flatMap_def]
  · intro x member
    obtain ⟨m, -, rfl⟩ := List.mem_map.mp member
    exact m.isFrame

/--
For every list of messages and every way their bytes arrive, the channel stays open
and delivers the messages in order, whole and once each: a first part of them always,
and all of them after as many calls that get bytes as there are bytes.
-/
theorem messages_delivered (messages : List Message) (arrivals : List (Option Nat)) :
    ∃ r, (Receiver.start (messages.flatMap Message.bytes)).pollAll arrivals = some r ∧
      r.closed = false ∧
      r.delivered <+: messages.map (fun m => ChanBuffer.whole m.bytes) ∧
      ((messages.flatMap Message.bytes).length ≤ arrivals.countP Option.isSome →
        r.delivered = messages.map (fun m => ChanBuffer.whole m.bytes)) := by
  have isFrame : ∀ x ∈ messages.map Message.bytes, messageFraming.IsFrame x := by
    intro x member
    obtain ⟨m, -, rfl⟩ := List.mem_map.mp member
    exact m.isFrame
  have nothing : messageFraming.Unfinished [] := .inl (by decide)
  obtain ⟨r, frames, held, run, reads, ends⟩ :=
    (reads_start (messages.flatMap Message.bytes)).pollAll (sane_messages messages) arrivals
  have whole : frames.flatten ++ (held ++ r.sock) = (messages.map Message.bytes).flatten ++ [] := by
    rw [reads.stream_eq, append_nil, flatMap_def]
  obtain ⟨more, first, rest⟩ := Framing.frames_split reads.isFrame isFrame nothing whole
  have buffers : messages.map (fun m => ChanBuffer.whole m.bytes) =
      r.delivered ++ more.map ChanBuffer.whole := by
    rw [reads.delivered, ← map_append, ← first, List.map_map]
    rfl
  refine ⟨r, run, reads.openly, ⟨_, buffers.symm⟩, fun enough => ?_⟩
  have read : r.sock = [] := by
    rcases ends with done | ends
    · exact done
    · apply eq_nil_of_length_eq_zero
      change r.sock.length + _ ≤ (messages.flatMap Message.bytes).length at ends
      omega
  -- the part of a message that is held has no message in it
  cases more with
  | nil => rw [buffers, map_nil, append_nil]
  | cons x more =>
    rw [read, append_nil, append_nil, flatten_cons] at rest
    have frame := isFrame x (by rw [first]; simp)
    exact absurd rest (reads.holds.unfinished.not_frame frame)

/-! ### Wedged channels -/

/-- The states a channel reaches on a stream, whatever the kernel and the allocator do. -/
abbrev Reached (stream : List UInt8) : Receiver → Prop :=
  Steps (fun (r : Receiver) (call : Allocations × Reading) => r.poll call.1 call.2) anyStep
    (.start stream)

/-- A call consumed a byte, reported a message or reported an error. -/
def Responded (r r' : Receiver) : Prop :=
  r'.sock.length < r.sock.length ∨ r.delivered.length < r'.delivered.length ∨ r'.closed = true

def Receiver.call (r : Receiver) (arrived : List UInt8 × Allocations × Nat) : Option Receiver :=
  { r with sock := r.sock ++ arrived.1 }.poll arrived.2.1 (.bytes arrived.2.2)

/-- Whatever arrives from now on, no call responds. -/
def Deaf (r : Receiver) : Prop :=
  ∀ r', Steps Receiver.call anyStep r r' → ∀ arrived, ∃ r'', r'.call arrived = some r'' ∧
    ¬Responded { r' with sock := r'.sock ++ arrived.1 } r''

/-- On a stream, every call that finds data responds, and no state is deaf. -/
structure Responsive (stream : List UInt8) : Prop where
  responds : ∀ r, Reached stream r → r.closed = false → r.sock ≠ [] →
    ∀ (alloc : Allocations) (n : Nat), ∃ r', r.poll alloc (.bytes n) = some r' ∧ Responded r r'
  hears : ∀ r, Reached stream r → r.closed = false → ¬Deaf r

theorem Sane.reached (sane : Sane stream) (reached : Reached stream r) (openly : r.closed = false) :
    ∃ frames held, Reads stream frames held r := by
  have known : r.closed = true ∨ ∃ frames held, Reads stream frames held r := by
    refine Steps.invariant (fun r => r.closed = true ∨ ∃ frames held, Reads stream frames held r)
      (.inr ⟨[], [], reads_start stream⟩) ?_ reached
    intro t u call before _ taken
    rcases before with closed | ⟨frames, held, reads⟩
    · have same : t.poll call.1 call.2 = some t := by rw [Receiver.poll, if_pos closed]
      cases same.symm.trans taken
      exact .inl closed
    · obtain ⟨u', polled, outcome⟩ := reads.poll sane call.1 call.2
      cases polled.symm.trans taken
      rcases outcome with ⟨closed, -⟩ | ⟨frames', held', reads', -⟩
      · exact .inl closed
      · exact .inr ⟨frames', held', reads'⟩
  exact known.resolve_left (by rw [openly]; exact Bool.false_ne_true)

theorem Reads.responds (reads : Reads stream frames held r) (sane : Sane stream)
    (available : r.sock ≠ []) (alloc : Allocations) (n : Nat) :
    ∃ r', r.poll alloc (.bytes n) = some r' ∧ Responded r r' := by
  obtain ⟨r', polled, outcome⟩ := reads.poll sane alloc (.bytes n)
  refine ⟨r', polled, ?_⟩
  rcases outcome with ⟨closed, -⟩ | ⟨_, _, -, ⟨quiet, -⟩ | less⟩
  · exact .inr (.inr closed)
  · exact absurd quiet (by simp [available])
  · exact .inl less

theorem Reads.not_deaf (reads : Reads stream frames held r) : ¬Deaf r := by
  intro deaf
  obtain ⟨r', called, silent⟩ := deaf r .refl ([0], granted, 0)
  have polled : Polled granted (.bytes 0) { r with sock := r.sock ++ [0] } held (some r') :=
    called ▸ poll_polled reads.holds reads.openly
  apply silent
  cases polled with
  | waits quiet => exact absurd quiet (by simp)
  | fails fault => exact .inr (.inr rfl)
  | grows split taken | delivers split taken | wedges split taken =>
    exact .inl (shorter_of_split split taken)

/-- A channel whose header announces a negative length never reads again. -/
theorem deaf_of_wedged (data : List UInt8) (openly : r.closed = false)
    (wedged : r.chan.recv = [⟨data, packetHeaderSize, packetHeaderSize⟩]) : Deaf r := by
  have quiet : ∀ {t : Receiver} {arrived : List UInt8 × Allocations × Nat},
      t.closed = false → t.chan.recv = [⟨data, packetHeaderSize, packetHeaderSize⟩] →
        t.call arrived = some { t with
          chan := ⟨[⟨data, packetHeaderSize, packetHeaderSize⟩], .epollnone⟩
          sock := t.sock ++ arrived.1 } := by
    intro t arrived openly wedged
    have begun : (packetHeaderSize : Int) ≠ 0 := by decide
    have full : ¬((packetHeaderSize : Int) = packetHeaderSize ∧
        (packetHeaderSize : Int) < packetHeaderSize) := fun both => absurd both.2 (Int.lt_irrefl _)
    rw [Receiver.call, Receiver.poll, openly, if_neg Bool.false_ne_true, wedged, doread]
    simp only [if_neg begun]
    rw [readInto, if_neg full, if_neg (Int.lt_irrefl _), after_quiet]
  intro r' later arrived
  have kept : r'.closed = false ∧ r'.chan.recv = [⟨data, packetHeaderSize, packetHeaderSize⟩] := by
    refine Steps.invariant (fun r => r.closed = false ∧
      r.chan.recv = [⟨data, packetHeaderSize, packetHeaderSize⟩]) ⟨openly, wedged⟩ ?_ later
    intro t u arrived before _ taken
    cases (quiet before.1 before.2).symm.trans taken
    exact ⟨before.1, rfl⟩
  refine ⟨_, quiet kept.1 kept.2, ?_⟩
  simp [Responded, kept.1]

theorem Reads.sane (responsive : Responsive stream) (reached : Reached stream r)
    (reads : Reads stream frames held r) : Sane stream := by
  induction length : r.sock.length using Nat.strongRecOn generalizing r frames held with
  | _ k ih =>
    by_cases empty : r.sock = []
    · have whole := reads.stream_eq
      rw [empty, append_nil] at whole
      exact ⟨frames, held, whole.symm, reads.isFrame, reads.holds.unfinished⟩
    obtain ⟨r', done, -⟩ := responsive.responds r reached reads.openly empty granted 0
    have later : Reached stream r' := reached.tail ⟨(granted, .bytes 0), trivial, done⟩
    rcases reads.next granted (.bytes 0) with ⟨_, polled, outcome⟩ | ⟨_, _, _, _, _, wedged⟩
    · cases polled.symm.trans done
      rcases outcome with ⟨-, fault⟩ | ⟨_, _, reads', ⟨quiet, -⟩ | less⟩
      · simp [granted] at fault
      · simp [empty] at quiet
      · exact ih _ (length ▸ less) later reads' rfl
    · obtain ⟨openly, recv⟩ := wedged r' done
      exact absurd (deaf_of_wedged _ (openly.trans reads.openly) recv)
        (responsive.hears r' later (openly.trans reads.openly))

/--
A channel responds to all data that comes, and goes on doing so, exactly when every
header at the front of a message announces a length for which the size of the message
is an `int`.
-/
theorem responsive_iff (stream : List UInt8) : Responsive stream ↔ Sane stream := by
  constructor
  · intro responsive
    exact (reads_start stream).sane responsive .refl
  · intro sane
    constructor
    · intro r reached openly available alloc n
      obtain ⟨frames, held, reads⟩ := sane.reached reached openly
      exact reads.responds sane available alloc n
    · intro r reached openly
      obtain ⟨frames, held, reads⟩ := sane.reached reached openly
      exact reads.not_deaf

theorem length_zeros : (List.replicate 32 (0 : UInt8)).length = 32 :=
  length_replicate

def negativeHeader : ProtocolHeader :=
  { sequence := 0, operation := 0, version := 131072, length := -1, status := 0, uid := 0, gid := 0
    timestamp := 0, hmac := ⟨List.replicate 32 0, length_zeros⟩ }

theorem negativeHeader_deaf :
    ∃ r, Reached (xdrPackHdr.encode negativeHeader ++ [0]) r ∧ r.closed = false ∧ r.sock = [0] ∧
      Deaf r := by
  have polled : (Receiver.start (xdrPackHdr.encode negativeHeader ++ [0])).poll granted (.bytes 63) =
      some ⟨⟨[⟨xdrPackHdr.encode negativeHeader, packetHeaderSize, packetHeaderSize⟩], .epollnone⟩,
        [0], [], false⟩ := by
    rfl
  refine ⟨_, .single ⟨(granted, .bytes 63), trivial, polled⟩, rfl, rfl, ?_⟩
  exact deaf_of_wedged (xdrPackHdr.encode negativeHeader) rfl rfl

end LavaLite.Base
