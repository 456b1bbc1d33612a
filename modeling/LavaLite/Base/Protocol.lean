import Mathlib.Data.List.Induction
import Mathlib.Data.List.TakeWhile
import LavaLite.Kernel.Codec
import LavaLite.Base.CText

/-
The XDR primitives, messages in memory, and signed headers.  The encoder writes the payload
first and goes back to write the header; the digest is taken with the length set to zero,
which is only known after the header has been signed.
-/

namespace LavaLite.Base

open List

open Kernel (Block Codec)

/-! ### Words -/

/-- The low `n` bytes of a number, most significant first. -/
def toBytes : Nat → Nat → List UInt8
  | 0, _ => []
  | n + 1, v => toBytes n (v / 256) ++ [UInt8.ofNat v]

def ofBytes (bytes : List UInt8) : Nat :=
  bytes.foldl (fun v b => v * 256 + b.toNat) 0

@[simp]
theorem length_toBytes (n v : Nat) : (toBytes n v).length = n := by
  induction n generalizing v with
  | zero => rfl
  | succ n ih => simp [toBytes, ih]

theorem ofBytes_concat (bytes : List UInt8) (b : UInt8) :
    ofBytes (bytes ++ [b]) = ofBytes bytes * 256 + b.toNat := by
  simp [ofBytes]

theorem ofBytes_toBytes {n v : Nat} (fits : v < 256 ^ n) : ofBytes (toBytes n v) = v := by
  induction n generalizing v with
  | zero =>
    rw [Nat.pow_zero, Nat.lt_one_iff] at fits
    rw [fits]
    rfl
  | succ n ih =>
    have high : v / 256 < 256 ^ n := Nat.div_lt_of_lt_mul (Nat.pow_succ' ▸ fits)
    rw [toBytes, ofBytes_concat, ih high, UInt8.toNat_ofNat']
    omega

theorem ofBytes_lt (bytes : List UInt8) : ofBytes bytes < 256 ^ bytes.length := by
  induction bytes using List.reverseRecOn with
  | nil => exact Nat.one_pos
  | append_singleton bytes b ih =>
    have small := b.toNat_lt
    rw [ofBytes_concat, length_append, length_singleton, Nat.pow_succ]
    omega

def word (n : Nat) : Codec UInt8 { v // v < 256 ^ n } :=
  (Codec.raw n).map (fun l => ⟨ofBytes l.val, lt_of_lt_of_eq (ofBytes_lt l.val) (by rw [l.property])⟩)
    (fun v => ⟨toBytes n v.val, length_toBytes n v.val⟩)
    fun v => Subtype.ext (ofBytes_toBytes v.property)

def xdrUint32 : Codec UInt8 UInt32 :=
  (word 4).map (fun v => UInt32.ofNat v.val) (fun u => ⟨u.toNat, u.toNat_lt⟩)
    fun _ => UInt32.ofNat_toNat

/-- `xdr_int32_t`: the two's complement of the number. -/
def xdrInt32 : Codec UInt8 Int32 :=
  xdrUint32.map UInt32.toInt32 Int32.toUInt32 fun _ => rfl

def xdrUint64 : Codec UInt8 UInt64 :=
  (word 8).map (fun v => UInt64.ofNat v.val) (fun u => ⟨u.toNat, u.toNat_lt⟩)
    fun _ => UInt64.ofNat_toNat

def xdrInt64 : Codec UInt8 Int64 :=
  xdrUint64.map UInt64.toInt64 Int64.toUInt64 fun _ => rfl

/-- The 64 bits of a C `double`. -/
structure Double where
  bits : UInt64
  deriving DecidableEq

def xdrDouble : Codec UInt8 Double :=
  xdrUint64.map Double.mk Double.bits fun _ => rfl

theorem length_xdrUint32 (u : UInt32) : (xdrUint32.encode u).length = 4 :=
  length_toBytes 4 u.toNat

theorem length_xdrInt32 (v : Int32) : (xdrInt32.encode v).length = 4 :=
  length_xdrUint32 v.toUInt32

theorem xdrUint32_takes : xdrUint32.Takes 4 :=
  ((Codec.raw_takes 4).map _ _ _).map _ _ _

theorem xdrInt32_takes : xdrInt32.Takes 4 :=
  xdrUint32_takes.map _ _ _

/-! ### Blocks, strings and arrays -/

def padding (n : Nat) : List UInt8 :=
  List.replicate ((4 - n % 4) % 4) 0

/-- `xdr_opaque(xdrs, p, n)` on an array of `n` bytes. -/
def xdrOpaque (n : Nat) : Codec UInt8 (Block UInt8 n) :=
  (Codec.raw n).filled (padding n)

theorem length_xdrOpaque {n : Nat} (l : Block UInt8 n) :
    ((xdrOpaque n).encode l).length = n + (4 - n % 4) % 4 := by
  change (l.val ++ padding n).length = _
  rw [length_append, l.property, padding, length_replicate]

theorem xdrOpaque_takes (n : Nat) : (xdrOpaque n).Takes (n + (padding n).length) :=
  (Codec.raw_takes n).filled _

/-- A length of at most `limit`; a greater one is refused by the reader. -/
def xdrCount (limit : Nat) (fits : limit < 4294967296) : Codec UInt8 { n // n ≤ limit } :=
  ((word 4).restrict (·.val ≤ limit)).map (fun v => ⟨v.val.val, v.property⟩)
    (fun n => ⟨⟨n.val, Nat.lt_of_le_of_lt n.property fits⟩, n.property⟩) fun _ => rfl

/-- A byte array and its `u_int` length. -/
abbrev Bytes := { l : List UInt8 // l.length ≤ 4294967295 }

/-- `xdr_bytes(xdrs, &data, &len, UINT32_MAX)`. -/
def xdrBytes : Codec UInt8 Bytes :=
  Codec.counted (xdrCount 4294967295 (by decide)) xdrOpaque

theorem length_xdrBytes (data : Bytes) : (xdrBytes.encode data).length =
      4 + (data.val.length + (4 - data.val.length % 4) % 4) := by
  change (toBytes 4 data.val.length ++ (xdrOpaque data.val.length).encode ⟨data.val, rfl⟩).length = _
  rw [length_append, length_toBytes, length_xdrOpaque]

/-- A terminated string that `xdr_string` accepts: its buffer is one byte longer than the text. -/
abbrev CString := { l : List UInt8 // 0 ∉ l ∧ l.length ≤ 4294967294 }

/-- What is read ends at its first zero byte. -/
def xdrWrapstring : Codec UInt8 CString :=
  (Codec.counted (xdrCount 4294967294 (by decide)) xdrOpaque).map
    (fun l => ⟨l.val.takeWhile (· ≠ 0), by
      refine ⟨fun zero => ?_, Nat.le_trans (takeWhile_sublist _).length_le l.property⟩
      simpa using mem_takeWhile_imp zero⟩)
    (fun s => ⟨s.val, s.property.2⟩) fun s => by
      apply Subtype.ext
      apply takeWhile_eq_self_iff.mpr
      intro b member
      exact decide_eq_true fun zero => s.property.1 (zero ▸ member)

/-- The most elements `xdr_array` takes: `INT32_MAX`, and no more than `UINT_MAX` bytes of them. -/
def arrayLimit (size : Nat) : Nat :=
  min 2147483647 (4294967295 / size)

theorem arrayLimit_lt (size : Nat) : arrayLimit size < 4294967296 :=
  Nat.lt_of_le_of_lt (Nat.min_le_left _ _) (by decide)

/-- An array of structures of `size` bytes and the number of its elements. -/
abbrev CArray (size : Nat) (α : Type) := { l : List α // l.length ≤ arrayLimit size }

/-- `xdr_array(xdrs, &p, &n, INT32_MAX, size, xdr_func)`. -/
def xdrArray {α : Type} (size : Nat) (element : Codec UInt8 α) : Codec UInt8 (CArray size α) :=
  Codec.counted (xdrCount (arrayLimit size) (arrayLimit_lt size)) element.items

/-! ### Messages -/

open Kernel (Block Codec Fields)

/-! ### The header -/

/-- `PACKET_HEADER_SIZE`, the size of `struct protocol_header`. -/
def packetHeaderSize : Nat := 64

structure ProtocolHeader where
  sequence : Int32
  operation : Int32
  version : Int32
  length : Int32
  status : Int32
  uid : UInt32
  gid : UInt32
  timestamp : UInt32
  hmac : Block UInt8 32
  deriving DecidableEq

/-- The version goes in front of the operation. -/
def xdrPackHdr : Codec UInt8 ProtocolHeader :=
  Fields.start (fun sequence version operation length status uid gid timestamp hmac =>
      { sequence, operation, version, length, status, uid, gid, timestamp, hmac })
    |>.field xdrInt32 ProtocolHeader.sequence
    |>.field xdrInt32 ProtocolHeader.version
    |>.field xdrInt32 ProtocolHeader.operation
    |>.field xdrInt32 ProtocolHeader.length
    |>.field xdrInt32 ProtocolHeader.status
    |>.field xdrUint32 ProtocolHeader.uid
    |>.field xdrUint32 ProtocolHeader.gid
    |>.field xdrUint32 ProtocolHeader.timestamp
    |>.field (xdrOpaque 32) ProtocolHeader.hmac
    |>.codec fun _ => rfl

theorem length_xdrPackHdr (hdr : ProtocolHeader) :
    (xdrPackHdr.encode hdr).length = packetHeaderSize := by
  simp only [xdrPackHdr, Fields.codec, Fields.field, Fields.start, length_append,
    length_nil, length_xdrInt32, length_xdrUint32, length_xdrOpaque]
  rfl

theorem xdrPackHdr_takes : xdrPackHdr.Takes packetHeaderSize :=
  ((((((((((Fields.start_takes _).field xdrInt32_takes ProtocolHeader.sequence).field
    xdrInt32_takes ProtocolHeader.version).field xdrInt32_takes ProtocolHeader.operation).field
    xdrInt32_takes ProtocolHeader.length).field xdrInt32_takes ProtocolHeader.status).field
    xdrUint32_takes ProtocolHeader.uid).field xdrUint32_takes ProtocolHeader.gid).field
    xdrUint32_takes ProtocolHeader.timestamp).field (xdrOpaque_takes 32) ProtocolHeader.hmac).codec
    fun _ => rfl

/-! ### The memory stream -/

/-- The stream `xdrmem_create` makes over a buffer, whose size is a `u_int`. -/
structure XdrMem where
  bytes : List UInt8
  pos : Nat
  pos_le : pos ≤ bytes.length
  size_lt : bytes.length < 4294967296

namespace XdrMem

/-- `xdr_setpos`; a position behind the buffer is refused, which no caller looks at. -/
def setpos (m : XdrMem) (pos : Nat) : XdrMem :=
  if within : pos ≤ m.bytes.length then { m with pos := pos, pos_le := within } else m

/-- Write at the position; `none` is the failure for want of room. -/
def put (m : XdrMem) (written : List UInt8) : Option XdrMem :=
  if room : m.pos + written.length ≤ m.bytes.length then
    have same : (m.bytes.take m.pos ++ (written ++ m.bytes.drop (m.pos + written.length))).length =
        m.bytes.length := by
      simp only [length_append, length_take, length_drop]
      omega
    some
      { bytes := m.bytes.take m.pos ++ (written ++ m.bytes.drop (m.pos + written.length))
        pos := m.pos + written.length
        pos_le := by rw [same]; exact room
        size_lt := by rw [same]; exact m.size_lt }
  else none

def written (m : XdrMem) : List UInt8 :=
  m.bytes.take m.pos

theorem setpos_bytes (m : XdrMem) (pos : Nat) : (m.setpos pos).bytes = m.bytes := by
  unfold setpos
  split <;> rfl

theorem setpos_pos {m : XdrMem} {pos : Nat} (within : pos ≤ m.bytes.length) :
    (m.setpos pos).pos = pos := by
  rw [setpos, dif_pos within]

theorem put_spec (m : XdrMem) (written : List UInt8)
    (room : m.pos + written.length ≤ m.bytes.length) :
    ∃ m', m.put written = some m' ∧ m'.pos = m.pos + written.length ∧
      m'.bytes = m.bytes.take m.pos ++ (written ++ m.bytes.drop (m.pos + written.length)) := by
  rw [put, dif_pos room]
  exact ⟨_, rfl, rfl, rfl⟩

end XdrMem

/-! ### The encoder -/

variable {α β : Type} {m : XdrMem} {body : List UInt8} {c : Codec UInt8 α}

def payloadBytes (c : Codec UInt8 α) : Option α → List UInt8
  | none => []
  | some v => c.encode v

/-- What both encoders do around the bytes of their payloads. -/
def encodeFrame (m : XdrMem) (body : List UInt8) (hdr : ProtocolHeader) :
    Option (XdrMem × ProtocolHeader) := do
  let m ← (m.setpos packetHeaderSize).put body
  -- the `u_int` difference is cast to `int`
  let hdr := { hdr with length := Int32.ofInt (m.pos - packetHeaderSize) }
  let m ← (m.setpos 0).put (xdrPackHdr.encode hdr)
  -- the sum is one of `int`s, and has no value beyond `INT32_MAX`
  let last := hdr.length.toInt + packetHeaderSize
  if intMax < last then none
  else some (m.setpos (last % 4294967296).toNat, hdr)

/--
The stream and the header it leaves. `none` stands for the return value `false` and for
the overflow of the last sum.
-/
def llEncodeMsg (m : XdrMem) (payload : Option α) (c : Codec UInt8 α) (hdr : ProtocolHeader) :
    Option (XdrMem × ProtocolHeader) :=
  encodeFrame m (payloadBytes c payload) hdr

def ProtocolHeader.withLength (hdr : ProtocolHeader) (n : Nat) : ProtocolHeader :=
  { hdr with length := Int32.ofInt n }

theorem encodeFrame_eq (hdr : ProtocolHeader)
    (room : packetHeaderSize + body.length ≤ m.bytes.length) :
    ∃ m' : XdrMem, m'.bytes = xdrPackHdr.encode (hdr.withLength body.length) ++ (body ++
        m.bytes.drop (packetHeaderSize + body.length)) ∧ encodeFrame m body hdr =
        if intMax < (hdr.withLength body.length).length.toInt + packetHeaderSize then none
        else some (m'.setpos
          (((hdr.withLength body.length).length.toInt + packetHeaderSize) % 4294967296).toNat,
          hdr.withLength body.length) := by
  have front : (m.setpos packetHeaderSize).pos = packetHeaderSize :=
    XdrMem.setpos_pos (by omega)
  have bytes := m.setpos_bytes packetHeaderSize
  obtain ⟨m₁, put₁, pos₁, bytes₁⟩ := (m.setpos packetHeaderSize).put_spec body
    (by rw [front, bytes]; exact room)
  rw [front, bytes] at bytes₁
  rw [front] at pos₁
  have taken : (m.bytes.take packetHeaderSize).length = packetHeaderSize :=
    length_take_of_le (by omega)
  have start : (m₁.setpos 0).pos = 0 := XdrMem.setpos_pos (Nat.zero_le _)
  have bytes₂ := m₁.setpos_bytes 0
  have size := length_xdrPackHdr (hdr.withLength body.length)
  have fits : (m₁.setpos 0).pos + (xdrPackHdr.encode (hdr.withLength body.length)).length ≤
      (m₁.setpos 0).bytes.length := by
    rw [start, size, bytes₂, bytes₁, length_append, taken]
    omega
  obtain ⟨m₂, put₂, -, whole⟩ := (m₁.setpos 0).put_spec _ fits
  have difference : ((m₁.pos : Int) - packetHeaderSize) = body.length := by
    rw [pos₁]
    omega
  refine ⟨m₂, ?_, ?_⟩
  · rw [whole, start, size, bytes₂, bytes₁, take_zero, nil_append, Nat.zero_add]
    rw [drop_append_of_le_length taken.ge, drop_of_length_le taken.le, nil_append]
  · rw [encodeFrame, put₁, Option.bind_eq_bind, Option.bind_some]
    simp only [difference]
    change ((m₁.setpos 0).put (xdrPackHdr.encode (hdr.withLength body.length))).bind _ = _
    rw [put₂]
    rfl

/--
The bytes of a message hold the header and the payload: with anything behind them,
the header is read first, then the payload from as many bytes as the header says.
-/
def Carries (bytes : List UInt8) (hdr : ProtocolHeader) (c : Codec UInt8 α) (payload : Option α) :
    Prop :=
  ∃ body : List UInt8, (body.length : Int) = hdr.length.toInt ∧ ∀ rest,
    xdrPackHdr.decode (bytes ++ rest) = some (hdr, body ++ rest) ∧
      ∀ v ∈ payload, c.decode (body ++ rest) = some (v, rest)

theorem withLength_bmod (hdr : ProtocolHeader) (n : Nat) :
    (hdr.withLength n).length.toInt = (n : Int).bmod 4294967296 :=
  Int32.toInt_ofInt

theorem withLength_toInt {hdr : ProtocolHeader} {n : Nat} (fits : (n : Int) ≤ intMax) :
    (hdr.withLength n).length.toInt = n := by
  unfold intMax at fits
  rw [withLength_bmod]
  apply Int.bmod_eq_of_le <;> omega

theorem encodeFrame_of_fits (hdr : ProtocolHeader)
    (room : packetHeaderSize + body.length ≤ m.bytes.length)
    (fits : (body.length : Int) + packetHeaderSize ≤ intMax) :
    ∃ m', encodeFrame m body hdr = some (m', hdr.withLength body.length) ∧
      m'.written = xdrPackHdr.encode (hdr.withLength body.length) ++ body := by
  obtain ⟨m', bytes, encoded⟩ := encodeFrame_eq hdr room
  have size := length_xdrPackHdr (hdr.withLength body.length)
  have length : (hdr.withLength body.length).length.toInt = body.length :=
    withLength_toInt (by omega)
  have last : (((body.length : Int) + packetHeaderSize) % 4294967296).toNat =
      packetHeaderSize + body.length := by
    unfold intMax at fits
    omega
  have end_ : (m'.setpos (packetHeaderSize + body.length)).pos = packetHeaderSize + body.length := by
    apply XdrMem.setpos_pos
    rw [bytes, length_append, length_append, size]
    omega
  rw [length, if_neg (Int.not_lt.mpr fits), last] at encoded
  refine ⟨_, encoded, ?_⟩
  rw [XdrMem.written, end_, XdrMem.setpos_bytes, bytes, ← append_assoc]
  apply take_left'
  rw [length_append, size]

theorem encodeFrame_carries_iff {payload : Option α} (hdr : ProtocolHeader)
    (room : packetHeaderSize + (payloadBytes c payload).length ≤ m.bytes.length) :
    (∃ m' hdr', llEncodeMsg m payload c hdr = some (m', hdr') ∧ Carries m'.written hdr' c payload) ↔
      ((payloadBytes c payload).length : Int) + packetHeaderSize ≤ intMax := by
  constructor
  · rintro ⟨m', hdr', encoded, body, length, -⟩
    obtain ⟨m'', -, same⟩ := encodeFrame_eq hdr room
    rw [llEncodeMsg, same] at encoded
    split at encoded
    · cases encoded
    · next small =>
      -- a length that is not negative is the length of the payload itself
      cases encoded
      have room := Nat.lt_of_le_of_lt room m.size_lt
      rw [withLength_bmod, Int.bmod_def] at length small
      unfold packetHeaderSize at *
      omega
  · intro fits
    obtain ⟨m', encoded, written⟩ := encodeFrame_of_fits hdr room fits
    refine ⟨m', _, encoded, payloadBytes c payload, ?_, fun rest => ⟨?_, ?_⟩⟩
    · exact (withLength_toInt (by omega)).symm
    · rw [written, append_assoc, xdrPackHdr.decode_encode]
    · intro v same
      rw [Option.mem_def.mp same]
      exact c.decode_encode v rest

/-! ### Authentication -/

open Kernel (Block)

inductive ByteOrder where
  | big
  | little
  deriving DecidableEq, Repr

def ByteOrder.store (order : ByteOrder) (n v : Nat) : List UInt8 :=
  match order with
  | .big => toBytes n v
  | .little => (toBytes n v).reverse

/-- The 64 bytes of a header in memory; here the operation is in front of the version. -/
def ProtocolHeader.memory (order : ByteOrder) (hdr : ProtocolHeader) : List UInt8 :=
  order.store 4 hdr.sequence.toUInt32.toNat ++ order.store 4 hdr.operation.toUInt32.toNat ++
    order.store 4 hdr.version.toUInt32.toNat ++ order.store 4 hdr.length.toUInt32.toNat ++
    order.store 4 hdr.status.toUInt32.toNat ++ order.store 4 hdr.uid.toNat ++
    order.store 4 hdr.gid.toNat ++ order.store 4 hdr.timestamp.toNat ++ hdr.hmac.val

/-- `AUTH_KEY_SIZE` bytes, the size of the key and of the digest. -/
abbrev AuthKey := Block UInt8 32

/-- The static variables of `auth.c`, with the key already loaded. -/
structure AuthState where
  key : AuthKey
  required : Bool
  allowedAge : UInt32
  order : ByteOrder

/-- `HMAC(EVP_sha256(), …)`, of which nothing is assumed. -/
abbrev Hmac := AuthKey → List UInt8 → Block UInt8 32

def zeroDigest : Block UInt8 32 :=
  ⟨List.replicate 32 0, List.length_replicate⟩

variable (hmac : Hmac)

def computeHmac (auth : AuthState) (hdr : ProtocolHeader) : Block UInt8 32 :=
  hmac auth.key ({ hdr with hmac := zeroDigest, length := 0 }.memory auth.order)

/-- `auth_sign_header` in a process with these ids at a time. -/
def authSignHeader (auth : AuthState) (uid gid : UInt32) (now : Nat) (hdr : ProtocolHeader) :
    ProtocolHeader :=
  let hdr := { hdr with
    uid := uid
    gid := gid
    timestamp := UInt32.ofNat now
    hmac := zeroDigest }
  { hdr with hmac := computeHmac hmac auth hdr }

/-- How `auth_verify_header` ends: with 0, or with -1 and an error number. -/
inductive AuthResult where
  | verified
  | eacces
  | etimedout
  deriving DecidableEq, Repr

/-- The window of a process that has not read a configuration, `AUTH_MAX_AGE`. -/
def authMaxAge : UInt32 := 60

/-- `auth_init` with the key already loaded.  A window of 0 leaves the one that stands there. -/
def authInit (key : AuthKey) (order : ByteOrder) (required : Bool) (allowedAge : UInt32) :
    AuthState where
  key := key
  required := required
  allowedAge := if 0 < allowedAge then allowedAge else authMaxAge
  order := order

/--
The age in `auth_verify_header`, a difference of `int32_t`s or its opposite.  Both wrap, as
they do in the daemons that are built from the source.
-/
def headerAge (now : Nat) (hdr : ProtocolHeader) : Int32 :=
  let age := (UInt32.ofNat now).toInt32 - hdr.timestamp.toInt32
  if age < 0 then -age else age

/-- `auth_verify_header` at a time. -/
def authVerifyHeader (auth : AuthState) (now : Nat) (hdr : ProtocolHeader) : AuthResult :=
  if auth.required = false then .verified
  else if computeHmac hmac auth hdr ≠ hdr.hmac then .eacces
  else if auth.allowedAge.toInt32 < headerAge now hdr then .etimedout
  else .verified

variable {hmac}

theorem authSignHeader_congr {auth peer : AuthState} (sameKey : auth.key = peer.key)
    (sameOrder : auth.order = peer.order) (uid gid : UInt32) (now : Nat) (hdr : ProtocolHeader) :
    authSignHeader hmac auth uid gid now hdr = authSignHeader hmac peer uid gid now hdr := by
  simp only [authSignHeader, computeHmac, sameKey, sameOrder]

theorem toInt_toInt32 (x : UInt32) : x.toInt32.toInt = (x.toNat : Int).bmod 4294967296 :=
  BitVec.toInt_eq_toNat_bmod x.toBitVec

/-- The distance of two clock values on the circle of `uint32_t`. -/
def circularDistance (a b : UInt32) : Nat :=
  min (a - b).toNat (b - a).toNat

/-- Halfway round the circle the age is the least `int32_t`, and below every window. -/
theorem toInt_headerAge (now : Nat) (hdr : ProtocolHeader) :
    (headerAge now hdr).toInt =
      if circularDistance (UInt32.ofNat now) hdr.timestamp = 2147483648 then -2147483648
      else (circularDistance (UInt32.ofNat now) hdr.timestamp : Int) := by
  have clockSmall := (UInt32.ofNat now).toNat_lt
  have stampSmall := hdr.timestamp.toNat_lt
  simp only [headerAge, apply_ite Int32.toInt, Int32.toInt_neg, Int32.lt_iff_toInt_lt,
    Int32.toInt_sub, toInt_toInt32, circularDistance, UInt32.toNat_sub, Int32.toInt_zero]
  generalize (UInt32.ofNat now).toNat = c at *
  generalize hdr.timestamp.toNat = t at *
  simp only [Int.bmod_def]
  split_ifs <;> omega

/-- A signed header is verified when its age is not above the window, both as `int32_t`s. -/
theorem authVerifyHeader_eq_verified_iff {auth : AuthState} {now : Nat} {hdr : ProtocolHeader}
    (required : auth.required = true) (same : computeHmac hmac auth hdr = hdr.hmac) :
    authVerifyHeader hmac auth now hdr = .verified ↔
      (if circularDistance (UInt32.ofNat now) hdr.timestamp = 2147483648 then -2147483648
        else (circularDistance (UInt32.ofNat now) hdr.timestamp : Int)) ≤
          (auth.allowedAge.toNat : Int).bmod 4294967296 := by
  rw [← toInt_headerAge, ← toInt_toInt32, ← Int.not_lt, ← Int32.lt_iff_toInt_lt, authVerifyHeader,
    if_neg (by simp [required]), if_neg (not_not_intro same)]
  split <;> simp [*]

def InWindow (auth : AuthState) (signed now : Nat) : Prop :=
  now ≤ signed + auth.allowedAge.toNat ∧ signed ≤ now + auth.allowedAge.toNat

/-- The window is an `int32_t`, or the clock is half its circle away from the signature. -/
def AgeDefined (auth : AuthState) (signed now : Nat) : Prop :=
  (auth.allowedAge.toNat : Int) ≤ intMax ∨
    circularDistance (UInt32.ofNat now) (UInt32.ofNat signed) = 2147483648

instance (auth : AuthState) (signed now : Nat) : Decidable (InWindow auth signed now) :=
  inferInstanceAs (Decidable (_ ∧ _))

theorem authVerifyHeader_signed_iff {auth : AuthState} {uid gid : UInt32} {signed now : Nat}
    {hdr : ProtocolHeader} (n : Nat) (window : InWindow auth signed now) :
    authVerifyHeader hmac auth now ((authSignHeader hmac auth uid gid signed hdr).withLength n) =
        .verified ↔ (auth.required = true → AgeDefined auth signed now) := by
  cases required : auth.required with
  | false => simp [authVerifyHeader, required]
  | true =>
    -- neither the length nor the digest itself is in the digest
    have same : computeHmac hmac auth ((authSignHeader hmac auth uid gid signed hdr).withLength n) =
        ((authSignHeader hmac auth uid gid signed hdr).withLength n).hmac := rfl
    have small := auth.allowedAge.toNat_lt
    obtain ⟨later, earlier⟩ := window
    rw [authVerifyHeader_eq_verified_iff required same, Int.bmod_def, AgeDefined]
    simp only [authSignHeader, ProtocolHeader.withLength, circularDistance, UInt32.toNat_sub,
      UInt32.toNat_ofNat', intMax, forall_const]
    split_ifs <;> omega

/-- The header carries its own digest, and its timestamp is within a window of the clock. -/
def Fresh (hmac : Hmac) (auth : AuthState) (allowedAge : UInt32) (now : Nat)
    (hdr : ProtocolHeader) : Prop :=
  computeHmac hmac auth hdr = hdr.hmac ∧
    circularDistance (UInt32.ofNat now) hdr.timestamp ≤ allowedAge.toNat

/--
The timestamp is not half the circle away from the clock, and a configured window of 0 makes
no difference: the header is of this very second, or too old for the other window too.
-/
def WindowCounts (allowedAge : UInt32) (now : Nat) (hdr : ProtocolHeader) : Prop :=
  circularDistance (UInt32.ofNat now) hdr.timestamp ≠ 2147483648 ∧
    (allowedAge = 0 → circularDistance (UInt32.ofNat now) hdr.timestamp = 0 ∨
      authMaxAge.toNat < circularDistance (UInt32.ofNat now) hdr.timestamp)

instance (allowedAge : UInt32) (now : Nat) (hdr : ProtocolHeader) :
    Decidable (WindowCounts allowedAge now hdr) :=
  inferInstanceAs (Decidable (_ ∧ _))

/--
With authentication required and a configured window that is an `int32_t`, the result is the
one that freshness asks for exactly when the digest is wrong or the window counts.
-/
theorem verified_iff_fresh_iff {hmac : Hmac} {key : AuthKey} {order : ByteOrder}
    {allowedAge : UInt32} (window : (allowedAge.toNat : Int) ≤ intMax) (now : Nat)
    (hdr : ProtocolHeader) :
    (authVerifyHeader hmac (authInit key order true allowedAge) now hdr = .verified ↔
        Fresh hmac (authInit key order true allowedAge) allowedAge now hdr) ↔
      (computeHmac hmac (authInit key order true allowedAge) hdr = hdr.hmac →
        WindowCounts allowedAge now hdr) := by
  by_cases same : computeHmac hmac (authInit key order true allowedAge) hdr = hdr.hmac
  · have configured : allowedAge = 0 ↔ allowedAge.toNat = 0 := UInt32.toNat_inj.symm
    have kept : (authInit key order true allowedAge).allowedAge.toNat =
        if allowedAge.toNat = 0 then 60 else allowedAge.toNat := by
      by_cases zero : allowedAge.toNat = 0
      · rw [if_pos zero, configured.mpr zero]; rfl
      · have positive : 0 < allowedAge := UInt32.lt_iff_toNat_lt.mpr (Nat.pos_of_ne_zero zero)
        rw [if_neg zero]
        exact congrArg UInt32.toNat (if_pos positive)
    have limit : authMaxAge.toNat = 60 := rfl
    rw [authVerifyHeader_eq_verified_iff rfl same, kept, Int.bmod_def, Fresh, WindowCounts,
      configured, limit]
    simp only [same, true_and, true_imp_iff, intMax] at window ⊢
    generalize circularDistance (UInt32.ofNat now) hdr.timestamp = distance
    split_ifs <;> omega
  · rw [authVerifyHeader, if_neg (by simp [authInit]), if_pos same]
    refine iff_of_true ?_ fun digest => absurd digest same
    exact iff_of_false AuthResult.noConfusion fun fresh => same fresh.1

/-- A digest that is always zero, a process with a window and a header of a given time. -/
def zeroHmac : Hmac := fun _ _ => zeroDigest

def authWithin (allowedAge : UInt32) : AuthState :=
  authInit zeroDigest .little true allowedAge

def stamped (timestamp : UInt32) : ProtocolHeader :=
  { sequence := 0, operation := 0, version := 0, length := 0, status := 0, uid := 0, gid := 0,
    timestamp := timestamp, hmac := zeroDigest }

/-- Two seconds apart, with the sign of the clock between them, and five minutes and a second. -/
theorem verified_iff_fresh_iff_fiveMinutes :
    (authVerifyHeader zeroHmac (authWithin 300) 2147483649 (stamped 2147483647) = .verified ↔
        Fresh zeroHmac (authWithin 300) 300 2147483649 (stamped 2147483647)) ∧
      (authVerifyHeader zeroHmac (authWithin 300) 1301 (stamped 1000) = .verified ↔
        Fresh zeroHmac (authWithin 300) 300 1301 (stamped 1000)) :=
  ⟨(verified_iff_fresh_iff (by decide) _ _).mpr fun _ => by decide +kernel,
    (verified_iff_fresh_iff (by decide) _ _).mpr fun _ => by decide +kernel⟩

/-- Half a minute with a window of 0, and half the circle with one of five minutes. -/
theorem verified_not_fresh :
    (authVerifyHeader zeroHmac (authWithin 0) 1030 (stamped 1000) = .verified ∧
        ¬Fresh zeroHmac (authWithin 0) 0 1030 (stamped 1000)) ∧
      authVerifyHeader zeroHmac (authWithin 300) 2147483648 (stamped 0) = .verified ∧
        ¬Fresh zeroHmac (authWithin 300) 300 2147483648 (stamped 0) := by
  have far : ¬circularDistance 1030 1000 ≤ (0 : UInt32).toNat := by decide
  have half : ¬circularDistance 2147483648 0 ≤ (300 : UInt32).toNat := by decide
  exact ⟨⟨by decide +kernel, fun fresh => far fresh.2⟩, by decide +kernel, fun fresh => half fresh.2⟩

end LavaLite.Base
