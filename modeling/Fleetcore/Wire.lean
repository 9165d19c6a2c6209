import Fleetcore.Proto

/-!
The codec (`common/wire.cpp`).

Packing copies the memory image of a structure and then overwrites every
multi-byte field with its big-endian form; unpacking copies the bytes back and
replaces the same fields. Both are translated that way, for a host of either
byte order, and shown to compute a field-by-field reference encoding (`wire`)
and decoding (`ofWire`) that mentions no host. The rest of the development
uses the reference forms only.

A buffer is the list of its bytes: a pointer with a length is a list of that
length, a pointer with a capacity a list as long as the capacity.
-/

namespace Fleetcore

open ByteOrder

/-! ### Byte order helpers -/

def loadBe16 (p : List UInt8) : UInt16 :=
  ((p.getD 0 0).toUInt16 <<< 8) ||| (p.getD 1 0).toUInt16

def loadBe32 (p : List UInt8) : UInt32 :=
  ((p.getD 0 0).toUInt32 <<< 24) ||| ((p.getD 1 0).toUInt32 <<< 16) |||
    ((p.getD 2 0).toUInt32 <<< 8) ||| (p.getD 3 0).toUInt32

def loadBe64 (p : List UInt8) : UInt64 :=
  (List.range 8).foldl (fun v i => (v <<< 8) ||| (p.getD i 0).toUInt64) 0

/-- The bytes `store_be16` puts at its pointer. -/
def storeBe16 (v : UInt16) : List UInt8 := [(v >>> 8).toUInt8, v.toUInt8]

def storeBe32 (v : UInt32) : List UInt8 :=
  [(v >>> 24).toUInt8, (v >>> 16).toUInt8, (v >>> 8).toUInt8, v.toUInt8]

def storeBe64 (v : UInt64) : List UInt8 :=
  (List.range 8).map fun i => (v >>> UInt64.ofNat (56 - 8 * i)).toUInt8

theorem storeBe16_eq (v : UInt16) : storeBe16 v = toBE 2 v.toNat := by
  simp only [storeBe16, toBE, List.nil_append, List.singleton_append, List.cons.injEq, and_true]
  refine ⟨?_, ?_⟩ <;> apply UInt8.toNat_inj.mp <;> simp [Nat.shiftRight_eq_div_pow]

theorem storeBe32_eq (v : UInt32) : storeBe32 v = toBE 4 v.toNat := by
  simp only [storeBe32, toBE, List.nil_append, List.cons_append, List.cons.injEq, and_true]
  refine ⟨?_, ?_, ?_, ?_⟩ <;> apply UInt8.toNat_inj.mp <;>
    simp [Nat.shiftRight_eq_div_pow, Nat.div_div_eq_div_mul]

theorem storeBe64_eq (v : UInt64) : storeBe64 v = toBE 8 v.toNat := by
  simp only [storeBe64, toBE, List.nil_append, List.cons_append, List.range, List.range.loop,
    List.map_cons, List.map_nil, List.cons.injEq, and_true]
  refine ⟨?_, ?_, ?_, ?_, ?_, ?_, ?_, ?_⟩ <;> apply UInt8.toNat_inj.mp <;>
    simp [Nat.shiftRight_eq_div_pow, Nat.div_div_eq_div_mul]

theorem loadBe16_toNat (a b : UInt8) (d : List UInt8) :
    (loadBe16 (a :: b :: d)).toNat = ofBE [a, b] := by
  have ha : a.toNat < 2 ^ 8 := a.toNat_lt
  have hfit : a.toNat <<< 8 % 65536 = a.toNat <<< 8 := by
    rw [Nat.shiftLeft_eq]
    omega
  simp [loadBe16, hfit, shiftLeft_or_byte, ofBE]

theorem loadBe32_toNat (a b c x : UInt8) (d : List UInt8) :
    (loadBe32 (a :: b :: c :: x :: d)).toNat = ofBE [a, b, c, x] := by
  have ha : a.toNat < 2 ^ 8 := a.toNat_lt
  have hb : b.toNat < 2 ^ 8 := b.toNat_lt
  have hc : c.toNat < 2 ^ 8 := c.toNat_lt
  have hfita : a.toNat <<< 24 % 4294967296 = a.toNat <<< 24 := by
    rw [Nat.shiftLeft_eq]
    omega
  have hfitb : b.toNat <<< 16 % 4294967296 = b.toNat <<< 16 := by
    rw [Nat.shiftLeft_eq]
    omega
  have hfitc : c.toNat <<< 8 % 4294967296 = c.toNat <<< 8 := by
    rw [Nat.shiftLeft_eq]
    omega
  have hhorner : a.toNat <<< 24 ||| b.toNat <<< 16 ||| c.toNat <<< 8 ||| x.toNat =
      ((a.toNat <<< 8 ||| b.toNat) <<< 8 ||| c.toNat) <<< 8 ||| x.toNat := by
    simp only [Nat.shiftLeft_or_distrib, ← Nat.shiftLeft_add]
  simp [loadBe32, hfita, hfitb, hfitc, hhorner, shiftLeft_or_byte, ofBE]

theorem shiftLeft_or_toNat {v : UInt64} (b : UInt8) (h : v.toNat < 2 ^ 56) :
    (v <<< 8 ||| b.toUInt64).toNat = v.toNat * 256 + b.toNat := by
  have hfit : v.toNat <<< 8 % 2 ^ 64 = v.toNat <<< 8 := by
    rw [Nat.shiftLeft_eq]
    omega
  have h8 : (8 : UInt64).toNat % 64 = 8 := rfl
  rw [UInt64.toNat_or, UInt64.toNat_shiftLeft, UInt8.toNat_toUInt64, h8, hfit, shiftLeft_or_byte]

theorem foldl_shiftLeft_or_toNat {bs : List UInt8} (h : bs.length ≤ 8) :
    (bs.foldl (fun (v : UInt64) b => v <<< 8 ||| b.toUInt64) 0).toNat = ofBE bs := by
  induction bs using List.reverseRecOn with
  | nil => rfl
  | append_singleton bs b ih =>
      rw [List.length_append, List.length_singleton] at h
      have ih := ih (by omega)
      have hlt := ofBE_lt bs
      have hpow : 256 ^ bs.length ≤ 256 ^ 7 := Nat.pow_le_pow_right (by omega) (by omega)
      rw [List.foldl_append, List.foldl_cons, List.foldl_nil,
        shiftLeft_or_toNat _ (by rw [ih]; omega), ih, ofBE_concat]

theorem loadBe16_drop {off : ℕ} {buf : List UInt8} (h : off + 2 ≤ buf.length) :
    (loadBe16 (buf.drop off)).toNat = ofBE (slice off 2 buf) := by
  have hlen : 2 ≤ (buf.drop off).length := by simp only [List.length_drop]; omega
  match hd : buf.drop off, hlen with
  | a :: b :: d, _ => simp [slice, hd, loadBe16_toNat]

theorem loadBe32_drop {off : ℕ} {buf : List UInt8} (h : off + 4 ≤ buf.length) :
    (loadBe32 (buf.drop off)).toNat = ofBE (slice off 4 buf) := by
  have hlen : 4 ≤ (buf.drop off).length := by simp only [List.length_drop]; omega
  match hd : buf.drop off, hlen with
  | a :: b :: c :: x :: d, _ => simp [slice, hd, loadBe32_toNat]

theorem loadBe64_drop {off : ℕ} {buf : List UInt8} (h : off + 8 ≤ buf.length) :
    (loadBe64 (buf.drop off)).toNat = ofBE (slice off 8 buf) := by
  have hlen : 8 ≤ (buf.drop off).length := by simp only [List.length_drop]; omega
  match hd : buf.drop off, hlen with
  | a :: b :: c :: x :: a' :: b' :: c' :: x' :: d, _ =>
      rw [slice, hd]
      exact foldl_shiftLeft_or_toNat (show [a, b, c, x, a', b', c', x'].length ≤ 8 by simp)

/-! ### Decode results -/

inductive WireError where
  | ok
  | tooShort
  | badMagic
  | unsupportedVersion
  | badLength
  | lengthMismatch
  | unknownCode
  deriving DecidableEq, Repr

/-! ### The encoders and decoders

The offsets are those of the packed header: `length` at 4, `seq` at 6,
`timestamp` at 8 and `reserved` at 16. -/

/-- Bytes written and the buffer afterwards. -/
def packHeader (e : Endian) (h : Header) (buf : List UInt8) : ℕ × List UInt8 :=
  if buf.length < Header.size then (0, buf)
  else
    let buf := overwrite 0 (h.image e) buf
    let buf := overwrite 4 (storeBe16 h.length) buf
    let buf := overwrite 6 (storeBe16 h.seq) buf
    let buf := overwrite 8 (storeBe64 h.timestamp) buf
    let buf := overwrite 16 (storeBe32 h.reserved) buf
    (Header.size, buf)

/-- The error and the header object afterwards. -/
def unpackHeader (e : Endian) (buf : List UInt8) (out : Header) : WireError × Header :=
  if buf.length < Header.size then (.tooShort, out)
  else
    let out := Header.ofImage e (buf.take Header.size)
    let out := { out with
      length := loadBe16 (buf.drop 4)
      seq := loadBe16 (buf.drop 6)
      timestamp := loadBe64 (buf.drop 8)
      reserved := loadBe32 (buf.drop 16) }
    if out.magic.1 ≠ magic0 ∨ out.magic.2 ≠ magic1 then (.badMagic, out)
    else if out.version > protoVersion then (.unsupportedVersion, out)
    else if out.length.toNat < Header.size ∨ out.length.toNat > maxMessageLen then
      (.badLength, out)
    else (.ok, out)

def packLockRequest (e : Endian) (m : LockRequest) (buf : List UInt8) : ℕ × List UInt8 :=
  if buf.length < LockRequest.size then (0, buf)
  else
    let buf := overwrite 0 (m.image e) buf
    let buf := overwrite 4 (storeBe16 m.header.length) buf
    let buf := overwrite 6 (storeBe16 m.header.seq) buf
    let buf := overwrite 8 (storeBe64 m.header.timestamp) buf
    let buf := overwrite 16 (storeBe32 m.header.reserved) buf
    (LockRequest.size, buf)

def unpackLockRequest (e : Endian) (buf : List UInt8) (out : LockRequest) :
    WireError × LockRequest :=
  let r := unpackHeader e buf default
  if r.1 ≠ .ok then (r.1, out)
  else if r.2.code ≠ codeLockRequest then (.unknownCode, out)
  else if r.2.length.toNat ≠ LockRequest.size then (.lengthMismatch, out)
  else if buf.length < LockRequest.size then (.tooShort, out)
  else (.ok, { LockRequest.ofImage e (buf.take LockRequest.size) with header := r.2 })

/-- `now` is the wall clock in milliseconds. -/
def makeLockRequest (termNo : TermNo) (seq : UInt16) (now : UInt64) : LockRequest where
  header :=
    { magic := (magic0, magic1), version := protoVersion, code := codeLockRequest,
      length := UInt16.ofNat LockRequest.size, seq := seq, timestamp := now, reserved := 0 }
  termNo := termNo

def packLockResponse (e : Endian) (m : LockResponse) (buf : List UInt8) : ℕ × List UInt8 :=
  if buf.length < LockResponse.size then (0, buf)
  else
    let buf := overwrite 0 (m.image e) buf
    let buf := overwrite 4 (storeBe16 m.header.length) buf
    let buf := overwrite 6 (storeBe16 m.header.seq) buf
    let buf := overwrite 8 (storeBe64 m.header.timestamp) buf
    let buf := overwrite 16 (storeBe32 m.header.reserved) buf
    (LockResponse.size, buf)

def unpackLockResponse (e : Endian) (buf : List UInt8) (out : LockResponse) :
    WireError × LockResponse :=
  let r := unpackHeader e buf default
  if r.1 ≠ .ok then (r.1, out)
  else if r.2.code ≠ codeLockResponse then (.unknownCode, out)
  else if r.2.length.toNat ≠ LockResponse.size then (.lengthMismatch, out)
  else if buf.length < LockResponse.size then (.tooShort, out)
  else (.ok, { LockResponse.ofImage e (buf.take LockResponse.size) with header := r.2 })

def makeLockResponse (termNo : TermNo) (seq : UInt16) (result : UInt8) (now : UInt64) :
    LockResponse where
  header :=
    { magic := (magic0, magic1), version := protoVersion, code := codeLockResponse,
      length := UInt16.ofNat LockResponse.size, seq := seq, timestamp := now, reserved := 0 }
  termNo := termNo
  result := result
  reserved := (0, 0, 0)

/-! ### The reference encoding

Every multi-byte field big-endian at its documented offset; no host. -/

def Header.wire (h : Header) : List UInt8 :=
  [h.magic.1, h.magic.2, h.version, h.code] ++ (toBE 2 h.length.toNat ++
    (toBE 2 h.seq.toNat ++ (toBE 8 h.timestamp.toNat ++ toBE 4 h.reserved.toNat)))

def LockRequest.wire (m : LockRequest) : List UInt8 := m.header.wire ++ m.termNo.bytes

def LockResponse.wire (m : LockResponse) : List UInt8 :=
  m.header.wire ++ (m.termNo.bytes ++
    [m.result, m.reserved.1, m.reserved.2.1, m.reserved.2.2])

def Header.ofWire (bs : List UInt8) : Header where
  magic := (bs.getD 0 0, bs.getD 1 0)
  version := bs.getD 2 0
  code := bs.getD 3 0
  length := UInt16.ofNat (ofBE (slice 4 2 bs))
  seq := UInt16.ofNat (ofBE (slice 6 2 bs))
  timestamp := UInt64.ofNat (ofBE (slice 8 8 bs))
  reserved := UInt32.ofNat (ofBE (slice 16 4 bs))

def LockRequest.ofWire (bs : List UInt8) : LockRequest where
  header := Header.ofWire bs
  termNo := TermNo.ofBytes (slice 20 4 bs)

def LockResponse.ofWire (bs : List UInt8) : LockResponse where
  header := Header.ofWire bs
  termNo := TermNo.ofBytes (slice 20 4 bs)
  result := bs.getD 24 0
  reserved := (bs.getD 25 0, bs.getD 26 0, bs.getD 27 0)

@[simp] theorem Header.length_wire (h : Header) : h.wire.length = 20 := by
  simp [Header.wire]

@[simp] theorem LockRequest.length_wire (m : LockRequest) :
    m.wire.length = LockRequest.size := by
  simp [LockRequest.wire, LockRequest.size]

@[simp] theorem LockResponse.length_wire (m : LockResponse) :
    m.wire.length = LockResponse.size := by
  simp [LockResponse.wire, LockResponse.size]

/-- The four stores turn the memory image of a header, whatever follows it and
whatever the host, into its reference encoding. -/
theorem overwrite_header_fields (e : Endian) (h : Header) (d : List UInt8) :
    overwrite 16 (storeBe32 h.reserved) (overwrite 8 (storeBe64 h.timestamp)
      (overwrite 6 (storeBe16 h.seq) (overwrite 4 (storeBe16 h.length) (h.image e ++ d)))) =
      h.wire ++ d := by
  simp [storeBe16_eq, storeBe32_eq, storeBe64_eq, Header.image, Header.wire,
    overwrite_append_of_le, overwrite_zero_append]

theorem overwrite_zero_eq {src buf : List UInt8} :
    overwrite 0 src buf = src ++ buf.drop src.length := by
  simp [overwrite]

theorem packHeader_eq (e : Endian) (h : Header) {buf : List UInt8}
    (hcap : Header.size ≤ buf.length) :
    packHeader e h buf = (Header.size, h.wire ++ buf.drop Header.size) := by
  rw [packHeader, if_neg (by omega), overwrite_zero_eq]
  simp only [overwrite_header_fields, Header.length_image]

theorem packLockRequest_eq (e : Endian) (m : LockRequest) {buf : List UInt8}
    (hcap : LockRequest.size ≤ buf.length) :
    packLockRequest e m buf = (LockRequest.size, m.wire ++ buf.drop LockRequest.size) := by
  rw [packLockRequest, if_neg (by omega), overwrite_zero_eq, LockRequest.length_image]
  simp only [LockRequest.image, List.append_assoc, overwrite_header_fields, LockRequest.wire]

theorem packLockResponse_eq (e : Endian) (m : LockResponse) {buf : List UInt8}
    (hcap : LockResponse.size ≤ buf.length) :
    packLockResponse e m buf = (LockResponse.size, m.wire ++ buf.drop LockResponse.size) := by
  rw [packLockResponse, if_neg (by omega), overwrite_zero_eq, LockResponse.length_image]
  simp only [LockResponse.image, List.append_assoc, overwrite_header_fields, LockResponse.wire]

/-! ### The reference decoding -/

/-- The rules a decoded header is held to, in the order they are checked. -/
def Header.check (h : Header) : WireError :=
  if h.magic.1 ≠ magic0 ∨ h.magic.2 ≠ magic1 then .badMagic
  else if h.version > protoVersion then .unsupportedVersion
  else if h.length.toNat < Header.size ∨ h.length.toNat > maxMessageLen then .badLength
  else .ok

theorem Header.check_eq_ok {h : Header} :
    h.check = .ok ↔ h.magic = (magic0, magic1) ∧ h.version ≤ protoVersion ∧
      Header.size ≤ h.length.toNat ∧ h.length.toNat ≤ maxMessageLen := by
  unfold Header.check
  split_ifs with hmagic hversion hlength
  · simp only [false_iff, not_and]
    intro hm
    simp [hm] at hmagic
  · simp [UInt8.not_le.mpr hversion]
  · simp only [false_iff, not_and]
    omega
  · simp only [not_or, ne_eq, not_not] at hmagic
    simp only [true_iff]
    exact ⟨Prod.ext hmagic.1 hmagic.2, UInt8.not_lt.mp hversion, by omega⟩

theorem getD_take {bs : List UInt8} {i n : ℕ} (h : i < n) :
    (bs.take n).getD i 0 = bs.getD i 0 := by
  simp [List.getD_eq_getElem?_getD, List.getElem?_take_of_lt h]

theorem Header.ofWire_append {bs : List UInt8} (d : List UInt8) (h : Header.size ≤ bs.length) :
    Header.ofWire (bs ++ d) = Header.ofWire bs := by
  simp only [Header.size] at h
  have hbyte : ∀ i < 4, (bs ++ d).getD i 0 = bs.getD i 0 := fun i hi => by
    rw [List.getD_eq_getElem?_getD, List.getD_eq_getElem?_getD,
      List.getElem?_append_left (by omega)]
  simp only [Header.ofWire, hbyte 0 (by omega), hbyte 1 (by omega), hbyte 2 (by omega),
    hbyte 3 (by omega), slice_append_of_add_le (show 4 + 2 ≤ bs.length by omega),
    slice_append_of_add_le (show 6 + 2 ≤ bs.length by omega),
    slice_append_of_add_le (show 8 + 8 ≤ bs.length by omega),
    slice_append_of_add_le (show 16 + 4 ≤ bs.length by omega)]

/-- Replacing the multi-byte fields of the copied image leaves the reference
decoding, on either host. -/
theorem ofImage_replace_fields (e : Endian) {buf : List UInt8} {n : ℕ}
    (hn : Header.size ≤ n) (hlen : Header.size ≤ buf.length) :
    { Header.ofImage e (buf.take n) with
      length := loadBe16 (buf.drop 4)
      seq := loadBe16 (buf.drop 6)
      timestamp := loadBe64 (buf.drop 8)
      reserved := loadBe32 (buf.drop 16) } = Header.ofWire buf := by
  simp only [Header.size] at hn hlen
  have hlength : loadBe16 (buf.drop 4) = UInt16.ofNat (ofBE (slice 4 2 buf)) := by
    rw [← loadBe16_drop (by omega), UInt16.ofNat_toNat]
  have hseq : loadBe16 (buf.drop 6) = UInt16.ofNat (ofBE (slice 6 2 buf)) := by
    rw [← loadBe16_drop (by omega), UInt16.ofNat_toNat]
  have htime : loadBe64 (buf.drop 8) = UInt64.ofNat (ofBE (slice 8 8 buf)) := by
    rw [← loadBe64_drop (by omega), UInt64.ofNat_toNat]
  have hres : loadBe32 (buf.drop 16) = UInt32.ofNat (ofBE (slice 16 4 buf)) := by
    rw [← loadBe32_drop (by omega), UInt32.ofNat_toNat]
  simp only [Header.ofImage, Header.ofWire, hlength, hseq, htime, hres]
  rw [getD_take (by omega), getD_take (by omega), getD_take (by omega), getD_take (by omega)]

theorem unpackHeader_short (e : Endian) {buf : List UInt8} (out : Header)
    (h : buf.length < Header.size) : unpackHeader e buf out = (.tooShort, out) := by
  rw [unpackHeader, if_pos h]

theorem unpackHeader_eq (e : Endian) {buf : List UInt8} (out : Header)
    (h : Header.size ≤ buf.length) :
    unpackHeader e buf out = ((Header.ofWire buf).check, Header.ofWire buf) := by
  have hchecks : ∀ out : Header,
      (if out.magic.1 ≠ magic0 ∨ out.magic.2 ≠ magic1 then (WireError.badMagic, out)
      else if out.version > protoVersion then (.unsupportedVersion, out)
      else if out.length.toNat < Header.size ∨ out.length.toNat > maxMessageLen then
        (.badLength, out)
      else (.ok, out)) = (out.check, out) := fun out => by
    unfold Header.check
    split_ifs <;> rfl
  rw [unpackHeader, if_neg (by omega)]
  exact (hchecks _).trans (by rw [ofImage_replace_fields e le_rfl h])

/-- What is accepted was long enough, passed every check, and decodes to the
reference decoding. -/
theorem unpackLockRequest_ok {e : Endian} {buf : List UInt8} {out m : LockRequest}
    (h : unpackLockRequest e buf out = (.ok, m)) :
    LockRequest.size ≤ buf.length ∧ m = LockRequest.ofWire buf ∧ m.header.check = .ok ∧
      m.header.code = codeLockRequest ∧ m.header.length.toNat = LockRequest.size := by
  by_cases hshort : buf.length < Header.size
  · simp [unpackLockRequest, unpackHeader_short e default hshort] at h
  · rw [unpackLockRequest, unpackHeader_eq e default (by omega)] at h
    simp only at h
    split at h
    · simp_all
    · split at h
      · simp at h
      · split at h
        · simp at h
        · split at h
          · simp at h
          · rename_i hcheck hcode hlength hlen
            simp only [ne_eq, not_not, not_lt] at hcheck hcode hlength hlen
            obtain ⟨-, rfl⟩ := Prod.mk.inj h
            refine ⟨hlen, ?_, hcheck, hcode, hlength⟩
            have hterm : slice 20 4 (buf.take LockRequest.size) = slice 20 4 buf := by
              simp only [slice, LockRequest.size, List.drop_take, List.take_take, Nat.min_self]
            simp only [LockRequest.ofImage, LockRequest.ofWire, hterm]

theorem unpackLockRequest_of_rules (e : Endian) {buf : List UInt8} (out : LockRequest)
    (hlen : LockRequest.size ≤ buf.length)
    (hcheck : (Header.ofWire buf).check = .ok)
    (hcode : (Header.ofWire buf).code = codeLockRequest)
    (hlength : (Header.ofWire buf).length.toNat = LockRequest.size) :
    unpackLockRequest e buf out = (.ok, LockRequest.ofWire buf) := by
  have hh : Header.size ≤ buf.length := by simp only [LockRequest.size, Header.size] at *; omega
  have hterm : slice 20 4 (buf.take LockRequest.size) = slice 20 4 buf := by
    simp only [slice, LockRequest.size, List.drop_take, List.take_take, Nat.min_self]
  simp only [unpackLockRequest, unpackHeader_eq e default hh, hcheck, hcode, hlength, ne_eq,
    not_true_eq_false, if_false, if_neg (not_lt.mpr hlen), LockRequest.ofImage,
    LockRequest.ofWire, hterm]

/-! ### Encoding what was decoded -/

theorem take_add_slice (off n : ℕ) (bs : List UInt8) :
    bs.take (off + n) = bs.take off ++ slice off n bs := by
  rw [slice, List.take_add]

theorem take_four {bs : List UInt8} (h : 4 ≤ bs.length) :
    bs.take 4 = [bs.getD 0 0, bs.getD 1 0, bs.getD 2 0, bs.getD 3 0] := by
  rcases bs with _ | ⟨a, _ | ⟨b, _ | ⟨c, _ | ⟨d, rest⟩⟩⟩⟩
  case cons.cons.cons.cons => rfl
  all_goals simp at h

theorem Header.wire_ofWire {bs : List UInt8} (h : Header.size ≤ bs.length) :
    (Header.ofWire bs).wire = bs.take 20 := by
  simp only [Header.size] at h
  have hfield : ∀ off n, off + n ≤ 20 →
      toBE n (ofBE (slice off n bs) % 256 ^ n) = slice off n bs := fun off n hle => by
    have hlen : (slice off n bs).length = n := length_slice (by omega)
    have hlt : ofBE (slice off n bs) < 256 ^ n := by
      simpa only [hlen] using ofBE_lt (slice off n bs)
    rw [Nat.mod_eq_of_lt hlt, toBE_ofBE_of_length hlen]
  rw [show (20 : ℕ) = 4 + 2 + 2 + 8 + 4 from rfl, take_add_slice, take_add_slice,
    take_add_slice, take_add_slice, take_four (by omega)]
  simp only [Header.wire, Header.ofWire, UInt16.toNat_ofNat', UInt64.toNat_ofNat',
    UInt32.toNat_ofNat', List.append_assoc]
  rw [show 2 ^ 16 = 256 ^ 2 from rfl, show 2 ^ 64 = 256 ^ 8 from rfl,
    show 2 ^ 32 = 256 ^ 4 from rfl, hfield 4 2 (by omega), hfield 6 2 (by omega),
    hfield 8 8 (by omega), hfield 16 4 (by omega)]

/-- Encoding a decoded request gives the received bytes back, whatever the
fields hold. -/
theorem LockRequest.wire_ofWire {bs : List UInt8} (h : LockRequest.size ≤ bs.length) :
    (LockRequest.ofWire bs).wire = bs.take LockRequest.size := by
  simp only [LockRequest.size] at h ⊢
  have hterm : (slice 20 4 bs).length = 4 := length_slice (by omega)
  rw [LockRequest.wire, LockRequest.ofWire, Header.wire_ofWire (by simp only [Header.size]; omega),
    TermNo.bytes_ofBytes hterm, ← take_add_slice]

end Fleetcore
