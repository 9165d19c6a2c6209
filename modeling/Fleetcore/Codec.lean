import Fleetcore.Wire

/-!
The documented format and the codec.

`rules` is the format of a message as the rules a decoder checks, in their
order, on the bytes alone; the decoders answer with the first rule that fails.
`Layout` is a reference encoding with what makes it one: every field big-endian
at its documented offset, and encoding and decoding inverse to each other. The
encoders and decoders of the source are those of a layout, on either host.
-/

namespace Fleetcore

open ByteOrder

/-! ### Layouts -/

/-- A field of a message: where it lies, how wide it is and the number it holds. -/
structure WireField where
  offset : ℕ
  width : ℕ
  value : ℕ
  deriving DecidableEq, Repr

def Header.fields (h : Header) : List WireField :=
  [⟨0, 1, h.magic.1.toNat⟩, ⟨1, 1, h.magic.2.toNat⟩, ⟨2, 1, h.version.toNat⟩,
    ⟨3, 1, h.code.toNat⟩, ⟨4, 2, h.length.toNat⟩, ⟨6, 2, h.seq.toNat⟩,
    ⟨8, 8, h.timestamp.toNat⟩, ⟨16, 4, h.reserved.toNat⟩]

def TermNo.fields (t : TermNo) : List WireField :=
  [⟨20, 1, t.c0.toNat⟩, ⟨21, 1, t.c1.toNat⟩, ⟨22, 1, t.c2.toNat⟩, ⟨23, 1, t.c3.toNat⟩]

def LockRequest.fields (m : LockRequest) : List WireField := m.header.fields ++ m.termNo.fields

def LockResponse.fields (m : LockResponse) : List WireField :=
  m.header.fields ++ (m.termNo.fields ++
    [⟨24, 1, m.result.toNat⟩, ⟨25, 1, m.reserved.1.toNat⟩, ⟨26, 1, m.reserved.2.1.toNat⟩,
      ⟨27, 1, m.reserved.2.2.toNat⟩])

/-- A reference encoding of the values of a type that start with a header. -/
structure Layout (M : Type) where
  size : ℕ
  header : M → Header
  fields : M → List WireField
  wire : M → List UInt8
  ofWire : List UInt8 → M
  length_wire : ∀ m, (wire m).length = size
  /-- Every field is big-endian at its offset. -/
  slice_wire : ∀ m, ∀ f ∈ fields m, slice f.offset f.width (wire m) = toBE f.width f.value
  /-- There is nothing but the fields. -/
  widths : ∀ m, ((fields m).map WireField.width).sum = size
  wire_ofWire : ∀ bs, size ≤ bs.length → wire (ofWire bs) = bs.take size
  ofWire_wire : ∀ m d, ofWire (wire m ++ d) = m
  header_ofWire : ∀ bs, header (ofWire bs) = Header.ofWire bs

theorem toBE_one (b : UInt8) : toBE 1 b.toNat = [b] := by
  simp [toBE]

theorem Header.slice_wire_append (h : Header) (d : List UInt8) :
    ∀ f ∈ h.fields, slice f.offset f.width (h.wire ++ d) = toBE f.width f.value := by
  simp [Header.fields, Header.wire, toBE_one, slice_append_of_le, slice_zero_append]
  simp [slice]

theorem Header.slice_wire_tail (h : Header) (d : List UInt8) {off n : ℕ} (hoff : 20 ≤ off) :
    slice off n (h.wire ++ d) = slice (off - 20) n d := by
  rw [slice_append_of_le (by rw [h.length_wire]; exact hoff), h.length_wire]

theorem LockRequest.slice_wire (m : LockRequest) :
    ∀ f ∈ m.fields, slice f.offset f.width m.wire = toBE f.width f.value := by
  intro f hf
  rcases List.mem_append.mp hf with hheader | hterm
  · exact m.header.slice_wire_append _ f hheader
  · simp only [TermNo.fields, List.mem_cons, List.not_mem_nil, or_false] at hterm
    rcases hterm with rfl | rfl | rfl | rfl
    all_goals
      rw [LockRequest.wire, Header.slice_wire_tail _ _ (by simp), toBE_one]
      rfl

theorem LockResponse.slice_wire (m : LockResponse) :
    ∀ f ∈ m.fields, slice f.offset f.width m.wire = toBE f.width f.value := by
  intro f hf
  rcases List.mem_append.mp hf with hheader | hrest
  · exact m.header.slice_wire_append _ f hheader
  · simp only [TermNo.fields, List.cons_append, List.nil_append, List.mem_cons,
      List.not_mem_nil, or_false] at hrest
    rcases hrest with rfl | rfl | rfl | rfl | rfl | rfl | rfl | rfl
    all_goals
      rw [LockResponse.wire, Header.slice_wire_tail _ _ (by simp), toBE_one]
      rfl

theorem Header.ofWire_wire_append (h : Header) (d : List UInt8) :
    Header.ofWire (h.wire ++ d) = h := Header.ofImage_image_append .big h d

theorem LockRequest.ofWire_wire_append (m : LockRequest) (d : List UInt8) :
    LockRequest.ofWire (m.wire ++ d) = m := by
  have hheader : Header.ofWire (m.wire ++ d) = m.header := by
    rw [LockRequest.wire, List.append_assoc, Header.ofWire_wire_append]
  have hterm : slice 20 4 (m.wire ++ d) = m.termNo.bytes := by
    rw [LockRequest.wire, List.append_assoc, Header.slice_wire_tail _ _ le_rfl]
    rfl
  rw [LockRequest.ofWire, hheader, hterm, TermNo.ofBytes_bytes]

theorem LockResponse.ofWire_wire_append (m : LockResponse) (d : List UInt8) :
    LockResponse.ofWire (m.wire ++ d) = m := by
  have hheader : Header.ofWire (m.wire ++ d) = m.header := by
    rw [LockResponse.wire, List.append_assoc, Header.ofWire_wire_append]
  have hterm : slice 20 4 (m.wire ++ d) = m.termNo.bytes := by
    rw [LockResponse.wire, List.append_assoc, Header.slice_wire_tail _ _ le_rfl]
    rfl
  have htail : ∀ i, (m.wire ++ d).getD (20 + i) 0 =
      (m.termNo.bytes ++ [m.result, m.reserved.1, m.reserved.2.1, m.reserved.2.2] ++ d).getD i 0 :=
    fun i => by
      rw [LockResponse.wire, List.append_assoc, List.getD_eq_getElem?_getD,
        List.getD_eq_getElem?_getD, List.getElem?_append_right (by simp), Header.length_wire,
        Nat.add_sub_cancel_left]
  rw [LockResponse.ofWire, hheader, hterm, TermNo.ofBytes_bytes, htail 4, htail 5, htail 6, htail 7]
  rfl

/-- Encoding a decoded response gives the received bytes back. -/
theorem LockResponse.wire_ofWire {bs : List UInt8} (h : LockResponse.size ≤ bs.length) :
    (LockResponse.ofWire bs).wire = bs.take LockResponse.size := by
  simp only [LockResponse.size] at h ⊢
  have hterm : (slice 20 4 bs).length = 4 := length_slice (by omega)
  have hlast : slice 24 4 bs = [bs.getD 24 0, bs.getD 25 0, bs.getD 26 0, bs.getD 27 0] := by
    have hlen : 4 ≤ (bs.drop 24).length := by simp only [List.length_drop]; omega
    have hget : ∀ i, bs.getD (24 + i) 0 = (bs.drop 24).getD i 0 := fun i => by
      rw [List.getD_eq_getElem?_getD, List.getD_eq_getElem?_getD, List.getElem?_drop]
    rw [hget 0, hget 1, hget 2, hget 3, slice, take_four hlen]
  have hsize : Header.size ≤ bs.length := by
    simp only [Header.size]
    omega
  have hheader := Header.wire_ofWire hsize
  rw [LockResponse.wire, LockResponse.ofWire, hheader, TermNo.bytes_ofBytes hterm, ← hlast,
    ← List.append_assoc, ← take_add_slice, ← take_add_slice]

def headerLayout : Layout Header where
  size := Header.size
  header := id
  fields := Header.fields
  wire := Header.wire
  ofWire := Header.ofWire
  length_wire := Header.length_wire
  slice_wire := fun h => by simpa using h.slice_wire_append []
  widths := fun h => by simp [Header.fields, Header.size]
  wire_ofWire := fun _ => Header.wire_ofWire
  ofWire_wire := Header.ofWire_wire_append
  header_ofWire := fun _ => rfl

def requestLayout : Layout LockRequest where
  size := LockRequest.size
  header := LockRequest.header
  fields := LockRequest.fields
  wire := LockRequest.wire
  ofWire := LockRequest.ofWire
  length_wire := LockRequest.length_wire
  slice_wire := LockRequest.slice_wire
  widths := fun m => by
    simp [LockRequest.fields, Header.fields, TermNo.fields, LockRequest.size]
  wire_ofWire := fun _ => LockRequest.wire_ofWire
  ofWire_wire := LockRequest.ofWire_wire_append
  header_ofWire := fun _ => rfl

def responseLayout : Layout LockResponse where
  size := LockResponse.size
  header := LockResponse.header
  fields := LockResponse.fields
  wire := LockResponse.wire
  ofWire := LockResponse.ofWire
  length_wire := LockResponse.length_wire
  slice_wire := LockResponse.slice_wire
  widths := fun m => by
    simp [LockResponse.fields, Header.fields, TermNo.fields, LockResponse.size]
  wire_ofWire := fun _ => LockResponse.wire_ofWire
  ofWire_wire := LockResponse.ofWire_wire_append
  header_ofWire := fun _ => rfl

/-! ### The format -/

def lengthField (buf : List UInt8) : ℕ := ofBE (slice 4 2 buf)

/-- The rules for a message of a code and a size, in the order they are checked. -/
def rules (code : UInt8) (size : ℕ) (buf : List UInt8) : List (WireError × Bool) :=
  [(.tooShort, decide (Header.size ≤ buf.length)),
    (.badMagic, decide (buf.getD 0 0 = magic0 ∧ buf.getD 1 0 = magic1)),
    (.unsupportedVersion, decide (buf.getD 2 0 ≤ protoVersion)),
    (.badLength, decide (Header.size ≤ lengthField buf ∧ lengthField buf ≤ maxMessageLen)),
    (.unknownCode, decide (buf.getD 3 0 = code)),
    (.lengthMismatch, decide (lengthField buf = size)),
    (.tooShort, decide (size ≤ buf.length))]

def firstFailing : List (WireError × Bool) → WireError
  | [] => .ok
  | (e, holds) :: rules => if holds then firstFailing rules else e

def verdict (code : UInt8) (size : ℕ) (buf : List UInt8) : WireError :=
  firstFailing (rules code size buf)

theorem firstFailing_eq_ok {rules : List (WireError × Bool)} (h : ∀ r ∈ rules, r.1 ≠ .ok) :
    firstFailing rules = .ok ↔ ∀ r ∈ rules, r.2 = true := by
  induction rules with
  | nil => simp [firstFailing]
  | cons r rules ih =>
      obtain ⟨e, holds⟩ := r
      have he : e ≠ .ok := h _ List.mem_cons_self
      have ih := ih fun r hr => h r (List.mem_cons_of_mem _ hr)
      cases holds with
      | false => simp [firstFailing, he]
      | true => simpa [firstFailing] using ih

theorem verdict_eq_ok {code : UInt8} {size : ℕ} {buf : List UInt8}
    (hmin : Header.size ≤ size) (hmax : size ≤ maxMessageLen) :
    verdict code size buf = .ok ↔ size ≤ buf.length ∧
      (buf.getD 0 0 = magic0 ∧ buf.getD 1 0 = magic1) ∧ buf.getD 2 0 ≤ protoVersion ∧
        buf.getD 3 0 = code ∧ lengthField buf = size := by
  rw [verdict, firstFailing_eq_ok (by simp [rules])]
  simp only [rules, List.forall_mem_cons, List.not_mem_nil, false_imp_iff, implies_true,
    decide_eq_true_eq, and_true]
  constructor
  · rintro ⟨-, hmagic, hversion, -, hcode, hlength, hlen⟩
    exact ⟨hlen, hmagic, hversion, hcode, hlength⟩
  · rintro ⟨hlen, hmagic, hversion, hcode, hlength⟩
    exact ⟨by omega, hmagic, hversion, by omega, hcode, hlength, hlen⟩

theorem lengthField_eq (buf : List UInt8) :
    (Header.ofWire buf).length.toNat = lengthField buf := by
  have hlen : (slice 4 2 buf).length ≤ 2 := by simp [slice]
  have hlt := ofBE_lt (slice 4 2 buf)
  have hpow : 256 ^ (slice 4 2 buf).length ≤ 256 ^ 2 := Nat.pow_le_pow_right (by omega) hlen
  rw [Header.ofWire, lengthField, UInt16.toNat_ofNat', Nat.mod_eq_of_lt (by omega)]

/-! ### Decoders -/

namespace Layout

variable {M : Type} (L : Layout M)

/-- The first rule that fails, and the output object afterwards. -/
def answer (rules : List (WireError × Bool)) (buf : List UInt8) (out : M) : WireError × M :=
  (firstFailing rules, if firstFailing rules = .ok then L.ofWire buf else out)

def decode (code : UInt8) (buf : List UInt8) (out : M) : WireError × M :=
  L.answer (rules code L.size buf) buf out

theorem answer_cons {e : WireError} (he : e ≠ .ok) (p : Prop) [Decidable p]
    (rules : List (WireError × Bool)) (buf : List UInt8) (out : M) :
    L.answer ((e, decide p) :: rules) buf out =
      if ¬ p then (e, out) else L.answer rules buf out := by
  by_cases hp : p
  · simp [answer, firstFailing, hp]
  · simp [answer, firstFailing, hp, he]

theorem decode_of_ok {code : UInt8} {buf : List UInt8} (out : M)
    (h : verdict code L.size buf = .ok) : L.decode code buf out = (.ok, L.ofWire buf) :=
  Prod.ext h (if_pos h)

theorem decode_of_short (code : UInt8) {buf : List UInt8} (out : M)
    (h : buf.length < Header.size) : L.decode code buf out = (.tooShort, out) := by
  rw [decode, rules, answer_cons L (by decide), if_pos (by omega)]

/-- The checks of a decoder, on a buffer with a header, are the rules in order. -/
theorem checks_eq_decode (code : UInt8) {buf : List UInt8} (out : M)
    (h : Header.size ≤ buf.length) :
    (if (Header.ofWire buf).check ≠ .ok then ((Header.ofWire buf).check, out)
      else if (Header.ofWire buf).code ≠ code then (.unknownCode, out)
      else if (Header.ofWire buf).length.toNat ≠ L.size then (.lengthMismatch, out)
      else if buf.length < L.size then (.tooShort, out)
      else (.ok, L.ofWire buf)) = L.decode code buf out := by
  have hmagic : ((Header.ofWire buf).magic.1 ≠ magic0 ∨ (Header.ofWire buf).magic.2 ≠ magic1) ↔
      ¬ (buf.getD 0 0 = magic0 ∧ buf.getD 1 0 = magic1) := Decidable.not_and_iff_not_or_not.symm
  have hversion : (Header.ofWire buf).version > protoVersion ↔ ¬ buf.getD 2 0 ≤ protoVersion :=
    UInt8.not_le.symm
  have hlength : lengthField buf < Header.size ∨ lengthField buf > maxMessageLen ↔
      ¬ (Header.size ≤ lengthField buf ∧ lengthField buf ≤ maxMessageLen) := by omega
  have hcode : (Header.ofWire buf).code = buf.getD 3 0 := rfl
  have hend : L.answer [] buf out = (.ok, L.ofWire buf) := rfl
  rw [decode, rules, L.answer_cons (by decide), if_neg (not_not.mpr h), L.answer_cons (by decide),
    L.answer_cons (by decide), L.answer_cons (by decide), L.answer_cons (by decide),
    L.answer_cons (by decide), L.answer_cons (by decide), hend]
  simp only [Header.check, hmagic, hversion, hlength, hcode, lengthField_eq, ne_eq]
  by_cases hm : buf.getD 0 0 = magic0 ∧ buf.getD 1 0 = magic1
  · by_cases hv : buf.getD 2 0 ≤ protoVersion
    · by_cases hl : Header.size ≤ lengthField buf ∧ lengthField buf ≤ maxMessageLen
      · simp only [hm, hv, hl, and_self, not_true_eq_false, if_false, not_le]
      · simp only [hm, hv, hl, and_self, not_true_eq_false, not_false_eq_true, if_false, if_true,
          reduceCtorEq]
    · simp only [hm, hv, and_self, not_true_eq_false, not_false_eq_true, if_false, if_true,
        reduceCtorEq]
  · simp only [hm, not_false_eq_true, if_true, reduceCtorEq]

end Layout

theorem unpackLockRequest_eq (e : Endian) (buf : List UInt8) (out : LockRequest) :
    unpackLockRequest e buf out = requestLayout.decode codeLockRequest buf out := by
  by_cases h : buf.length < Header.size
  · rw [Layout.decode_of_short _ _ _ h, unpackLockRequest, unpackHeader_short e default h]
    rfl
  · have hterm : slice 20 4 (buf.take LockRequest.size) = slice 20 4 buf := by
      simp only [slice, LockRequest.size, List.drop_take, List.take_take, Nat.min_self]
    have hval : { LockRequest.ofImage e (buf.take LockRequest.size) with
        header := Header.ofWire buf } = LockRequest.ofWire buf := by
      rw [LockRequest.ofImage, LockRequest.ofWire, hterm]
    rw [← requestLayout.checks_eq_decode _ _ (not_lt.mp h), unpackLockRequest,
      unpackHeader_eq e default (not_lt.mp h)]
    simp only [hval]
    rfl

theorem unpackLockResponse_eq (e : Endian) (buf : List UInt8) (out : LockResponse) :
    unpackLockResponse e buf out = responseLayout.decode codeLockResponse buf out := by
  by_cases h : buf.length < Header.size
  · rw [Layout.decode_of_short _ _ _ h, unpackLockResponse, unpackHeader_short e default h]
    rfl
  · have hterm : slice 20 4 (buf.take LockResponse.size) = slice 20 4 buf := by
      simp only [slice, LockResponse.size, List.drop_take, List.take_take]
      rfl
    have hval : { LockResponse.ofImage e (buf.take LockResponse.size) with
        header := Header.ofWire buf } = LockResponse.ofWire buf := by
      rw [LockResponse.ofImage, LockResponse.ofWire, hterm]
      simp only [getD_take (show 24 < LockResponse.size by decide),
        getD_take (show 25 < LockResponse.size by decide),
        getD_take (show 26 < LockResponse.size by decide),
        getD_take (show 27 < LockResponse.size by decide)]
    rw [← responseLayout.checks_eq_decode _ _ (not_lt.mp h), unpackLockResponse,
      unpackHeader_eq e default (not_lt.mp h)]
    simp only [hval]
    rfl

/-! ### Exactly the format -/

/-- A decoder accepts exactly the format, answers with the first rule that fails
and leaves the output object alone on failure; it is inverse to the encoder. -/
structure ExactCodec {M : Type} (L : Layout M) (code : UInt8)
    (pack : Endian → M → List UInt8 → ℕ × List UInt8)
    (unpack : Endian → List UInt8 → M → WireError × M) : Prop where
  verdict : ∀ e buf out, (unpack e buf out).1 = verdict code L.size buf
  accepts : ∀ e buf out, (unpack e buf out).1 = .ok ↔ L.size ≤ buf.length ∧
    (buf.getD 0 0 = magic0 ∧ buf.getD 1 0 = magic1) ∧ buf.getD 2 0 ≤ protoVersion ∧
      buf.getD 3 0 = code ∧ lengthField buf = L.size
  unchanged : ∀ e buf out, (unpack e buf out).1 ≠ .ok → (unpack e buf out).2 = out
  /-- Packing what was accepted reproduces the bytes it came from. -/
  pack_unpack : ∀ e e' buf out m dst, unpack e buf out = (.ok, m) → L.size ≤ dst.length →
    pack e' m dst = (L.size, buf.take L.size ++ dst.drop L.size)
  /-- A packed structure whose header meets the rules is read back. -/
  unpack_pack : ∀ e e' m dst out, L.size ≤ dst.length →
    (L.header m).magic = (magic0, magic1) → (L.header m).version ≤ protoVersion →
      (L.header m).code = code → (L.header m).length.toNat = L.size →
        unpack e' (pack e m dst).2 out = (.ok, m)

theorem Layout.exactCodec {M : Type} (L : Layout M) {code : UInt8}
    {pack : Endian → M → List UInt8 → ℕ × List UInt8}
    {unpack : Endian → List UInt8 → M → WireError × M}
    (hmin : Header.size ≤ L.size) (hmax : L.size ≤ maxMessageLen)
    (hpack : ∀ e m buf, L.size ≤ buf.length →
      pack e m buf = (L.size, L.wire m ++ buf.drop L.size))
    (hunpack : ∀ e buf out, unpack e buf out = L.decode code buf out) :
    ExactCodec L code pack unpack where
  verdict := fun e buf out => by
    rw [hunpack]
    rfl
  accepts := fun e buf out => by
    rw [hunpack]
    exact verdict_eq_ok hmin hmax
  unchanged := fun e buf out h => by
    rw [hunpack] at h ⊢
    exact if_neg h
  pack_unpack := fun e e' buf out m dst h hdst => by
    rw [hunpack] at h
    obtain ⟨hok, hm⟩ := Prod.mk.inj h
    have hlen := ((verdict_eq_ok hmin hmax).mp hok).1
    obtain rfl : L.ofWire buf = m := (if_pos hok).symm.trans hm
    rw [hpack e' _ dst hdst, L.wire_ofWire buf hlen]
  unpack_pack := fun e e' m dst out hdst hmagic hversion hcode hlength => by
    -- the decoder does not look at what is behind the message
    have hval : L.ofWire (L.wire m ++ dst.drop L.size) = m := L.ofWire_wire m _
    have hheader : Header.ofWire (L.wire m ++ dst.drop L.size) = L.header m := by
      rw [← L.header_ofWire, hval]
    rw [← hheader] at hmagic hversion hcode hlength
    have hok : verdict code L.size (L.wire m ++ dst.drop L.size) = .ok := by
      refine (verdict_eq_ok hmin hmax).mpr ⟨?_, Prod.mk.inj hmagic, hversion, hcode, ?_⟩
      · rw [List.length_append, L.length_wire]
        exact Nat.le_add_right _ _
      · rw [← lengthField_eq, hlength]
    rw [hpack e m dst hdst, hunpack, L.decode_of_ok out hok, hval]

theorem codecs_exact :
    ExactCodec requestLayout codeLockRequest packLockRequest unpackLockRequest ∧
    ExactCodec responseLayout codeLockResponse packLockResponse unpackLockResponse :=
  ⟨requestLayout.exactCodec (by decide) (by decide) (fun e m _ => packLockRequest_eq e m)
      unpackLockRequest_eq,
    responseLayout.exactCodec (by decide) (by decide) (fun e m _ => packLockResponse_eq e m)
      unpackLockResponse_eq⟩

/-! ### Independent of the host -/

structure Packs {M : Type} (L : Layout M)
    (pack : Endian → M → List UInt8 → ℕ × List UInt8) : Prop where
  hosts : ∀ e e' m buf, pack e m buf = pack e' m buf
  /-- The bytes behind the message stay. -/
  wire : ∀ e m buf, L.size ≤ buf.length →
    pack e m buf = (L.size, L.wire m ++ buf.drop L.size)
  short : ∀ e m buf, buf.length < L.size → pack e m buf = (0, buf)

/-- The decoder of a layout, the same on either host; `writes` are the answers
with which it fills the output object in. -/
structure Unpacks {M : Type} (L : Layout M) (writes : WireError → Bool)
    (unpack : Endian → List UInt8 → M → WireError × M) : Prop where
  hosts : ∀ e e' buf out, unpack e buf out = unpack e' buf out
  values : ∀ e buf out,
    (unpack e buf out).2 = if writes (unpack e buf out).1 then L.ofWire buf else out

theorem Layout.packs {M : Type} (L : Layout M)
    {pack : Endian → M → List UInt8 → ℕ × List UInt8}
    (hwire : ∀ e m buf, L.size ≤ buf.length →
      pack e m buf = (L.size, L.wire m ++ buf.drop L.size))
    (hshort : ∀ e m buf, buf.length < L.size → pack e m buf = (0, buf)) : Packs L pack where
  hosts := fun e e' m buf => by
    rcases Nat.lt_or_ge buf.length L.size with h | h
    · rw [hshort e m buf h, hshort e' m buf h]
    · rw [hwire e m buf h, hwire e' m buf h]
  wire := hwire
  short := hshort

theorem Layout.unpacks {M : Type} (L : Layout M) {code : UInt8}
    {unpack : Endian → List UInt8 → M → WireError × M}
    (hunpack : ∀ e buf out, unpack e buf out = L.decode code buf out) :
    Unpacks L (· == .ok) unpack where
  hosts := fun e e' buf out => by rw [hunpack, hunpack]
  values := fun e buf out => by
    rw [hunpack]
    exact if_congr beq_iff_eq.symm rfl rfl

theorem unpacks_header : Unpacks headerLayout (· != .tooShort) unpackHeader where
  hosts := fun e e' buf out => by
    rcases Nat.lt_or_ge buf.length Header.size with h | h
    · rw [unpackHeader_short e out h, unpackHeader_short e' out h]
    · rw [unpackHeader_eq e out h, unpackHeader_eq e' out h]
  values := fun e buf out => by
    rcases Nat.lt_or_ge buf.length Header.size with h | h
    · rw [unpackHeader_short e out h]
      rfl
    · have hne : (Header.ofWire buf).check ≠ .tooShort := by
        unfold Header.check
        split_ifs <;> decide
      rw [unpackHeader_eq e out h, if_pos (bne_iff_ne.mpr hne)]
      rfl

/-- On a host of either byte order the codec writes and reads the reference
encoding: every field big-endian at its documented offset. -/
theorem codec_host_independent :
    Packs headerLayout packHeader ∧ Packs requestLayout packLockRequest ∧
    Packs responseLayout packLockResponse ∧
    Unpacks headerLayout (· != .tooShort) unpackHeader ∧
    Unpacks requestLayout (· == .ok) unpackLockRequest ∧
    Unpacks responseLayout (· == .ok) unpackLockResponse :=
  ⟨headerLayout.packs (fun e h _ => packHeader_eq e h) fun _ _ _ h => if_pos h,
    requestLayout.packs (fun e m _ => packLockRequest_eq e m) fun _ _ _ h => if_pos h,
    responseLayout.packs (fun e m _ => packLockResponse_eq e m) fun _ _ _ h => if_pos h,
    unpacks_header, requestLayout.unpacks unpackLockRequest_eq,
    responseLayout.unpacks unpackLockResponse_eq⟩

end Fleetcore
