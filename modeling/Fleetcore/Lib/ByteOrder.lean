import Mathlib.Data.List.Induction
import Mathlib.Data.Nat.Bits
import Mathlib.Tactic.Ring

/-!
Fixed-width numbers as bytes, and the two memory operations on byte buffers.

A number of width `w` is stored as `w` bytes, most significant first
(`toBE`, `ofBE`). A host of either byte order stores it that way or reversed,
which is what `Endian` says; reading back what was stored in the same order
gives the number modulo `256 ^ w`, and storing what was read gives the bytes.

`slice` reads a field out of a buffer and `overwrite` stores into one. The
`simp` lemmas resolve both against a buffer written as a concatenation of
fields, so that a proof about a record's layout is arithmetic on offsets.
-/

namespace ByteOrder

/-! ### Big-endian numbers -/

/-- The `w` bytes of `n`, most significant first; higher bits are dropped. -/
def toBE : ℕ → ℕ → List UInt8
  | 0, _ => []
  | w + 1, n => toBE w (n / 256) ++ [UInt8.ofNat n]

def ofBE (bs : List UInt8) : ℕ := bs.foldl (fun v b => v * 256 + b.toNat) 0

@[simp] theorem length_toBE (w n : ℕ) : (toBE w n).length = w := by
  induction w generalizing n with
  | zero => rfl
  | succ w ih => simp [toBE, ih]

@[simp] theorem ofBE_nil : ofBE [] = 0 := rfl

@[simp] theorem ofBE_concat (bs : List UInt8) (b : UInt8) :
    ofBE (bs ++ [b]) = ofBE bs * 256 + b.toNat := by
  simp [ofBE]

theorem ofBE_toBE (w n : ℕ) : ofBE (toBE w n) = n % 256 ^ w := by
  induction w generalizing n with
  | zero => simp [toBE, Nat.mod_one]
  | succ w ih =>
      have hmod : n % 256 ^ (w + 1) = n % 256 + 256 * (n / 256 % 256 ^ w) := by
        rw [Nat.pow_succ, Nat.mul_comm, Nat.mod_mul]
      rw [toBE, ofBE_concat, ih, UInt8.toNat_ofNat', hmod]
      omega

theorem ofBE_toBE_of_lt {w n : ℕ} (h : n < 256 ^ w) : ofBE (toBE w n) = n := by
  rw [ofBE_toBE, Nat.mod_eq_of_lt h]

theorem toBE_ofBE (bs : List UInt8) : toBE bs.length (ofBE bs) = bs := by
  induction bs using List.reverseRecOn with
  | nil => rfl
  | append_singleton bs b ih =>
      have hb : b.toNat < 256 := b.toNat_lt
      have hdiv : (ofBE bs * 256 + b.toNat) / 256 = ofBE bs := by omega
      have hlow : UInt8.ofNat (ofBE bs * 256 + b.toNat) = b := by
        apply UInt8.toNat_inj.mp
        rw [UInt8.toNat_ofNat']
        omega
      rw [List.length_append, List.length_singleton, toBE, ofBE_concat, hdiv, hlow, ih]

theorem toBE_ofBE_of_length {w : ℕ} {bs : List UInt8} (h : bs.length = w) :
    toBE w (ofBE bs) = bs := h ▸ toBE_ofBE bs

theorem ofBE_lt (bs : List UInt8) : ofBE bs < 256 ^ bs.length := by
  induction bs using List.reverseRecOn with
  | nil => simp
  | append_singleton bs b ih =>
      have hb : b.toNat < 256 := b.toNat_lt
      rw [ofBE_concat, List.length_append, List.length_singleton, pow_succ]
      omega

/-- Shifting the accumulator and or-ing the next byte in is the step of
`ofBE`: how the reading loops are written in practice. -/
theorem shiftLeft_or_byte (v : ℕ) (b : UInt8) : v <<< 8 ||| b.toNat = v * 256 + b.toNat := by
  have hb : b.toNat < 2 ^ 8 := b.toNat_lt
  rw [← Nat.shiftLeft_add_eq_or_of_lt hb, Nat.shiftLeft_eq]

/-! ### The byte order of a host -/

/-- The order in which a host keeps the bytes of a number in memory. -/
inductive Endian where
  | little
  | big
  deriving DecidableEq, Repr

def Endian.image (e : Endian) (w n : ℕ) : List UInt8 :=
  match e with
  | .big => toBE w n
  | .little => (toBE w n).reverse

def Endian.value (e : Endian) (bs : List UInt8) : ℕ :=
  match e with
  | .big => ofBE bs
  | .little => ofBE bs.reverse

@[simp] theorem Endian.length_image (e : Endian) (w n : ℕ) : (e.image w n).length = w := by
  cases e <;> simp [Endian.image]

theorem Endian.value_image (e : Endian) {w n : ℕ} (h : n < 256 ^ w) :
    e.value (e.image w n) = n := by
  cases e <;> simp [Endian.image, Endian.value, ofBE_toBE_of_lt h]

/-! ### Reading and writing a buffer -/

/-- The `n` bytes of a buffer from offset `off`. -/
def slice (off n : ℕ) (buf : List UInt8) : List UInt8 := (buf.drop off).take n

/-- The buffer after storing `src` at offset `off`. -/
def overwrite (off : ℕ) (src buf : List UInt8) : List UInt8 :=
  buf.take off ++ src ++ buf.drop (off + src.length)

theorem length_slice {off n : ℕ} {buf : List UInt8} (h : off + n ≤ buf.length) :
    (slice off n buf).length = n := by
  simp only [slice, List.length_take, List.length_drop]
  omega

@[simp] theorem slice_succ_cons (off n : ℕ) (a : UInt8) (d : List UInt8) :
    slice (off + 1) n (a :: d) = slice off n d := rfl

theorem slice_append_of_le {a d : List UInt8} {off n : ℕ} (h : a.length ≤ off) :
    slice off n (a ++ d) = slice (off - a.length) n d := by
  simp [slice, List.drop_append, List.drop_eq_nil_of_le h]

theorem slice_zero_append {b d : List UInt8} {n : ℕ} (h : b.length = n) :
    slice 0 n (b ++ d) = b := by
  simp [slice, ← h]

theorem slice_append_of_add_le {a d : List UInt8} {off n : ℕ} (h : off + n ≤ a.length) :
    slice off n (a ++ d) = slice off n a := by
  have hoff : off - a.length = 0 := by omega
  have hn : n - (a.drop off).length = 0 := by simp only [List.length_drop]; omega
  simp only [slice, List.drop_append, List.take_append, hn, List.take_zero, List.append_nil]

@[simp] theorem overwrite_succ_cons (off : ℕ) (src : List UInt8) (a : UInt8)
    (d : List UInt8) : overwrite (off + 1) src (a :: d) = a :: overwrite off src d := by
  simp [overwrite, Nat.add_right_comm off 1]

theorem overwrite_append_of_le {a d src : List UInt8} {off : ℕ} (h : a.length ≤ off) :
    overwrite off src (a ++ d) = a ++ overwrite (off - a.length) src d := by
  have htake : a.take off = a := List.take_of_length_le h
  have hdrop : a.drop (off + src.length) = [] := List.drop_eq_nil_of_le (by omega)
  have hsub : off + src.length - a.length = off - a.length + src.length := by omega
  simp only [overwrite, List.take_append, List.drop_append, htake, hdrop, List.nil_append,
    List.append_assoc, hsub]

theorem overwrite_zero_append {b d src : List UInt8} (h : b.length = src.length) :
    overwrite 0 src (b ++ d) = src ++ d := by
  simp [overwrite, ← h]

theorem length_overwrite {src buf : List UInt8} {off : ℕ} (h : off + src.length ≤ buf.length) :
    (overwrite off src buf).length = buf.length := by
  simp only [overwrite, List.length_append, List.length_take, List.length_drop]
  omega

theorem drop_overwrite {src : List UInt8} {off n : ℕ} (buf : List UInt8)
    (h : off + src.length ≤ n) : (overwrite off src buf).drop n = buf.drop n := by
  have hfront : (buf.take off ++ src).length ≤ n := by
    rw [List.length_append, List.length_take]
    omega
  rw [overwrite, List.drop_append, List.drop_eq_nil_of_le hfront, List.nil_append, List.drop_drop]
  by_cases hoff : off ≤ buf.length
  · rw [List.length_append, List.length_take, Nat.min_eq_left hoff, Nat.add_sub_cancel' h]
  · rw [List.drop_eq_nil_of_le (by omega), List.drop_eq_nil_of_le (by omega)]

end ByteOrder
