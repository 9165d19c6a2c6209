import Fleetcore.Lib.CheckedInt
import Fleetcore.Resolve
import Mathlib.Data.List.TakeWhile
import Mathlib.Data.Nat.Digits.Defs

/-!
What identifies a termd, computed from the slot number on its command line.

`main` takes any positive `int32_t`. The process index, the queue key, the port
and the terminal number are computed from it in four places, in types of
different widths, and none of them is checked. The narrowest is the terminal
number, which has four digits: from slot 9000 on no digits denote it. The port
wraps around in its 16 bits much later, and index and key overflow later still.
-/

namespace Fleetcore.Identity

open StateMachine

/-! ### The command line -/

def isDigit (c : UInt8) : Bool := 0x30 ≤ c && c ≤ 0x39

def decimal (ds : List UInt8) : ℕ := ds.foldl (fun v c => v * 10 + (c.toNat - 0x30)) 0

/-- `std::from_chars` into an `int32_t`: the value, if there is one, and what is
left of the argument. -/
def fromChars (arg : List UInt8) : Option Int32 × List UInt8 :=
  let negative := arg.head? = some 0x2d
  let body := if negative then arg.tail else arg
  let ds := body.takeWhile isDigit
  if ds = [] then (none, arg)
  else
    let value : ℤ := if negative then -decimal ds else decimal ds
    let rest := body.dropWhile isDigit
    if -2 ^ 31 ≤ value ∧ value < 2 ^ 31 then (some (Int32.ofInt value), rest) else (none, rest)

def slotOfArg (arg : List UInt8) : Option Slot :=
  match fromChars arg with
  | (some value, []) => if h : 0 < value.toInt then some ⟨value, h⟩ else none
  | _ => none

def digitsOf (n : ℕ) : List UInt8 :=
  ((Nat.digits 10 n).map fun d => UInt8.ofNat (0x30 + d)).reverse

theorem toNat_digit {d : ℕ} (h : d < 10) : (UInt8.ofNat (0x30 + d)).toNat = 0x30 + d := by
  rw [UInt8.toNat_ofNat']
  omega

theorem isDigit_of_mem_digitsOf {n : ℕ} {c : UInt8} (h : c ∈ digitsOf n) : isDigit c = true := by
  simp only [digitsOf, List.mem_reverse, List.mem_map] at h
  obtain ⟨d, hd, rfl⟩ := h
  have hlt : d < 10 := Nat.digits_lt_base' hd
  have hval := toNat_digit hlt
  simp only [isDigit, Bool.and_eq_true, decide_eq_true_eq, UInt8.le_iff_toNat_le, hval,
    UInt8.reduceToNat]
  omega

theorem decimal_digitsOf (n : ℕ) : decimal (digitsOf n) = n := by
  have hdigits : ∀ ds : List ℕ, (∀ d ∈ ds, d < 10) →
      decimal (ds.map fun d => UInt8.ofNat (0x30 + d)).reverse = Nat.ofDigits 10 ds := by
    intro ds hds
    induction ds with
    | nil => rfl
    | cons d ds ih =>
        obtain ⟨hd, hds⟩ := List.forall_mem_cons.mp hds
        have hrest := ih hds
        rw [decimal] at hrest ⊢
        simp only [List.map_cons, List.reverse_cons, List.foldl_append, List.foldl_cons,
          List.foldl_nil, hrest, toNat_digit hd, Nat.ofDigits_cons]
        omega
  rw [digitsOf, hdigits _ fun d hd => Nat.digits_lt_base' hd, Nat.ofDigits_digits]

/-- Every slot is accepted: the bound 0 is the only one. -/
theorem exists_slotOfArg (s : Slot) : ∃ arg, slotOfArg arg = some s := by
  have hpos := s.pos
  have hlt := s.val.toInt_lt
  refine ⟨digitsOf s.val.toInt.toNat, ?_⟩
  have hall : ∀ c ∈ digitsOf s.val.toInt.toNat, isDigit c = true := fun c =>
    isDigit_of_mem_digitsOf
  have htake : (digitsOf s.val.toInt.toNat).takeWhile isDigit = digitsOf s.val.toInt.toNat :=
    List.takeWhile_eq_self_iff.mpr hall
  have hdrop : (digitsOf s.val.toInt.toNat).dropWhile isDigit = [] :=
    List.dropWhile_eq_nil_iff.mpr hall
  have hne : digitsOf s.val.toInt.toNat ≠ [] := fun h => by
    have hzero := decimal_digitsOf s.val.toInt.toNat
    rw [h] at hzero
    simp only [decimal, List.foldl_nil] at hzero
    omega
  have hminus : (digitsOf s.val.toInt.toNat).head? ≠ some 0x2d := fun h => by
    have hdigit := hall _ (List.mem_of_mem_head? h)
    exact absurd hdigit (by decide)
  have hvalue : ((decimal (digitsOf s.val.toInt.toNat) : ℕ) : ℤ) = s.val.toInt := by
    rw [decimal_digitsOf]
    omega
  have hchars : fromChars (digitsOf s.val.toInt.toNat) = (some s.val, []) := by
    simp only [fromChars, hminus, if_false, htake, hne, hdrop, hvalue]
    rw [if_pos ⟨by omega, hlt⟩, Int32.ofInt_toInt]
  simp only [slotOfArg, hchars, hpos, dif_pos]

/-! ### What is computed from a slot -/

/-- `IDX_TERMD_BASE + slot`. -/
def index (s : Slot) : Option Int32 := CheckedInt.add (Int32.ofInt idxTermdBase) s.val

/-- `MSGQ_KEY_BASE + index_`. -/
def key (s : Slot) : Option Int32 :=
  (index s).bind fun i => CheckedInt.add (Int32.ofInt Msgq.msgqKeyBase) i

/-- `static_cast<uint16_t>(TERM_PORT_BASE + slot_)`. -/
def port (s : Slot) : Option UInt16 :=
  (CheckedInt.add (Int32.ofNat termPortBase.toNat) s.val).map fun p => p.toUInt32.toUInt16

/-- The termd of a slot can be told from everybody else, when those of `used`
are in use. -/
structure Identified (used : Set Slot) (s : Slot) : Prop where
  index : ∃ i, index s = some i ∧ i.toInt = 3000 + s.val.toInt
  key : ∃ k, key s = some k ∧ k.toInt = 0x46431000 + 3000 + s.val.toInt
  port : ∃ p, port s = some p ∧ (p.toNat : ℤ) = 9200 + s.val.toInt
  apart : Identity.port s ≠ some gatewayPort ∧
    ∀ s' ∈ used, s' ≠ s → Identity.port s' ≠ Identity.port s
  /-- Some terminal number leads to this termd once it has registered. -/
  resolved : ∃ t : TermNo, ∀ slots g, Run TermdCall.machine Always .zero slots g → s ∈ slots →
    some (Locator.resolve .granted g t) = Identity.index s

/-- The largest slot with a terminal number of four digits. -/
def maxSlot : ℤ := 8999

theorem index_eq {s : Slot} (h : s.val.toInt ≤ maxSlot) :
    ∃ i, index s = some i ∧ i.toInt = 3000 + s.val.toInt := by
  have hpos := s.pos
  have hbase : (Int32.ofInt idxTermdBase).toInt = 3000 := rfl
  cases hi : index s with
  | none =>
      rw [index, CheckedInt.add_eq_none, hbase] at hi
      rw [maxSlot] at h
      omega
  | some i =>
      rw [index, CheckedInt.add_eq_some, hbase] at hi
      exact ⟨i, rfl, hi⟩

theorem key_eq {s : Slot} (h : s.val.toInt ≤ maxSlot) :
    ∃ k, key s = some k ∧ k.toInt = 0x46431000 + 3000 + s.val.toInt := by
  have hpos := s.pos
  have hbase : (Int32.ofInt Msgq.msgqKeyBase).toInt = 0x46431000 := rfl
  obtain ⟨i, hi, hval⟩ := index_eq h
  cases hk : key s with
  | none =>
      simp only [key, hi, Option.bind_some] at hk
      rw [CheckedInt.add_eq_none, hbase] at hk
      rw [maxSlot] at h
      omega
  | some k =>
      simp only [key, hi, Option.bind_some] at hk
      rw [CheckedInt.add_eq_some, hbase] at hk
      exact ⟨k, rfl, by omega⟩

/-- The port, with the cast: right up to where 16 bits reach. -/
theorem port_eq {s : Slot} (h : s.val.toInt < 2 ^ 31 - 9200) :
    ∃ p, port s = some p ∧ (p.toNat : ℤ) = (9200 + s.val.toInt) % 65536 := by
  have hpos := s.pos
  have hbase : (Int32.ofNat termPortBase.toNat).toInt = 9200 := rfl
  cases hsum : CheckedInt.add (Int32.ofNat termPortBase.toNat) s.val with
  | none =>
      rw [CheckedInt.add_eq_none, hbase] at hsum
      omega
  | some p =>
      refine ⟨p.toUInt32.toUInt16, by simp [port, hsum], ?_⟩
      rw [CheckedInt.add_eq_some, hbase] at hsum
      have hnonneg : 0 ≤ p := by
        rw [Int32.le_iff_toInt_le, hsum]
        change 0 ≤ _
        omega
      have hnat : (p.toUInt32.toNat : ℤ) = p.toInt := by
        rw [Int32.toNat_toUInt32_of_le hnonneg]
        change ((p.toInt.toNat : ℕ) : ℤ) = p.toInt
        omega
      rw [UInt32.toNat_toUInt16]
      omega

theorem port_of_le {s : Slot} (h : s.val.toInt ≤ maxSlot) :
    ∃ p, port s = some p ∧ (p.toNat : ℤ) = 9200 + s.val.toInt := by
  have hpos := s.pos
  rw [maxSlot] at h
  obtain ⟨p, hp, hval⟩ := port_eq (show s.val.toInt < 2 ^ 31 - 9200 by omega)
  exact ⟨p, hp, by omega⟩

theorem exists_registered (s : Slot) :
    ∃ slots g, Run TermdCall.machine Always .zero slots g ∧ s ∈ slots := by
  have hfirst : (Segment.zero.registerTerminal .granted s.number.val).1 = true := by
    rw [← TerminalMap.toSegment_empty, TerminalMap.registerTerminal_toSegment]
    simp [TerminalMap.register, TerminalMap.empty, OrderedMap.keys, OrderedMap.empty,
      OrderedMap.size, maxTerminals]
  have hstep : TermdCall.machine.step .zero (.register s .granted) =
      some ((Segment.zero.registerTerminal .granted s.number.val).2, [s]) := by
    change TermdCall.step .zero (.register s .granted) = _
    simp [TermdCall.step, hfirst]
  exact ⟨_, _, Run.start.snoc trivial hstep, by simp⟩

theorem toInt_resolve_le (g : Segment) (t : TermNo) :
    (Locator.resolve .granted g t).toInt ≤ 3000 + maxSlot := by
  cases hn : Locator.number t with
  | none =>
      rw [Locator.resolve_of_no_number hn]
      decide
  | some n =>
      have hlt := Locator.number_lt hn
      rw [Locator.resolve_of_number hn]
      split
      · rw [Locator.toInt_termdIndex hlt, maxSlot]
        omega
      · decide

theorem port_ne_of_ne {s s' : Slot} (h : s.val.toInt ≤ maxSlot) (h' : s'.val.toInt ≤ maxSlot)
    (hne : s' ≠ s) : port s' ≠ port s := by
  obtain ⟨p, hp, hval⟩ := port_of_le h
  obtain ⟨p', hp', hval'⟩ := port_of_le h'
  rw [hp, hp']
  intro heq
  obtain rfl := Option.some.inj heq
  have hslot : s'.val = s.val := Int32.toInt_inj.mp (by omega)
  cases s
  cases s'
  cases hslot
  exact hne rfl

theorem resolve_digits {s : Slot} (h : s.val.toInt ≤ maxSlot) {slots : List Slot} {g : Segment}
    (hrun : Run TermdCall.machine Always .zero slots g) (hs : s ∈ slots) :
    some (Locator.resolve .granted g (Locator.digits s.number.val.toNat)) = index s := by
  rw [maxSlot] at h
  have hnat := s.toNat_number
  have hnumber := Locator.number_digits (show s.number.val.toNat < 10000 by omega)
  rw [UInt32.ofNat_toNat] at hnumber
  have hresolve := Locator.toInt_resolve hrun hs (Locator.denotes_iff.mpr hnumber)
  obtain ⟨i, hi, hval⟩ := index_eq h
  rw [hi, Option.some.injEq, ← Int32.toInt_inj, hresolve, hval]
  rfl

theorem identified_of_le {used : Set Slot} (h : ∀ s ∈ used, s.val.toInt ≤ maxSlot) {s : Slot}
    (hs : s ∈ used) : Identified used s where
  index := index_eq (h s hs)
  key := key_eq (h s hs)
  port := port_of_le (h s hs)
  apart := by
    have hpos := s.pos
    refine ⟨fun hgateway => ?_, fun s' hs' hne => port_ne_of_ne (h s hs) (h s' hs') hne⟩
    obtain ⟨p, hp, hval⟩ := port_of_le (h s hs)
    rw [hp] at hgateway
    obtain rfl := Option.some.inj hgateway
    have hgate : (gatewayPort.toNat : ℤ) = 9100 := rfl
    omega
  resolved := ⟨_, fun _ _ hrun hmem => resolve_digits (h s hs) hrun hmem⟩

/-- No four characters lead to a termd whose number has more than four digits. -/
theorem le_of_identified {used : Set Slot} {s : Slot} (h : Identified used s) :
    s.val.toInt ≤ maxSlot := by
  obtain ⟨i, hi, hval⟩ := h.index
  obtain ⟨t, ht⟩ := h.resolved
  obtain ⟨slots, g, hrun, hmem⟩ := exists_registered s
  have hresolve := ht slots g hrun hmem
  rw [hi] at hresolve
  have hle := toInt_resolve_le g t
  rw [Option.some.inj hresolve, hval] at hle
  omega

/-- `main` accepts every slot, and the termds of the slots in use can all be told
from one another and from gateway, and reached by a terminal number, exactly
when no slot in use is above 8999. -/
theorem identified_iff (used : Set Slot) :
    (∀ s : Slot, ∃ arg, slotOfArg arg = some s) ∧
      ((∀ s ∈ used, Identified used s) ↔ ∀ s ∈ used, s.val.toInt ≤ 8999) := by
  refine ⟨exists_slotOfArg, ?_⟩
  constructor
  · intro h s hs
    exact le_of_identified (h s hs)
  · intro h s hs
    exact identified_of_le h hs

/-- The slot whose port wraps around to the one of gateway. -/
def wrapping : Slot := ⟨65436, by decide⟩

/-- `main` accepts it, it would listen on 9100, and no terminal number leads to it. -/
theorem wrapping_not_identified :
    slotOfArg [0x36, 0x35, 0x34, 0x33, 0x36] = some wrapping ∧ port wrapping = some gatewayPort ∧
      ¬∀ s ∈ Set.univ, Identified Set.univ s := by
  refine ⟨by decide, by decide, fun h => ?_⟩
  have hgateway := (h wrapping trivial).apart.1
  exact hgateway (by decide)

end Fleetcore.Identity
