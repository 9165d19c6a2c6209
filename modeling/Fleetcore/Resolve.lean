import Fleetcore.TermdTable

/-!
Exactness of `Locator::resolve`.

The key domain of the lookup overlaps the mark of a free row: the digits
`0000` are found in every table that has a free row. This is the only number
that resolves without being registered; every other one resolves exactly when
its termd has come up, and then to the index of that termd.
-/

namespace Fleetcore.Locator

open StateMachine

/-- Four ASCII digits that denote the number of a slot. -/
def Denotes (t : TermNo) (slot : Slot) : Prop :=
  (IsDigit t.c0 ∧ IsDigit t.c1 ∧ IsDigit t.c2 ∧ IsDigit t.c3) ∧
    (value t : ℤ) = 1000 + slot.val.toInt

/-- What is expected of `resolve` on four bytes, when the termds of `slots` have
come up. -/
structure Exact (slots : List Slot) (g : Segment) (t : TermNo) : Prop where
  registered : resolve .granted g t ≠ 0 ↔ ∃ slot ∈ slots, Denotes t slot
  index : ∀ slot ∈ slots, Denotes t slot →
    (resolve .granted g t).toInt = idxTermdBase + slot.val.toInt
  distinct : ∀ t', ∀ slot ∈ slots, ∀ slot' ∈ slots, Denotes t slot → Denotes t' slot' →
    resolve .granted g t = resolve .granted g t' → slot = slot'
  elsewhere : (resolve .granted g t).toInt ≠ idxGateway ∧
    (resolve .granted g t).toInt ≠ idxLocator

theorem denotes_iff {t : TermNo} {slot : Slot} :
    Denotes t slot ↔ number t = some slot.number.val := by
  have hslot := slot.toNat_number
  rw [number_eq_some, Denotes]
  exact and_congr_right fun _ => by omega

theorem resolve_of_number {t : TermNo} {n : UInt32} (h : number t = some n) (g : Segment) :
    resolve .granted g t = if g.Listed n then termdIndex n else 0 := by
  have hp : parseDigits t.bytes 0 = some n := h
  have hfind := g.find_granted_fst n .zero
  simp only [resolve, hp, hfind]

theorem resolve_of_no_number {t : TermNo} (h : number t = none) (a : Access) (g : Segment) :
    resolve a g t = 0 := by
  have hp : parseDigits t.bytes 0 = none := h
  rw [resolve, hp]

theorem resolve_of_not_granted {a : Access} (h : a ≠ .granted) (g : Segment) (t : TermNo) :
    resolve a g t = 0 := by
  have hfind : ∀ n, (g.find a n .zero).1 = false := fun n =>
    Bool.eq_false_iff.mpr fun hf => h (Segment.find_fst.mp hf).1
  rw [resolve]
  split
  · rfl
  · rw [hfind]
    rfl

section Runs

variable {slots : List Slot} {g : Segment} {t : TermNo}
  (h : Run TermdCall.machine Always .zero slots g)
include h

theorem resolve_ne_zero_iff {n : UInt32} (hn : number t = some n) (h0 : n ≠ 0) :
    resolve .granted g t ≠ 0 ↔ ∃ slot ∈ slots, Denotes t slot := by
  have hlisted : g.Listed n ↔ ∃ slot ∈ slots, Denotes t slot := by
    rw [TermdCall.listed_iff h h0]
    simp only [denotes_iff, hn, Option.some.injEq, eq_comm]
  rw [resolve_of_number hn, ← hlisted]
  split
  · next hl => exact iff_of_true (termdIndex_ne_zero (number_lt hn)) hl
  · next hl => exact iff_of_false (not_not.mpr rfl) hl

theorem toInt_resolve {slot : Slot} (hslot : slot ∈ slots) (ht : Denotes t slot) :
    (resolve .granted g t).toInt = idxTermdBase + slot.val.toInt := by
  have hn := denotes_iff.mp ht
  have hlisted := (TermdCall.listed_iff h slot.number.ne_zero).mpr ⟨slot, hslot, rfl⟩
  rw [resolve_of_number hn, if_pos hlisted, toInt_termdIndex (number_lt hn), slot.toNat_number,
    idxTermdBase]
  omega

/-- Whatever resolves leads to a termd, unless it is 0. -/
theorem toInt_resolve_cases (h0 : number t ≠ some 0) :
    (resolve .granted g t).toInt = 0 ∨ idxTermdBase < (resolve .granted g t).toInt := by
  cases hn : number t with
  | none =>
      rw [resolve_of_no_number hn]
      exact .inl rfl
  | some n =>
      have hne : n ≠ 0 := fun hz => h0 (hz ▸ hn)
      by_cases hres : resolve .granted g t = 0
      · rw [hres]
        exact .inl rfl
      · obtain ⟨slot, hslot, ht⟩ := (resolve_ne_zero_iff h hn hne).mp hres
        have hpos := slot.pos
        rw [toInt_resolve h hslot ht]
        exact .inr (by omega)

theorem exact_of_ne_zero (h0 : number t ≠ some 0) : Exact slots g t where
  registered := by
    cases hn : number t with
    | none => simp [resolve_of_no_number hn, denotes_iff, hn]
    | some n => exact resolve_ne_zero_iff h hn fun hz => h0 (hz ▸ hn)
  index := fun _ hslot ht => toInt_resolve h hslot ht
  distinct := fun t' slot hslot slot' hslot' ht ht' heq => by
    have hindex := toInt_resolve h hslot ht
    rw [heq, toInt_resolve h hslot' ht'] at hindex
    have hval : slot.val = slot'.val := Int32.toInt_inj.mp (by omega)
    cases slot
    cases slot'
    cases hval
    rfl
  elsewhere := by
    rcases toInt_resolve_cases h h0 with hzero | hbase
    · rw [hzero]
      decide
    · simp only [idxGateway, idxLocator, idxTermdBase] at *
      omega

end Runs

/-- The four digits `0000` resolve to locator itself while a row is free. -/
theorem exact_zero_iff {t : TermNo} (h0 : number t = some 0) (slots : List Slot) (g : Segment) :
    Exact slots g t ↔ ¬g.Listed 0 := by
  have hnone : ¬∃ slot ∈ slots, Denotes t slot := by
    rintro ⟨slot, -, ht⟩
    rw [denotes_iff, h0] at ht
    exact slot.number.ne_zero (Option.some.inj ht).symm
  have hres := resolve_of_number h0 g
  constructor
  · intro hex hl
    rw [if_pos hl] at hres
    have hself : (resolve .granted g t).toInt = idxLocator := by
      rw [hres]
      rfl
    exact hex.elsewhere.2 hself
  · intro hl
    rw [if_neg hl] at hres
    refine ⟨iff_of_false (not_not.mpr hres) hnone, fun slot hslot ht => ?_,
      fun _ slot hslot _ _ ht => ?_, ?_⟩
    · exact absurd ⟨slot, hslot, ht⟩ hnone
    · exact absurd ⟨slot, hslot, ht⟩ hnone
    · rw [hres]
      decide

theorem number_eq_zero {t : TermNo} : number t = some 0 ↔ t = digits 0 := by
  constructor
  · exact digits_number
  · rintro rfl
    exact number_digits (by decide)

/-- Whatever the termds have called, and for every four bytes, `resolve` is
exact unless the bytes are `0000` and the table has a free row. A lookup that
does not obtain the lock resolves nothing. -/
theorem resolve_exact_iff {slots : List Slot} {g : Segment}
    (h : Run TermdCall.machine Always .zero slots g) (t : TermNo) :
    (Exact slots g t ↔ ¬(t = digits 0 ∧ g.Listed 0)) ∧
      ∀ a ≠ Access.granted, resolve a g t = 0 := by
  refine ⟨?_, fun a ha => resolve_of_not_granted ha g t⟩
  by_cases h0 : number t = some 0
  · rw [exact_zero_iff h0, ← number_eq_zero]
    simp [h0]
  · refine iff_of_true (exact_of_ne_zero h h0) ?_
    rintro ⟨ht, -⟩
    exact h0 (number_eq_zero.mpr ht)

/-- Two termds come up, and one of them links its terminal. -/
theorem resolve_exact_iff_two_slots : ∃ slots g,
    Run TermdCall.machine Always .zero slots g ∧ slots.length = 2 ∧
      Exact slots g (digits 1002) ∧ ¬Exact slots g (digits 0) := by
  obtain ⟨slots, g, h, hQ⟩ := TermdCall.machine.exists_run_of_exec Always .zero
    [.register ⟨1, by decide⟩ .granted, .register ⟨2, by decide⟩ .granted,
      .register ⟨3, by decide⟩ ⟨true, false⟩,
      .setState ⟨2, by decide⟩ .granted 5 termStateConnected capLock,
      .touch ⟨2, by decide⟩ .granted 6]
    (fun r => decide (r.2.length = 2 ∧ r.1.Listed 0)) (by decide +kernel) (by decide +kernel)
  obtain ⟨hlength, hfree⟩ := of_decide_eq_true hQ
  refine ⟨slots, g, h, hlength, (resolve_exact_iff h _).1.mpr ?_, fun hex => ?_⟩
  · rintro ⟨heq, -⟩
    exact absurd heq (by decide)
  · exact (resolve_exact_iff h _).1.mp hex ⟨rfl, hfree⟩

/-- In a table nobody has registered in, `0000` resolves to locator. -/
theorem resolve_zero_inexact :
    ¬∀ slots g, Run TermdCall.machine Always .zero slots g → ∀ t, Exact slots g t := by
  intro hall
  have hex := hall [] .zero .start (digits 0)
  have hself : (resolve .granted .zero (digits 0)).toInt = idxLocator := by decide +kernel
  exact hex.elsewhere.2 hself

end Fleetcore.Locator
