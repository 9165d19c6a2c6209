import Fleetcore.TerminalMap
import Fleetcore.Upkeep

/-!
The terminal table as the termds use it.

A termd calls the table with the number of its slot. No two slots have the same
number, and none has the number that marks a free row, so that the rows are
always the layout of a map, whether a call obtains the lock or not.
-/

namespace Fleetcore

/-! ### The numbers of the slots -/

namespace Slot

def number (slot : Slot) : TerminalNumber :=
  ⟨(Termd.listening slot.val).termNo, System.slotNumber_ne_zero slot⟩

theorem toNat_number (slot : Slot) : (slot.number.val.toNat : ℤ) = 1000 + slot.val.toInt := by
  have hpos := slot.pos
  have hbits : slot.val.toInt = (slot.val.toUInt32.toNat : ℤ).bmod (2 ^ 32) :=
    BitVec.toInt_eq_toNat_bmod _
  have hlt := slot.val.toUInt32.toNat_lt
  have hsum : slot.number.val.toNat = (1000 + slot.val.toUInt32.toNat) % 2 ^ 32 :=
    UInt32.toNat_add 1000 _
  rw [Int.bmod_eq_emod] at hbits
  split at hbits <;> omega

theorem number_injective : Function.Injective number := by
  intro slot slot' h
  have hnat := slot.toNat_number
  rw [h, slot'.toNat_number] at hnat
  have hval : slot.val = slot'.val := Int32.toInt_inj.mp (by omega)
  cases slot
  cases slot'
  cases hval
  rfl

end Slot

/-! ### Calls that may fail to obtain the lock -/

theorem Access.guard_eq {α : Type} (a : Access) (refused granted : α) :
    (if !a.isOpen then refused else if !a.locked then refused else granted) =
      if a = .granted then granted else refused := by
  obtain ⟨isOpen, locked⟩ := a
  cases isOpen with
  | false => rfl
  | true => cases locked <;> rfl

namespace TerminalMap

theorem registerTerminal_eq (m : TerminalMap) (a : Access) (t : TerminalNumber) :
    m.toSegment.registerTerminal a t.val =
      if a = .granted then ((m.register t).1, (m.register t).2.toSegment)
      else (false, m.toSegment) := by
  have hzero : (t.val == 0) = false := by simpa using t.ne_zero
  have hgranted := m.registerTerminal_toSegment t
  rw [Segment.registerTerminal, hzero, Bool.or_false, Access.guard_eq] at hgranted ⊢
  rw [← hgranted, if_pos rfl]

theorem setState_eq (m : TerminalMap) (a : Access) (now : UInt64) (t : TerminalNumber)
    (state : UInt8) (capabilities : UInt32) :
    m.toSegment.setState a now t.val state capabilities =
      if a = .granted then
        ((m.adjust t fun _ => ⟨state, capabilities, now⟩).1,
          (m.adjust t fun _ => ⟨state, capabilities, now⟩).2.toSegment)
      else (false, m.toSegment) := by
  have hrow := m.updateFirst_toSegment t (f := fun _ => ⟨state, capabilities, now⟩)
    (g := fun r => { r with state := state, capabilities := capabilities, lastSeen := now })
    fun _ => rfl
  rw [Segment.setState, Access.guard_eq, hrow]

theorem touch_eq (m : TerminalMap) (a : Access) (now : UInt64) (t : TerminalNumber) :
    m.toSegment.touch a now t.val =
      if a = .granted then
        ((m.adjust t fun i => { i with lastSeen := now }).1,
          (m.adjust t fun i => { i with lastSeen := now }).2.toSegment)
      else (false, m.toSegment) := by
  have hrow := m.updateFirst_toSegment t (f := fun i => { i with lastSeen := now })
    (g := fun r => { r with lastSeen := now }) fun _ => rfl
  rw [Segment.touch, Access.guard_eq, hrow]

theorem keys_adjust (m : TerminalMap) (t : TerminalNumber) (f : LinkState → LinkState) :
    (m.adjust t f).2.map.keys = m.map.keys := by
  rw [adjust]
  split
  · exact OrderedMap.keys_adjust _ _ _
  · rfl

theorem mem_keys_register (m : TerminalMap) (t t' : TerminalNumber) :
    t' ∈ (m.register t).2.map.keys ↔ t' ∈ m.map.keys ∨ (m.register t).1 = true ∧ t' = t := by
  rw [register]
  split
  · next hmem =>
      constructor
      · exact .inl
      · rintro (h | ⟨-, rfl⟩)
        · exact h
        · exact hmem
  · split
    · simp [OrderedMap.keys_push]
    · simp

theorem listed_toSegment (m : TerminalMap) (t : TerminalNumber) :
    m.toSegment.Listed t.val ↔ t ∈ m.map.keys := by
  rw [← Segment.find_granted_fst _ _ .zero, find_toSegment, find, ← OrderedMap.get?_isSome]
  cases m.map.get? t <;> simp

end TerminalMap

/-! ### Calls of the termds -/

/-- A call of the termd of a slot. -/
inductive TermdCall where
  /-- Its start-up. -/
  | register (slot : Slot) (a : Access)
  | setState (slot : Slot) (a : Access) (now : UInt64) (state : UInt8) (capabilities : UInt32)
  | touch (slot : Slot) (a : Access) (now : UInt64)

namespace TermdCall

open StateMachine

def step (g : Segment) : TermdCall → Option (Segment × List Slot)
  | .register slot a =>
      let r := g.registerTerminal a slot.number.val
      some (r.2, if r.1 then [slot] else [])
  | .setState slot a now state capabilities =>
      some ((g.setState a now slot.number.val state capabilities).2, [])
  | .touch slot a now => some ((g.touch a now slot.number.val).2, [])

def machine : Machine Segment TermdCall Slot := ⟨step⟩

/-- The rows hold the numbers of the slots that have come up. -/
def Holds (slots : List Slot) (g : Segment) : Prop :=
  ∃ m : TerminalMap, g = m.toSegment ∧
    ∀ t, t ∈ m.map.keys ↔ ∃ slot ∈ slots, slot.number = t

theorem holds_init : Holds [] .zero := ⟨.empty, rfl, by simp [TerminalMap.empty, OrderedMap.keys,
  OrderedMap.empty]⟩

theorem Holds.keep {slots : List Slot} {m m' : TerminalMap}
    (h : ∀ t, t ∈ m.map.keys ↔ ∃ slot ∈ slots, slot.number = t)
    (hkeys : m'.map.keys = m.map.keys) : Holds (slots ++ []) m'.toSegment :=
  ⟨m', rfl, by rwa [List.append_nil, hkeys]⟩

theorem holds_step {slots es : List Slot} {g g' : Segment} {c : TermdCall} (h : Holds slots g)
    (hs : step g c = some (g', es)) : Holds (slots ++ es) g' := by
  obtain ⟨m, rfl, hkeys⟩ := h
  cases c with
  | register slot a =>
      simp only [step, Option.some.injEq, Prod.mk.injEq] at hs
      obtain ⟨rfl, rfl⟩ := hs
      rw [m.registerTerminal_eq]
      split
      · refine ⟨(m.register slot.number).2, rfl, fun t => ?_⟩
        rw [m.mem_keys_register, hkeys]
        cases (m.register slot.number).1 with
        | false => simp
        | true => simp [or_and_right, exists_or, eq_comm]
      · exact .keep hkeys rfl
  | setState slot a now state capabilities =>
      simp only [step, Option.some.injEq, Prod.mk.injEq] at hs
      obtain ⟨rfl, rfl⟩ := hs
      rw [m.setState_eq]
      split
      · exact .keep hkeys (m.keys_adjust _ _)
      · exact .keep hkeys rfl
  | touch slot a now =>
      simp only [step, Option.some.injEq, Prod.mk.injEq] at hs
      obtain ⟨rfl, rfl⟩ := hs
      rw [m.touch_eq]
      split
      · exact .keep hkeys (m.keys_adjust _ _)
      · exact .keep hkeys rfl

theorem holds_run {slots : List Slot} {g : Segment} (h : Run machine Always .zero slots g) :
    Holds slots g :=
  h.invariant Holds holds_init fun _ _ _ _ _ hI _ hs => holds_step hI hs

theorem listed_iff {slots : List Slot} {g : Segment} (h : Run machine Always .zero slots g)
    {n : UInt32} (hn : n ≠ 0) : g.Listed n ↔ ∃ slot ∈ slots, slot.number.val = n := by
  obtain ⟨m, rfl, hkeys⟩ := holds_run h
  have hlisted := (m.listed_toSegment ⟨n, hn⟩).trans (hkeys ⟨n, hn⟩)
  simpa only [TerminalNumber.ext_iff] using hlisted

end TermdCall

end Fleetcore
