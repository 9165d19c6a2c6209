import Fleetcore.Lib.OrderedMap
import Mathlib.Data.List.Basic

/-!
The terminal table (`common/shm_table.cpp`).

The segment is 64 rows, and every operation is a scan over them that breaks at
the first match; a row with number 0 is free. Whether the object is open and
whether the lock was obtained are arguments (`Access`), and so is the wall
clock.
-/

namespace Fleetcore

def maxTerminals : ℕ := 64

def termStateUnused : UInt8 := 0
def termStateDisconnected : UInt8 := 1
def termStateConnected : UInt8 := 2

def capLock : UInt32 := (1 : UInt32) <<< 0

/-- One row; number 0 marks a free one. -/
structure TermEntry where
  termNo : UInt32
  capabilities : UInt32
  state : UInt8
  reserved : UInt8 × UInt8 × UInt8
  lastSeen : UInt64
  deriving DecidableEq, Repr

/-- The row the kernel's zero fill leaves, and what `TermEntry e{}` is. -/
def TermEntry.zero : TermEntry := ⟨0, 0, termStateUnused, (0, 0, 0), 0⟩

structure Segment where
  rows : List TermEntry
  length_rows : rows.length = maxTerminals
  deriving DecidableEq, Repr

@[ext] theorem Segment.ext {g g' : Segment} (h : g.rows = g'.rows) : g = g' := by
  cases g; cases g'; cases h; rfl

def Segment.zero : Segment where
  rows := List.replicate maxTerminals .zero
  length_rows := List.length_replicate

/-- What an operation finds before it touches the rows. -/
structure Access where
  isOpen : Bool
  locked : Bool
  deriving DecidableEq, Repr

def Access.granted : Access := ⟨true, true⟩

/-! ### The operations -/

namespace Segment

/-- Changes the first row that satisfies `p`; whether there was one. -/
def updateFirst (g : Segment) (p : TermEntry → Bool) (f : TermEntry → TermEntry) :
    Bool × Segment :=
  match h : Scan.modifyFirst p f g.rows with
  | some rows => (true, ⟨rows, (Scan.length_modifyFirst h).trans g.length_rows⟩)
  | none => (false, g)

def registerTerminal (a : Access) (termNo : UInt32) (g : Segment) : Bool × Segment :=
  if !a.isOpen || termNo == 0 then (false, g)
  else if !a.locked then (false, g)
  else if g.rows.any fun r => decide (r.termNo = termNo) then (true, g)
  else g.updateFirst (fun r => decide (r.termNo = 0)) fun _ =>
    { TermEntry.zero with
      termNo := termNo, capabilities := 0, state := termStateDisconnected, lastSeen := 0 }

def setState (a : Access) (now : UInt64) (termNo : UInt32) (state : UInt8)
    (capabilities : UInt32) (g : Segment) : Bool × Segment :=
  if !a.isOpen then (false, g)
  else if !a.locked then (false, g)
  else g.updateFirst (fun r => decide (r.termNo = termNo)) fun r =>
    { r with state := state, capabilities := capabilities, lastSeen := now }

def touch (a : Access) (now : UInt64) (termNo : UInt32) (g : Segment) : Bool × Segment :=
  if !a.isOpen then (false, g)
  else if !a.locked then (false, g)
  else g.updateFirst (fun r => decide (r.termNo = termNo)) fun r => { r with lastSeen := now }

def find (a : Access) (termNo : UInt32) (out : TermEntry) (g : Segment) : Bool × TermEntry :=
  if !a.isOpen then (false, out)
  else if !a.locked then (false, out)
  else
    match g.rows.find? fun r => decide (r.termNo = termNo) with
    | some r => (true, r)
    | none => (false, out)

/-- The loop of `snapshot`, `n` rows written so far. -/
def snapshotLoop : List TermEntry → ℕ → List TermEntry → ℕ × List TermEntry
  | [], n, out => (n, out)
  | r :: rows, n, out =>
      if n < out.length then
        if r.termNo ≠ 0 then snapshotLoop rows (n + 1) (out.set n r)
        else snapshotLoop rows n out
      else (n, out)

/-- `out` is the caller's array, as long as its capacity; `none` for a null pointer. -/
def snapshot (a : Access) (out : Option (List TermEntry)) (g : Segment) :
    ℕ × Option (List TermEntry) :=
  match out with
  | none => (0, none)
  | some out =>
      if !a.isOpen then (0, some out)
      else if !a.locked then (0, some out)
      else
        let r := snapshotLoop g.rows 0 out
        (r.1, some r.2)

end Segment

theorem Segment.updateFirst_of_some {g : Segment} {p : TermEntry → Bool}
    {f : TermEntry → TermEntry} {rows : List TermEntry}
    (h : Scan.modifyFirst p f g.rows = some rows) :
    g.updateFirst p f = (true, ⟨rows, (Scan.length_modifyFirst h).trans g.length_rows⟩) := by
  unfold updateFirst
  split
  · next rows' h' =>
      obtain rfl : rows = rows' := Option.some.inj (h.symm.trans h')
      rfl
  · next h' => cases h.symm.trans h'

theorem Segment.updateFirst_of_none {g : Segment} {p : TermEntry → Bool}
    {f : TermEntry → TermEntry} (h : Scan.modifyFirst p f g.rows = none) :
    g.updateFirst p f = (false, g) := by
  unfold updateFirst
  split
  · next h' => cases h.symm.trans h'
  · rfl

def Segment.row? (g : Segment) (n : UInt32) : Option TermEntry :=
  g.rows.find? fun r => decide (r.termNo = n)

theorem Segment.row?_setState {g : Segment} {n : UInt32} {r : TermEntry} (now : UInt64)
    (state : UInt8) (capabilities : UInt32) (h : g.row? n = some r) :
    (g.setState .granted now n state capabilities).2.row? n =
      some { r with state := state, capabilities := capabilities, lastSeen := now } := by
  have hn : r.termNo = n := by simpa using List.find?_some h
  obtain ⟨rows, hscan, hfind⟩ := Scan.find?_modifyFirst
    (f := fun r => { r with state := state, capabilities := capabilities, lastSeen := now }) h
    (by simpa using hn)
  simp only [setState, Access.granted, Bool.not_true, Bool.false_eq_true, if_false,
    updateFirst_of_some hscan]
  exact hfind

def Segment.Listed (g : Segment) (n : UInt32) : Prop := ∃ r ∈ g.rows, r.termNo = n

instance (g : Segment) (n : UInt32) : Decidable (g.Listed n) :=
  inferInstanceAs (Decidable (∃ r ∈ g.rows, r.termNo = n))

theorem Segment.find_granted_fst (g : Segment) (n : UInt32) (out : TermEntry) :
    (g.find .granted n out).1 = true ↔ g.Listed n := by
  simp only [find, Access.granted, Bool.not_true, Bool.false_eq_true, if_false, Listed]
  cases h : g.rows.find? fun r => decide (r.termNo = n) with
  | none => simpa using List.find?_eq_none.mp h
  | some r => simpa using ⟨r, List.mem_of_find?_eq_some h, by simpa using List.find?_some h⟩

theorem Segment.find_fst {g : Segment} {a : Access} {n : UInt32} {out : TermEntry} :
    (g.find a n out).1 = true ↔ a = .granted ∧ g.Listed n := by
  constructor
  · intro h
    have ha : a = .granted := by
      unfold find at h
      split_ifs at h with hopen hlock
      cases a
      simp_all [Access.granted]
    exact ⟨ha, (g.find_granted_fst n out).mp (ha ▸ h)⟩
  · rintro ⟨rfl, h⟩
    exact (g.find_granted_fst n out).mpr h

/-! ### Rows by their index -/

def Segment.modifyRow (g : Segment) (i : ℕ) (f : TermEntry → TermEntry) : Segment where
  rows := g.rows.modify i f
  length_rows := by rw [List.length_modify, g.length_rows]

/-- The number in row `i`, 0 where there is no such row. -/
def Segment.number (g : Segment) (i : ℕ) : UInt32 := (g.rows.getD i .zero).termNo

theorem Segment.number_zero (i : ℕ) : Segment.zero.number i = 0 := by
  have hget : Segment.zero.rows.getD i .zero = .zero := by
    rw [List.getD_eq_getElem?_getD, zero, List.getElem?_replicate]
    split <;> rfl
  rw [number, hget]
  rfl

theorem Segment.number_of_le (g : Segment) {i : ℕ} (hi : maxTerminals ≤ i) : g.number i = 0 := by
  have hget : g.rows[i]? = none := by
    rw [List.getElem?_eq_none_iff, g.length_rows]
    exact hi
  rw [number, List.getD_eq_getElem?_getD, hget]
  rfl

theorem Segment.number_modifyRow (g : Segment) (i j : ℕ) (f : TermEntry → TermEntry) :
    (g.modifyRow i f).number j =
      if j = i ∧ i < maxTerminals then (f (g.rows.getD i .zero)).termNo else g.number j := by
  simp only [number, modifyRow, List.getD_eq_getElem?_getD, List.getElem?_modify]
  by_cases hj : j = i
  · subst hj
    by_cases hlt : j < maxTerminals
    · have hlen : j < g.rows.length := by
        rw [g.length_rows]
        exact hlt
      have hget : g.rows[j]? = some g.rows[j] := List.getElem?_eq_getElem hlen
      simp [hget, hlt]
    · have hget : g.rows[j]? = none := by
        rw [List.getElem?_eq_none_iff, g.length_rows]
        omega
      simp [hget, hlt]
  · simp [hj, Ne.symm hj]

theorem Segment.number_modifyRow_of_keep (g : Segment) (i j : ℕ) {f : TermEntry → TermEntry}
    (hf : ∀ r, (f r).termNo = r.termNo) : (g.modifyRow i f).number j = g.number j := by
  rw [number_modifyRow]
  split
  · next h => rw [hf, h.1, number]
  · rfl

theorem Segment.listed_iff {g : Segment} {n : UInt32} :
    g.Listed n ↔ ∃ i < maxTerminals, g.number i = n := by
  constructor
  · rintro ⟨r, hr, rfl⟩
    obtain ⟨i, hi, rfl⟩ := List.mem_iff_getElem.mp hr
    refine ⟨i, g.length_rows ▸ hi, ?_⟩
    rw [number, List.getD_eq_getElem?_getD, List.getElem?_eq_getElem hi]
    rfl
  · rintro ⟨i, hi, hn⟩
    have hlt : i < g.rows.length := by rw [g.length_rows]; exact hi
    refine ⟨g.rows[i], List.getElem_mem hlt, ?_⟩
    rwa [number, List.getD_eq_getElem?_getD, List.getElem?_eq_getElem hlt] at hn

theorem Segment.updateFirst_eq (g : Segment) (p : TermEntry → Bool) (f : TermEntry → TermEntry) :
    g.updateFirst p f =
      match g.rows.findIdx? p with
      | some i => (true, g.modifyRow i f)
      | none => (false, g) := by
  have hscan := Scan.modifyFirst_eq_map_findIdx? p f g.rows
  cases hi : g.rows.findIdx? p with
  | none =>
      rw [hi] at hscan
      exact updateFirst_of_none hscan
  | some i =>
      rw [hi] at hscan
      exact updateFirst_of_some hscan

/-! ### Rows keep their numbers -/

/-- An occupied row keeps its number. -/
def Segment.Extends (g g' : Segment) : Prop := ∀ i, g.number i ≠ 0 → g'.number i = g.number i

theorem Segment.Extends.refl (g : Segment) : g.Extends g := fun _ _ => rfl

theorem Segment.Extends.trans {g g' g'' : Segment} (h : g.Extends g') (h' : g'.Extends g'') :
    g.Extends g'' := fun i hi => (h' i (h i hi ▸ hi)).trans (h i hi)

theorem Segment.Extends.listed {g g' : Segment} (h : g.Extends g') {n : UInt32} (hn : n ≠ 0)
    (hl : g.Listed n) : g'.Listed n := by
  obtain ⟨i, hi, rfl⟩ := listed_iff.mp hl
  exact listed_iff.mpr ⟨i, hi, h i hn⟩

theorem Segment.Extends.listed_zero {g g' : Segment} (h : g.Extends g') (hl : g'.Listed 0) :
    g.Listed 0 := by
  obtain ⟨i, hi, h0⟩ := listed_iff.mp hl
  refine listed_iff.mpr ⟨i, hi, ?_⟩
  by_contra hne
  exact hne ((h i hne).symm.trans h0)

theorem Segment.extends_modifyRow (g : Segment) (i : ℕ) {f : TermEntry → TermEntry}
    (hf : g.number i ≠ 0 → (f (g.rows.getD i .zero)).termNo = g.number i) :
    g.Extends (g.modifyRow i f) := by
  intro j hj
  rw [number_modifyRow]
  split
  · next h => rw [h.1] at hj ⊢; exact hf hj
  · rfl

theorem Segment.extends_updateFirst (g : Segment) {p : TermEntry → Bool}
    {f : TermEntry → TermEntry}
    (hf : ∀ r, p r = true → r.termNo ≠ 0 → (f r).termNo = r.termNo) :
    g.Extends (g.updateFirst p f).2 := by
  rw [updateFirst_eq]
  cases hi : g.rows.findIdx? p with
  | none => exact .refl g
  | some i =>
      obtain ⟨hlt, hp, -⟩ := List.findIdx?_eq_some_iff_getElem.mp hi
      refine g.extends_modifyRow i ?_
      rw [number, List.getD_eq_getElem?_getD, List.getElem?_eq_getElem hlt]
      exact hf _ hp

theorem Segment.extends_registerTerminal (g : Segment) (a : Access) (n : UInt32) :
    g.Extends (g.registerTerminal a n).2 := by
  unfold registerTerminal
  split_ifs
  · exact .refl g
  · exact .refl g
  · exact .refl g
  · exact g.extends_updateFirst fun r hfree hne => absurd (of_decide_eq_true hfree) hne

theorem Segment.extends_setState (g : Segment) (a : Access) (now : UInt64) (n : UInt32)
    (state : UInt8) (capabilities : UInt32) :
    g.Extends (g.setState a now n state capabilities).2 := by
  unfold setState
  split_ifs
  · exact .refl g
  · exact .refl g
  · exact g.extends_updateFirst fun _ _ _ => rfl

theorem Segment.listed_of_registerTerminal {g : Segment} {a : Access} {n : UInt32}
    (h : (g.registerTerminal a n).1 = true) : (g.registerTerminal a n).2.Listed n := by
  unfold registerTerminal at h ⊢
  split_ifs at h ⊢ with _ _ hany
  · obtain ⟨r, hr, hrn⟩ := List.any_eq_true.mp hany
    exact ⟨r, hr, of_decide_eq_true hrn⟩
  · rw [updateFirst_eq] at h ⊢
    cases hi : g.rows.findIdx? fun r => decide (r.termNo = 0) with
    | none => simp [hi] at h
    | some i =>
        obtain ⟨hlt, -⟩ := List.findIdx?_eq_some_iff_getElem.mp hi
        rw [g.length_rows] at hlt
        refine listed_iff.mpr ⟨i, hlt, ?_⟩
        rw [number_modifyRow, if_pos ⟨rfl, hlt⟩]

end Fleetcore
