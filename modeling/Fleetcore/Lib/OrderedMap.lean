import Mathlib.Data.List.Nodup

/-!
Finite maps that remember the order of first insertion, and the linear scans
that implement them on an array of rows.

`Scan.modifyFirst` is the loop that walks over the rows, changes the first one
that matches and breaks. On rows with distinct keys it changes exactly the row
of the key (`Scan.modifyFirst_keyed`), and on a concatenation it stops in the
first part that has a match, which is what makes the free rows at the end of a
table invisible to a search for an occupied one.

`OrderedMap` is the map such a table stands for: its entries in the order of
first insertion, the keys distinct by construction.
-/

namespace Scan

variable {α κ : Type*}

/-- Changes the first element that satisfies `p`; `none` when there is none. -/
def modifyFirst (p : α → Bool) (f : α → α) : List α → Option (List α)
  | [] => none
  | a :: l => if p a then some (f a :: l) else (modifyFirst p f l).map (a :: ·)

@[simp] theorem modifyFirst_nil (p : α → Bool) (f : α → α) :
    modifyFirst p f [] = none := rfl

theorem modifyFirst_cons_of_pos {p : α → Bool} {f : α → α} {a : α} {l : List α}
    (h : p a = true) : modifyFirst p f (a :: l) = some (f a :: l) := by
  simp [modifyFirst, h]

theorem modifyFirst_cons_of_neg {p : α → Bool} {f : α → α} {a : α} {l : List α}
    (h : p a = false) : modifyFirst p f (a :: l) = (modifyFirst p f l).map (a :: ·) := by
  simp [modifyFirst, h]

theorem length_modifyFirst {p : α → Bool} {f : α → α} {l l' : List α}
    (h : modifyFirst p f l = some l') : l'.length = l.length := by
  induction l generalizing l' with
  | nil => simp at h
  | cons a l ih =>
      cases hp : p a with
      | true =>
          rw [modifyFirst_cons_of_pos hp] at h
          obtain rfl := Option.some.inj h
          rfl
      | false =>
          rw [modifyFirst_cons_of_neg hp, Option.map_eq_some_iff] at h
          obtain ⟨d, hd, rfl⟩ := h
          simp [ih hd]

theorem modifyFirst_eq_none {p : α → Bool} {f : α → α} {l : List α}
    (h : ∀ a ∈ l, p a = false) : modifyFirst p f l = none := by
  induction l with
  | nil => rfl
  | cons a l ih =>
      rw [modifyFirst_cons_of_neg (h a List.mem_cons_self),
        ih fun b hb => h b (List.mem_cons_of_mem _ hb)]
      rfl

theorem modifyFirst_append_of_none {p : α → Bool} {f : α → α} {l d : List α}
    (h : ∀ a ∈ l, p a = false) :
    modifyFirst p f (l ++ d) = (modifyFirst p f d).map (l ++ ·) := by
  induction l with
  | nil => simp
  | cons a l ih =>
      rw [List.cons_append, modifyFirst_cons_of_neg (h a List.mem_cons_self),
        ih fun b hb => h b (List.mem_cons_of_mem _ hb)]
      simp [Function.comp_def]

theorem modifyFirst_append_of_some {p : α → Bool} {f : α → α} {l l' d : List α}
    (h : modifyFirst p f l = some l') : modifyFirst p f (l ++ d) = some (l' ++ d) := by
  induction l generalizing l' with
  | nil => simp at h
  | cons a l ih =>
      cases hp : p a with
      | true =>
          rw [modifyFirst_cons_of_pos hp] at h
          obtain rfl := Option.some.inj h
          simp [modifyFirst_cons_of_pos hp]
      | false =>
          rw [modifyFirst_cons_of_neg hp, Option.map_eq_some_iff] at h
          obtain ⟨e, he, rfl⟩ := h
          simp [modifyFirst_cons_of_neg hp, ih he]

theorem find?_modifyFirst {p : α → Bool} {f : α → α} {l : List α} {a : α}
    (h : l.find? p = some a) (hf : p (f a) = true) :
    ∃ l', modifyFirst p f l = some l' ∧ l'.find? p = some (f a) := by
  induction l with
  | nil => simp at h
  | cons b l ih =>
      cases hp : p b with
      | true =>
          obtain rfl : b = a := by simpa [hp] using h
          exact ⟨f b :: l, modifyFirst_cons_of_pos hp, by simp [hf]⟩
      | false =>
          obtain ⟨l', hl, hfind⟩ := ih (by simpa [hp] using h)
          exact ⟨b :: l', by rw [modifyFirst_cons_of_neg hp, hl]; rfl, by simp [hp, hfind]⟩

theorem modifyFirst_eq_map_findIdx? (p : α → Bool) (f : α → α) (l : List α) :
    modifyFirst p f l = (l.findIdx? p).map fun i => l.modify i f := by
  induction l with
  | nil => rfl
  | cons a l ih =>
      cases hp : p a with
      | true => simp [modifyFirst_cons_of_pos hp, List.findIdx?_cons, hp]
      | false =>
          rw [modifyFirst_cons_of_neg hp, ih, List.findIdx?_cons, hp]
          cases l.findIdx? p <;> simp

/-- Among rows with distinct keys the scan changes exactly the row of `k`. -/
theorem modifyFirst_keyed [DecidableEq κ] (key : α → κ) (f : α → α) {l : List α} {k : κ}
    (hnd : (l.map key).Nodup) (hk : k ∈ l.map key) :
    modifyFirst (fun a => decide (key a = k)) f l =
      some (l.map fun a => if key a = k then f a else a) := by
  induction l with
  | nil => simp at hk
  | cons a l ih =>
      obtain ⟨hnot, hnd⟩ := List.nodup_cons.mp hnd
      by_cases ha : key a = k
      · have hrest : ∀ b ∈ l, key b ≠ k := fun b hb hbk =>
          hnot (ha ▸ hbk ▸ List.mem_map_of_mem hb)
        have hmap : (l.map fun b => if key b = k then f b else b) = l := by
          conv_rhs => rw [← List.map_id l]
          exact List.map_congr_left fun b hb => by simp [hrest b hb]
        rw [modifyFirst_cons_of_pos (by simpa using ha), List.map_cons, if_pos ha, hmap]
      · have hk' : k ∈ l.map key := by
          simpa [Ne.symm ha] using hk
        rw [modifyFirst_cons_of_neg (by simpa using ha), ih hnd hk', List.map_cons, if_neg ha]
        rfl

end Scan

/-- A finite map with its entries in the order of first insertion. -/
structure OrderedMap (κ ν : Type*) where
  entries : List (κ × ν)
  nodup_keys : (entries.map Prod.fst).Nodup

namespace OrderedMap

variable {κ ν : Type*}

@[ext] theorem ext {m m' : OrderedMap κ ν} (h : m.entries = m'.entries) : m = m' := by
  cases m; cases m'; cases h; rfl

def empty : OrderedMap κ ν := ⟨[], List.nodup_nil⟩

def keys (m : OrderedMap κ ν) : List κ := m.entries.map Prod.fst

def size (m : OrderedMap κ ν) : ℕ := m.entries.length

/-- A new key goes to the end. -/
def push (m : OrderedMap κ ν) (k : κ) (v : ν) (h : k ∉ m.keys) : OrderedMap κ ν where
  entries := m.entries ++ [(k, v)]
  nodup_keys := by
    rw [List.map_append, List.nodup_append]
    refine ⟨m.nodup_keys, by simp, ?_⟩
    intro a ha b hb hab
    simp only [List.map_cons, List.map_nil, List.mem_singleton] at hb
    exact h (hb ▸ hab ▸ ha)

@[simp] theorem keys_push (m : OrderedMap κ ν) (k : κ) (v : ν) (h : k ∉ m.keys) :
    (m.push k v h).keys = m.keys ++ [k] := by
  simp [push, keys]

@[simp] theorem size_push (m : OrderedMap κ ν) (k : κ) (v : ν) (h : k ∉ m.keys) :
    (m.push k v h).size = m.size + 1 := by
  simp [push, size]

@[simp] theorem length_keys (m : OrderedMap κ ν) : m.keys.length = m.size := by
  simp [keys, size]

variable [DecidableEq κ]

def get? (m : OrderedMap κ ν) (k : κ) : Option ν :=
  (m.entries.find? fun e => decide (e.1 = k)).map Prod.snd

def adjustEntry (k : κ) (f : ν → ν) (e : κ × ν) : κ × ν :=
  if e.1 = k then (e.1, f e.2) else e

@[simp] theorem fst_adjustEntry (k : κ) (f : ν → ν) (e : κ × ν) :
    (adjustEntry k f e).1 = e.1 := by
  unfold adjustEntry; split <;> rfl

def adjust (m : OrderedMap κ ν) (k : κ) (f : ν → ν) : OrderedMap κ ν where
  entries := m.entries.map (adjustEntry k f)
  nodup_keys := by
    rw [List.map_map, show Prod.fst ∘ adjustEntry k f = Prod.fst from
      funext fun e => fst_adjustEntry k f e]
    exact m.nodup_keys

@[simp] theorem keys_adjust (m : OrderedMap κ ν) (k : κ) (f : ν → ν) :
    (m.adjust k f).keys = m.keys := by
  simp [keys, adjust, Function.comp_def]

@[simp] theorem size_adjust (m : OrderedMap κ ν) (k : κ) (f : ν → ν) :
    (m.adjust k f).size = m.size := by
  simp [size, adjust]

theorem get?_isSome (m : OrderedMap κ ν) (k : κ) : (m.get? k).isSome ↔ k ∈ m.keys := by
  simp [get?, keys]

theorem get?_eq_none (m : OrderedMap κ ν) {k : κ} (h : k ∉ m.keys) : m.get? k = none := by
  rw [← Option.not_isSome_iff_eq_none, get?_isSome]
  exact h

theorem get?_push_self (m : OrderedMap κ ν) (k : κ) (v : ν) (h : k ∉ m.keys) :
    (m.push k v h).get? k = some v := by
  have hnone : m.entries.find? (fun e => decide (e.1 = k)) = none := by
    rw [List.find?_eq_none]
    exact fun e he hek => h (by simpa using (of_decide_eq_true hek) ▸ List.mem_map_of_mem he)
  simp [get?, push, List.find?_append, hnone]

theorem get?_push_of_ne (m : OrderedMap κ ν) {k k' : κ} (v : ν) (h : k ∉ m.keys)
    (hne : k' ≠ k) : (m.push k v h).get? k' = m.get? k' := by
  simp [get?, push, List.find?_append, Ne.symm hne]

private theorem find?_adjust (m : OrderedMap κ ν) (k k' : κ) (f : ν → ν) :
    ((m.adjust k f).entries.find? fun e => decide (e.1 = k')) =
      (m.entries.find? fun e => decide (e.1 = k')).map (adjustEntry k f) := by
  rw [adjust, List.find?_map]
  simp only [Function.comp_def, fst_adjustEntry]

theorem get?_adjust_self (m : OrderedMap κ ν) (k : κ) (f : ν → ν) :
    (m.adjust k f).get? k = (m.get? k).map f := by
  simp only [get?, find?_adjust, Option.map_map]
  cases he : m.entries.find? fun e => decide (e.1 = k) with
  | none => rfl
  | some e =>
      have hek : e.1 = k := by simpa using List.find?_some he
      simp [adjustEntry, hek]

theorem get?_adjust_of_ne (m : OrderedMap κ ν) {k k' : κ} (f : ν → ν) (hne : k' ≠ k) :
    (m.adjust k f).get? k' = m.get? k' := by
  simp only [get?, find?_adjust, Option.map_map]
  cases he : m.entries.find? fun e => decide (e.1 = k') with
  | none => rfl
  | some e =>
      have hek : e.1 = k' := by simpa using List.find?_some he
      simp [adjustEntry, hek, hne]

end OrderedMap
