import Fleetcore.TableAccess

/-!
What identifies the terminals in the table survives any crash.

A process that is killed between two stores leaves a row half written, and the
next operation runs on that row. What every single store keeps is that a row
taken since the start is the only one of its number and has no free row before
it (`Segment.OrderlySince`), and an occupied row never changes its number. A row
being assigned is no exception, whatever the order of its stores: it counts as
free until the number is stored, and from then on it is the row of that number.
-/

namespace Fleetcore

/-- A row that is occupied now and was free in `g₀` is the only one of its
number, and no row before it is free. -/
structure Segment.OrderlySince (g₀ g : Segment) : Prop where
  unique : ∀ i j, g₀.number i = 0 → g.number i ≠ 0 → g.number i = g.number j → i = j
  front : ∀ i j, g₀.number j = 0 → i ≤ j → g.number j ≠ 0 → g.number i ≠ 0

theorem Segment.OrderlySince.refl (g : Segment) : OrderlySince g g where
  unique := fun _ _ hfree hi => absurd hfree hi
  front := fun _ _ hfree _ hj => absurd hfree hj

theorem Segment.OrderlySince.congr {g₀ g g' : Segment} (h : OrderlySince g₀ g)
    (hnum : ∀ i, g'.number i = g.number i) : OrderlySince g₀ g' where
  unique := fun i j => by
    rw [hnum, hnum]
    exact h.unique i j
  front := fun i j => by
    rw [hnum, hnum]
    exact h.front i j

namespace TableAccess

open CriticalSection StateMachine

/-! ### What the replies say -/

/-- A successful registration lists the number, and a search finds a row of its
number exactly when that is listed. -/
def Says (c : Call) (r : TableReply) (g : Segment) : Prop :=
  match c.op, r with
  | .registerTerminal n _, .done ok => ok = true → g.Listed n
  | .find n _, .entry ok row => (ok = true ↔ g.Listed n) ∧ (ok = true → row.termNo = n)
  | _, _ => True

/-! ### Rules for the programs -/

section Rules

variable {post : TableReply → Segment → Prop} {g₀ g : Segment}

/-- A program keeps the rows taken since `g₀` in order, and the rows their numbers. -/
abbrev KeepsRows (g₀ : Segment) (post : TableReply → Segment → Prop) (b : Body) (g : Segment) :
    Prop :=
  b.Keeps access (Segment.OrderlySince g₀) Segment.Extends post g

theorem keeps_read {i : ℕ} {next : TermEntry → Body} (hI : g₀.OrderlySince g)
    (h : KeepsRows g₀ post (next (g.rows.getD i .zero)) g) :
    KeepsRows g₀ post (.access (.read i) next) g :=
  ⟨hI, .refl g, h⟩

theorem keeps_copyRow {i : ℕ} {next : TermEntry → Body} (hI : g₀.OrderlySince g)
    (h : KeepsRows g₀ post (next (g.rows.getD i .zero)) g) : KeepsRows g₀ post (copyRow i next) g :=
  keeps_read hI (keeps_read hI (keeps_read hI (keeps_read hI (keeps_read hI h))))

/-- A scan goes on where it finds the number, knowing that no row before has it. -/
theorem keeps_scan {n : UInt32} {found : ℕ → Body} {missing : Body}
    (hI : g₀.OrderlySince g) {k i : ℕ} (hk : i + k = maxTerminals)
    (hbefore : ∀ l < i, g.number l ≠ n)
    (hfound : ∀ j < maxTerminals, g.number j = n → (∀ l < j, g.number l ≠ n) →
      KeepsRows g₀ post (found j) g)
    (hmissing : (∀ l < maxTerminals, g.number l ≠ n) → KeepsRows g₀ post missing g) :
    KeepsRows g₀ post (scan n found missing k i) g := by
  induction k generalizing i with
  | zero => exact hmissing fun l hl => hbefore l (by omega)
  | succ k ih =>
      refine keeps_read hI ?_
      by_cases hn : (g.rows.getD i .zero).termNo = n
      · rw [if_pos hn]
        exact hfound i (by omega) hn hbefore
      · rw [if_neg hn]
        refine ih (by omega) fun l hl => ?_
        rcases Nat.lt_succ_iff_lt_or_eq.mp hl with hlt | rfl
        · exact hbefore l hlt
        · exact hn

theorem keeps_stores {i : ℕ} {e : TermEntry} {rest : Body} {J : Segment → Prop}
    (hJI : ∀ g, J g → g₀.OrderlySince g)
    (hstep : ∀ g f, J g → g.Extends (g.modifyRow i (store e f)) ∧ J (g.modifyRow i (store e f)))
    {fs : List Field} (hJ : J g)
    (hrest : J (g.modifyRow i fun r => fs.foldl (fun r f => store e f r) r) →
      KeepsRows g₀ post rest (g.modifyRow i fun r => fs.foldl (fun r f => store e f r) r)) :
    KeepsRows g₀ post (stores i e rest fs) g := by
  induction fs generalizing g with
  | nil =>
      have hid : (g.modifyRow i fun r => r) = g := Segment.ext (List.modify_id _ _)
      simp only [List.foldl_nil, hid] at hrest
      exact hrest hJ
  | cons f fs ih =>
      obtain ⟨hext, hJ'⟩ := hstep g f hJ
      refine ⟨hJI g hJ, hext, ih hJ' ?_⟩
      rw [access, modifyRow_modifyRow]
      exact hrest

theorem keeps_snapshotScan (hI : g₀.OrderlySince g)
    (hpost : ∀ n out, post (.entries n out) g) {k i n : ℕ} {out : List TermEntry} :
    KeepsRows g₀ post (snapshotScan k i n out) g := by
  induction k generalizing i n out with
  | zero => exact ⟨hI, hpost _ _⟩
  | succ k ih =>
      rw [snapshotScan]
      split
      · refine keeps_read hI ?_
        split
        · exact keeps_copyRow hI ih
        · exact ih
      · exact ⟨hI, hpost _ _⟩

theorem keeps_update {i : ℕ} {e : TermEntry} {rest : Body} {fs : List Field}
    (hI : g₀.OrderlySince g) (hfs : .termNo ∉ fs)
    (hrest : ∀ g : Segment, g₀.OrderlySince g → KeepsRows g₀ post rest g) :
    KeepsRows g₀ post (stores i e rest fs) g := by
  induction fs generalizing g with
  | nil => exact hrest g hI
  | cons f fs ih =>
      have hkeep : ∀ r, (store e f r).termNo = r.termNo := fun r => by
        cases f
        case termNo => exact absurd List.mem_cons_self hfs
        all_goals rfl
      refine ⟨hI, g.extends_modifyRow i fun _ => hkeep _, ih ?_ fun h => ?_⟩
      · exact hI.congr fun j => g.number_modifyRow_of_keep i j hkeep
      · exact hfs (List.mem_cons_of_mem f h)

/-- The row a number is about to be stored in, or has been. -/
structure Claimed (g₀ : Segment) (n : UInt32) (i : ℕ) (g : Segment) : Prop where
  orderly : g₀.OrderlySince g
  lt : i < maxTerminals
  row : g.number i = 0 ∨ g.number i = n
  others : ∀ j ≠ i, g.number j ≠ n
  before : ∀ j < i, g.number j ≠ 0

theorem Claimed.store {n : UInt32} (hn : n ≠ 0) {i : ℕ} {g : Segment} (h : Claimed g₀ n i g)
    {e : TermEntry} (he : e.termNo = n) (f : Field) :
    g.Extends (g.modifyRow i (store e f)) ∧ Claimed g₀ n i (g.modifyRow i (store e f)) := by
  by_cases hf : f = .termNo
  · subst hf
    have hnum : ∀ j, (g.modifyRow i (TableAccess.store e .termNo)).number j =
        if j = i then n else g.number j := fun j => by
      rw [Segment.number_modifyRow]
      simp [TableAccess.store, he, h.lt]
    have hext : g.Extends (g.modifyRow i (TableAccess.store e .termNo)) := fun j hj => by
      rw [hnum]
      split
      · next heq => exact (h.row.resolve_left (heq ▸ hj)).symm.trans (heq ▸ rfl)
      · rfl
    have hothers : ∀ j ≠ i, (g.modifyRow i (TableAccess.store e .termNo)).number j ≠ n :=
      fun j hj => by
        rw [hnum, if_neg hj]
        exact h.others j hj
    refine ⟨hext, ⟨⟨fun j j' hfree hj heq => ?_, fun j j' hfree hle hj' => ?_⟩, h.lt, .inr ?_,
      hothers, fun j hj => ?_⟩⟩
    · -- the new number is in no other row
      by_cases hji : j = i
      · subst hji
        by_contra hne
        have hj' := hothers j' (Ne.symm hne)
        rw [← heq, hnum, if_pos rfl] at hj'
        exact hj' rfl
      · by_cases hj'i : j' = i
        · subst hj'i
          rw [hnum j', if_pos rfl] at heq
          exact absurd heq (hothers j hji)
        · rw [hnum, if_neg hji] at hj heq
          rw [hnum, if_neg hj'i] at heq
          exact h.orderly.unique j j' hfree hj heq
    · rw [hnum] at hj' ⊢
      split
      · exact hn
      · next hji =>
          by_cases hj'i : j' = i
          · exact h.before j (lt_of_le_of_ne (hj'i ▸ hle) hji)
          · rw [if_neg hj'i] at hj'
            exact h.orderly.front j j' hfree hle hj'
    · rw [hnum, if_pos rfl]
    · rw [hnum, if_neg (Nat.ne_of_lt hj)]
      exact h.before j hj
  · have hkeep : ∀ r, (TableAccess.store e f r).termNo = r.termNo := fun r => by
      cases f
      case termNo => exact absurd rfl hf
      all_goals rfl
    have hnum : ∀ j, (g.modifyRow i (TableAccess.store e f)).number j = g.number j :=
      fun j => g.number_modifyRow_of_keep i j hkeep
    exact ⟨fun j _ => hnum j, h.orderly.congr hnum, h.lt, by rw [hnum]; exact h.row,
      fun j hj => by rw [hnum]; exact h.others j hj, fun j hj => by rw [hnum]; exact h.before j hj⟩

end Rules

theorem ne_zero_of_admits {isOpen : Bool} {n : UInt32}
    {order : { fs : List Field // fs.Perm Field.all }}
    (h : Call.admits ⟨isOpen, .registerTerminal n order⟩ = true) : n ≠ 0 := by
  simpa using ((Bool.and_eq_true _ _).mp h).2

theorem keeper (g₀ : Segment) :
    Keeper operations (Segment.OrderlySince g₀) Segment.Extends Says where
  refl := .refl
  trans := fun _ _ _ => .trans
  body := by
    rintro ⟨isOpen, op⟩ g hadmits hI
    cases op with
    | registerTerminal n order =>
        have hn := ne_zero_of_admits hadmits
        refine keeps_scan hI rfl (by simp) (fun j hj hjn _ => ?_) fun hnone => ?_
        · exact ⟨hI, fun _ => Segment.listed_iff.mpr ⟨j, hj, hjn⟩⟩
        · -- the first free row is claimed from the first store to the last
          refine keeps_scan hI rfl (by simp) (fun i hi hfree hbefore => ?_) fun _ => ?_
          · have hothers : ∀ j, g.number j ≠ n := fun j hj => by
              by_cases hlt : j < maxTerminals
              · exact hnone j hlt hj
              · exact hn (hj.symm.trans (g.number_of_le (Nat.le_of_not_lt hlt)))
            refine keeps_stores (J := Claimed g₀ n i) (fun g h => h.orderly)
              (fun g f h => h.store hn rfl f)
              ⟨hI, hi, .inl hfree, fun j _ => hothers j, hbefore⟩ fun hclaimed => ?_
            refine ⟨hclaimed.orderly, fun _ => Segment.listed_iff.mpr ⟨i, hi, ?_⟩⟩
            rw [Segment.number_modifyRow, if_pos ⟨rfl, hi⟩, foldl_store_of_perm _ order.2]
            rfl
          · exact ⟨hI, fun h => by cases h⟩
    | setState now n state capabilities =>
        refine keeps_scan hI rfl (by simp) (fun j _ _ _ => ?_) fun _ => ⟨hI, trivial⟩
        exact keeps_update hI (by decide) fun g hg => ⟨hg, trivial⟩
    | touch now n =>
        refine keeps_scan hI rfl (by simp) (fun j _ _ _ => ?_) fun _ => ⟨hI, trivial⟩
        exact keeps_update hI (by decide) fun g hg => ⟨hg, trivial⟩
    | find n out =>
        refine keeps_scan hI rfl (by simp) (fun j hj hjn _ => ?_) fun hnone => ?_
        · have hl : g.Listed n := Segment.listed_iff.mpr ⟨j, hj, hjn⟩
          exact keeps_copyRow hI ⟨hI, iff_of_true rfl hl, fun _ => hjn⟩
        · have hnot : ¬ g.Listed n := fun hl => by
            obtain ⟨j, hj, hjn⟩ := Segment.listed_iff.mp hl
            exact hnone j hj hjn
          exact ⟨hI, iff_of_false Bool.false_ne_true hnot, fun h => absurd h Bool.false_ne_true⟩
    | snapshot out =>
        cases out with
        | none => exact ⟨hI, trivial⟩
        | some out => exact keeps_snapshotScan hI fun _ _ => trivial

/-! ### Every reachable state -/

variable {P : Type*} [DecidableEq P]

omit [DecidableEq P] in
theorem kept_init (g : Segment) :
    Kept operations (Segment.OrderlySince g) Segment.Extends Says
      (CriticalSection.State.init (P := P) g) :=
  .init (.refl g)

theorem listed_of_registered {g : Segment} {tr : List (Event P Call TableReply)} {s : State P}
    (h : Run (machine P) Always (.init g) tr s) {p : P} {isOpen : Bool} {n : UInt32}
    {order : { fs : List Field // fs.Perm Field.all }}
    (hr : .returned p ⟨isOpen, .registerTerminal n order⟩ (.done true) ∈ tr) :
    n ≠ 0 ∧ s.mem.Listed n := by
  have hn := ne_zero_of_admits (admits_of_returned h hr)
  have hsays := (keeper g).reply_run (kept_init g) (F := fun _ => True) (fun _ _ _ _ => trivial)
    trivial
    (Q := fun c r g => ∀ order, c.op = .registerTerminal n order → r = .done true → g.Listed n)
    (fun c r g g' hQ hd order hc hr => hd.listed hn (hQ order hc hr))
    (fun c r g _ _ hpost order hc hr => by
      subst hr
      simpa [Says, hc] using hpost) (p := p) (by simp [CriticalSection.State.init]) h
  exact ⟨hn, hsays _ _ hr order rfl rfl⟩

/-- Whoever is not already coming back finds a number that is listed. -/
theorem found_of_listed {g : Segment} {n : UInt32} (hn : n ≠ 0) {s s' : State P}
    (hs : Kept operations (Segment.OrderlySince g) Segment.Extends Says s)
    (hl : s.mem.Listed n) {q : P} (hq : ∀ c r, s.phase q ≠ .returning c r true)
    {tr : List (Event P Call TableReply)}
    (h : Run (machine P) Always s tr s') {isOpen : Bool} {out row : TermEntry} {ok : Bool}
    (hr : .returned q ⟨isOpen, .find n out⟩ (.entry ok row) ∈ tr) :
    ok = true ∧ row.termNo = n := by
  have hsays := (keeper g).reply_run hs (F := fun g => g.Listed n)
    (fun g g' hl hd => hd.listed hn hl) hl
    (Q := fun c r _ => ∀ out ok row, c.op = .find n out → r = .entry ok row →
      ok = true ∧ row.termNo = n)
    (fun c r g g' hQ _ => hQ)
    (fun c r g _ hl hpost out ok row hc hr => by
      obtain ⟨isOpen, op⟩ := c
      subst hr hc
      have hok := hpost.1.mpr hl
      exact ⟨hok, hpost.2 hok⟩) hq h
  exact hsays _ _ hr out ok row rfl rfl

/-- Whatever is killed at whatever point, no number is in two rows, the occupied
rows are the first ones, and an occupied row keeps its number; a number
registered with success is found by every search that obtains the lock later. -/
theorem identity_survives {tr : List (Event P Call TableReply)} {s : State P}
    (h : Run (machine P) Always (.init .zero) tr s) :
    (∀ i j, s.mem.number i ≠ 0 → s.mem.number i = s.mem.number j → i = j) ∧
    (∀ i j, i ≤ j → s.mem.number j ≠ 0 → s.mem.number i ≠ 0) ∧
    ∀ tr' s', Run (machine P) Always s tr' s' →
      (∀ i, s.mem.number i ≠ 0 → s'.mem.number i = s.mem.number i) ∧
      ∀ p isOpen n order,
        .returned p ⟨isOpen, .registerTerminal n order⟩ (.done true) ∈ tr →
        ∀ q, (∀ c r, s.phase q ≠ .returning c r true) →
          ∀ isOpen' out ok row, .returned q ⟨isOpen', .find n out⟩ (.entry ok row) ∈ tr' →
            ok = true ∧ row.termNo = n := by
  obtain ⟨hkept, -⟩ := (keeper .zero).kept_run (kept_init .zero) h
  refine ⟨?_, ?_, fun tr' s' h' => ⟨?_, ?_⟩⟩
  · intro i j
    exact hkept.inv.unique i j (Segment.number_zero i)
  · intro i j
    exact hkept.inv.front i j (Segment.number_zero j)
  · exact ((keeper .zero).kept_run hkept h').2
  · intro p isOpen n order hr q hq isOpen' out ok row hfind
    obtain ⟨hn, hl⟩ := listed_of_registered h hr
    exact found_of_listed hn hkept hl hq h' hfind

/-- The first process is killed after storing the number, the second registers
the same number on that row, and a search finds it. -/
theorem identity_survives_torn_row : ∃ tr s tr' s' row,
    Run (machine Bool) Always (.init .zero) tr s ∧ Run (machine Bool) Always s tr' s' ∧
      .killed false ∈ tr ∧
      .returned false ⟨true, .find 1001 .zero⟩ (.entry true row) ∈ tr' ∧
      (true = true ∧ row.termNo = 1001) := by
  let register : Call := ⟨true, .registerTerminal 1001 ⟨Field.all, .refl _⟩⟩
  let search : Call := ⟨true, .find 1001 .zero⟩
  let row : TermEntry := { TermEntry.zero with termNo := 1001 }
  let reads : List (Action Bool Call) := List.replicate 6 (.access false)
  obtain ⟨tr, s, h, hQ⟩ := (machine Bool).exists_run_of_exec Always (.init .zero)
    ([.call false register, .lock false .ok] ++ List.replicate 66 (.access false) ++
      [.kill false, .call true register, .lock true .ok, .access true, .unlock true .ok, .ret true])
    (fun r => decide (.killed false ∈ r.2 ∧ .returned true register (.done true) ∈ r.2) &&
      ((machine Bool).exec r.1 ([.call false search, .lock false .ok] ++ reads ++
        [.unlock false .ok, .ret false])).any fun
          (r' : State Bool × List (Event Bool Call TableReply)) =>
            decide (.returned false search (.entry true row) ∈ r'.2))
    (by decide +kernel) (by decide +kernel)
  simp only [Bool.and_eq_true, decide_eq_true_eq] at hQ
  obtain ⟨⟨hkill, hret⟩, hsearch⟩ := hQ
  obtain ⟨r', hr', hfound⟩ := (Option.any_eq_true _ _).mp hsearch
  have h' := (machine Bool).run_of_exec_always s _ hr'
  -- a process that can call is idle
  have hidle : ∀ c r, s.phase false ≠ .returning c r true := fun c r heq => by
    simp [Machine.exec, machine, Operations.machine, Operations.step, heq] at hsearch
  have hmem := of_decide_eq_true hfound
  exact ⟨tr, s, r'.2, r'.1, row, h, h', hkill, hmem, ((identity_survives h).2.2 r'.2 r'.1 h').2 true
    true 1001 ⟨Field.all, .refl _⟩ hret false hidle true .zero true row hmem⟩

end TableAccess

end Fleetcore
