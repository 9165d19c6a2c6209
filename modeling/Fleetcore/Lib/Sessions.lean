import Fleetcore.Lib.StateMachine
import Mathlib.Data.List.Count
import Mathlib.Data.List.Flatten
import Mathlib.Order.WellFounded

/-!
Traces cut into sessions.

Some events of a trace open a session, and whatever comes between two of them
belongs to the first. A property of the sessions of every run follows from a
relation between the session that is going on and the state, when an opening
event starts over with an empty session (`Run.sessions`): nothing is carried
from one session to the next.
-/

namespace Sessions

open StateMachine

variable {E : Type*} (opens : E → Bool)

/-- What comes after the `k`-th opening and before the next; session 0 is what
comes before the first. -/
def session : ℕ → List E → List E
  | _, [] => []
  | 0, e :: tr => if opens e then [] else e :: session 0 tr
  | k + 1, e :: tr => if opens e then session k tr else session (k + 1) tr

def current (tr : List E) : List E := session opens (tr.countP opens) tr

variable {opens}

theorem session_eq_nil {k : ℕ} {tr : List E} (h : tr.countP opens < k) :
    session opens k tr = [] := by
  induction tr generalizing k with
  | nil => rw [session]
  | cons e tr ih =>
      obtain ⟨k, rfl⟩ := Nat.exists_eq_succ_of_ne_zero (n := k) (by omega)
      rw [session]
      split
      · next he =>
          rw [List.countP_cons_of_pos he] at h
          exact ih (by omega)
      · next he =>
          rw [List.countP_cons_of_neg he] at h
          exact ih (by omega)

theorem session_sublist (k : ℕ) (tr : List E) : (session opens k tr).Sublist tr := by
  induction tr generalizing k with
  | nil => rw [session]
  | cons e tr ih =>
      cases k with
      | zero =>
          rw [session]
          split
          · exact List.nil_sublist _
          · exact (ih 0).cons_cons e
      | succ k =>
          rw [session]
          split
          · exact (ih k).cons e
          · exact (ih (k + 1)).cons e

theorem session_append {es : List E} (hes : ∀ e ∈ es, opens e = false) (k : ℕ) (tr : List E) :
    session opens k (tr ++ es) =
      session opens k tr ++ if tr.countP opens = k then es else [] := by
  induction tr generalizing k with
  | nil =>
      induction es generalizing k with
      | nil => rw [ite_self, List.append_nil, List.append_nil]
      | cons e es ih =>
          have he : opens e = false := hes e List.mem_cons_self
          have ih := ih fun e' he' => hes e' (List.mem_cons_of_mem _ he')
          cases k with
          | zero => simpa [session, he] using ih 0
          | succ k => simpa [session, he] using ih (k + 1)
  | cons e tr ih =>
      cases he : opens e with
      | false =>
          rw [List.cons_append, List.countP_cons_of_neg (by simp [he])]
          cases k with
          | zero => simp [session, he, ih]
          | succ k => simp [session, he, ih]
      | true =>
          rw [List.cons_append, List.countP_cons_of_pos he]
          cases k with
          | zero => simp [session, he]
          | succ k => simp [session, he, ih]

theorem session_opening {e : E} (he : opens e = true) (k : ℕ) (tr : List E) :
    session opens k (tr ++ [e]) = session opens k tr := by
  induction tr generalizing k with
  | nil =>
      cases k with
      | zero => simp [session, he]
      | succ k => simp [session, he]
  | cons e' tr ih =>
      cases k with
      | zero => simp [session, ih]
      | succ k => simp [session, ih]

theorem current_append {es : List E} (hes : ∀ e ∈ es, opens e = false) (tr : List E) :
    current opens (tr ++ es) = current opens tr ++ es := by
  have hzero : es.countP opens = 0 := List.countP_eq_zero.mpr fun e he => by simp [hes e he]
  have hcount : (tr ++ es).countP opens = tr.countP opens := by
    rw [List.countP_append, hzero, Nat.add_zero]
  rw [current, hcount, session_append hes, if_pos rfl, current]

theorem current_opening {e : E} (he : opens e = true) (tr : List E) :
    current opens (tr ++ [e]) = [] := by
  have hcount : (tr ++ [e]).countP opens = tr.countP opens + 1 := by simp [he]
  rw [current, hcount, session_opening he, session_eq_nil (Nat.lt_succ_self _)]

theorem flatMap_session_concat {α : Type*} {g : E → List α} (hg : ∀ e, opens e = true → g e = [])
    (k : ℕ) (tr : List E) (e : E) : (session opens k (tr ++ [e])).flatMap g =
      (session opens k tr).flatMap g ++ if (tr ++ [e]).countP opens = k then g e else [] := by
  by_cases he : opens e = true
  · rw [session_opening he, hg e he, ite_self, List.append_nil]
  · have hone : ∀ x ∈ [e], opens x = false := fun x hx => by
      rw [List.mem_singleton.mp hx]
      exact Bool.eq_false_iff.mpr he
    have hcount : (tr ++ [e]).countP opens = tr.countP opens := by simp [he]
    rw [session_append hone, List.flatMap_append, hcount]
    split <;> simp

section Run

variable {S A : Type*} {m : Machine S A E} {ok : S → A → Prop} {s₀ s : S} {tr : List E}

/-- What a step does to the session that is going on: it adds to it, or it opens
another one with its first event. -/
inductive Advance (opens : E → Bool) (R : List E → S → Prop) (cur es : List E) (s : S) : Prop
  | goes (hes : ∀ e ∈ es, opens e = false) (h : R (cur ++ es) s)
  | starts {e : E} {rest : List E} (heq : es = e :: rest) (he : opens e = true)
      (hrest : ∀ e ∈ rest, opens e = false) (h : R rest s)

/-- A step of a part is one of the whole, as far as the part goes. -/
theorem Advance.of_part {T : Type*} {R : List E → S → Prop} (part : T → S) {cur es : List E} {t : T}
    (h : Advance opens R cur es (part t)) :
    Advance opens (fun cur t => R cur (part t)) cur es t := by
  cases h with
  | goes hes h => exact .goes hes h
  | starts heq he hrest h => exact .starts heq he hrest h

/-- `R` relates the session that is going on to the state; what it says of a
session alone holds of every session of a run. -/
theorem Run.sessions (h : Run m ok s₀ tr s) (R : List E → S → Prop) (Q : List E → Prop)
    (hQ : ∀ es s, R es s → Q es) (h₀ : R [] s₀)
    (hstep : ∀ cur s a s' es, R cur s → ok s a → m.step s a = some (s', es) →
      Advance opens R cur es s') : ∀ k, Q (session opens k tr) := by
  have hboth := h.invariant
    (fun tr s => R (current opens tr) s ∧ ∀ k, Q (session opens k tr)) ⟨h₀, fun k => ?_⟩ ?_
  · exact hboth.2
  · rw [session]
    exact hQ _ _ h₀
  · rintro tr s a s' es ⟨hcur, hall⟩ hok hs
    -- a session is as it was, unless it is the one that is going on
    have hadd : ∀ tr es s, (∀ e ∈ es, opens e = false) → R (current opens tr ++ es) s →
        (∀ k, Q (session opens k tr)) →
          R (current opens (tr ++ es)) s ∧ ∀ k, Q (session opens k (tr ++ es)) := by
      intro tr es s hes hR hall
      refine ⟨by rwa [current_append hes], fun k => ?_⟩
      rw [session_append hes]
      split
      · next hk => exact hk ▸ hQ _ _ hR
      · simpa using hall k
    cases hstep _ s a s' es hcur hok hs with
    | goes hes hR => exact hadd tr es s' hes hR hall
    | starts heq he hrest hR =>
        subst heq
        rw [List.append_cons]
        refine hadd _ _ s' hrest ?_ fun k => ?_
        · rwa [current_opening he]
        · rw [session_opening he]
          exact hall k

/-- The same for a machine that crashes in the middle of sessions: `R` has to
hold of what is then left of the session and the state it starts over from. -/
theorem Run.sessions_crashing {ok : S → Machine.Crash A → Prop}
    (h : Run (m.crashing s₀) ok s₀ tr s) (R : List E → S → Prop) (Q : List E → Prop)
    (hQ : ∀ es s, R es s → Q es) (h₀ : R [] s₀)
    (hstep : ∀ cur s a s' es, R cur s → m.step s a = some (s', es) → Advance opens R cur es s')
    (hdown : ∀ cur cur' s, R cur' s → cur <+: cur' → R cur s₀) :
    ∀ k, Q (session opens k tr) := by
  refine Run.sessions h R Q hQ h₀ fun cur s a s' es hR _ hs => ?_
  have hreset : Advance opens R cur [] s₀ :=
    .goes (fun _ hmem => by cases hmem) (by
      rw [List.append_nil]
      exact hdown cur cur s hR List.prefix_rfl)
  cases a with
  | act a => exact hstep cur s a s' es hR hs
  | reset =>
      obtain ⟨rfl, rfl⟩ := Prod.mk.inj (Option.some.inj hs)
      exact hreset
  | fail a n =>
      obtain ⟨⟨s₁, es₁⟩, hs₁, heq⟩ := Option.map_eq_some_iff.mp hs
      obtain ⟨rfl, rfl⟩ := Prod.mk.inj heq
      cases hstep cur s a s₁ es₁ hR hs₁ with
      | goes hes h =>
          exact .goes (fun e he => hes e (List.mem_of_mem_take he))
            (hdown _ _ _ h ((List.prefix_append_right_inj _).mpr (List.take_prefix _ _)))
      | @starts e rest heq he hrest h =>
          subst heq
          cases n with
          | zero => exact hreset
          | succ n =>
              exact .starts rfl he (fun e he => hrest e (List.mem_of_mem_take he))
                (hdown _ _ _ h (List.take_prefix _ _))

end Run

section Views

variable {F E' : Type*} {f : E → Option F}

theorem session_filterMap {opens' : F → Bool} (h : ∀ e, opens e = (f e).any opens') (k : ℕ)
    (tr : List E) : session opens' k (tr.filterMap f) = (session opens k tr).filterMap f := by
  induction tr generalizing k with
  | nil => cases k <;> rfl
  | cons e tr ih =>
      have he := h e
      cases hf : f e with
      | none =>
          rw [hf] at he
          rw [List.filterMap_cons_none hf, ih]
          cases k with
          | zero => simp [session, he, hf]
          | succ k => simp [session, he]
      | some x =>
          rw [hf, Option.any_some] at he
          rw [List.filterMap_cons_some hf]
          cases k with
          | zero => by_cases hx : opens' x = true <;> simp [session, he, hx, hf, ih]
          | succ k => by_cases hx : opens' x = true <;> simp [session, he, hx, ih]

theorem flatMap_filterMap {α : Type*} (f : E → Option F) (g : F → List α) (tr : List E) :
    (tr.filterMap f).flatMap g = tr.flatMap fun e => (f e).elim [] g := by
  induction tr with
  | nil => rfl
  | cons e tr ih =>
      rw [List.flatMap_cons, ← ih]
      cases he : f e <;> simp [he]

theorem flatMap_session_congr {F' α : Type*} {f' : E → Option F'} {o : F → Bool} {o' : F' → Bool}
    {g : F → List α} {g' : F' → List α} (ho : ∀ e, (f e).any o = (f' e).any o')
    (hg : ∀ e, (f e).elim [] g = (f' e).elim [] g') (k : ℕ) (tr : List E) :
    (session o k (tr.filterMap f)).flatMap g = (session o' k (tr.filterMap f')).flatMap g' := by
  rw [session_filterMap (fun _ => rfl), session_filterMap ho, flatMap_filterMap,
    flatMap_filterMap]
  exact congrArg (fun f => List.flatMap f _) (funext hg)

theorem filterMap_eq_flatMap_session (hf : ∀ e, opens e = true → f e = none) {n : ℕ}
    {tr : List E} (h : tr.countP opens ≤ n) :
    tr.filterMap f = (List.range (n + 1)).flatMap fun k => (session opens k tr).filterMap f := by
  induction tr generalizing n with
  | nil => simp [session]
  | cons e tr ih =>
      rw [List.range_succ_eq_map, List.flatMap_cons, List.flatMap_map]
      by_cases he : opens e = true
      · -- the first session is empty, and the others move up by one
        rw [List.countP_cons_of_pos he] at h
        obtain ⟨n, rfl⟩ := Nat.exists_eq_succ_of_ne_zero (n := n) (by omega)
        rw [List.filterMap_cons_none (hf e he), ih (n := n) (by omega)]
        simp [session, he]
      · rw [List.countP_cons_of_neg he] at h
        rw [← List.singleton_append, List.filterMap_append, ih h, List.range_succ_eq_map,
          List.flatMap_cons, List.flatMap_map, ← List.append_assoc, ← List.filterMap_append]
        simp [session, he]

end Views

/-! ### Sessions of two sides -/

section Sides

variable {F : Type*} {c : ℕ → ℕ} {f g : ℕ → List F}

/-- Blocks each of which is part of one on the other side, in order, are part of the whole. -/
theorem flatMap_range_sublist_comp (hc : StrictMono c) (h : ∀ k, (f k).Sublist (g (c k))) (n : ℕ) :
    ((List.range n).flatMap f).Sublist ((List.range (c n)).flatMap g) := by
  induction n with
  | zero => exact List.nil_sublist _
  | succ n ih =>
      obtain ⟨d, hd⟩ : ∃ d, c (n + 1) = c n + 1 + d :=
        Nat.exists_eq_add_of_le (hc (Nat.lt_succ_self n))
      rw [hd, List.range_succ (n := n), List.range_add, List.range_succ (n := c n),
        List.flatMap_append, List.flatMap_append, List.flatMap_append, List.flatMap_singleton,
        List.flatMap_singleton]
      exact (ih.append (h n)).trans (List.sublist_append_left _ _)

/-- So are they when only some of them have a counterpart, and the others are empty. -/
theorem flatMap_range_sublist_of_comp (hc : StrictMono c)
    (h : ∀ j, f j = [] ∨ ∃ k, c k = j ∧ (f j).Sublist (g k)) (n : ℕ) :
    ((List.range (c n)).flatMap f).Sublist ((List.range n).flatMap g) := by
  have hempty : ∀ j, (∀ k, c k ≠ j) → f j = [] := fun j hj =>
    (h j).resolve_right fun ⟨k, hk, _⟩ => hj k hk
  induction n with
  | zero =>
      have hnil : (List.range (c 0)).flatMap f = [] :=
        List.flatMap_eq_nil_iff.mpr fun j hj => hempty j fun k hk => by
          have hle := hc.monotone (Nat.zero_le k)
          have hlt := List.mem_range.mp hj
          omega
      rw [hnil]
      exact List.nil_sublist _
  | succ n ih =>
      obtain ⟨d, hd⟩ : ∃ d, c (n + 1) = c n + 1 + d :=
        Nat.exists_eq_add_of_le (hc (Nat.lt_succ_self n))
      -- between two counterparts there is nothing
      have hgap : ((List.range d).map fun i => c n + 1 + i).flatMap f = [] := by
        refine List.flatMap_eq_nil_iff.mpr fun j hj => hempty j fun k hk => ?_
        obtain ⟨i, hi, rfl⟩ := List.mem_map.mp hj
        have hlt := List.mem_range.mp hi
        have hlow : n < k := hc.lt_iff_lt.mp (by omega)
        have hhigh : k < n + 1 := hc.lt_iff_lt.mp (by omega)
        omega
      have hlast : (f (c n)).Sublist (g n) := by
        rcases h (c n) with hnil | ⟨k, hk, hsub⟩
        · rw [hnil]
          exact List.nil_sublist _
        · rwa [hc.injective hk] at hsub
      rw [hd, List.range_succ (n := n), List.range_add, List.range_succ (n := c n),
        List.flatMap_append, List.flatMap_append, List.flatMap_append, List.flatMap_singleton,
        List.flatMap_singleton, hgap, List.append_nil]
      exact ih.append hlast

variable {E' : Type*} {opens' : E' → Bool} {v : E → Option F} {v' : E' → Option F}

theorem sublist_of_blocks (hv : ∀ e, opens e = true → v e = none) (hc : StrictMono c)
    {tr : List E} (h : ∀ k, (f k).Sublist ((session opens (c k) tr).filterMap v)) (n : ℕ) :
    ((List.range n).flatMap f).Sublist (tr.filterMap v) := by
  refine (flatMap_range_sublist_comp (g := fun j => (session opens j tr).filterMap v) hc h
    n).trans ?_
  rw [filterMap_eq_flatMap_session hv (n := c n + tr.countP opens) (by omega), Nat.add_assoc,
    List.range_add, List.flatMap_append]
  exact List.sublist_append_left _ _

/-- When the sessions of one side are parts of sessions of the other, in the
order of these, and those without a counterpart show nothing, the whole is part
of the whole. -/
theorem sublist_of_sessions (hv : ∀ e, opens e = true → v e = none)
    (hv' : ∀ e, opens' e = true → v' e = none) (hc : StrictMono c) {tr : List E} {tr' : List E'}
    (h : ∀ j, (session opens j tr).filterMap v = [] ∨ ∃ k, c k = j ∧
      ((session opens j tr).filterMap v).Sublist ((session opens' k tr').filterMap v')) :
    (tr.filterMap v).Sublist (tr'.filterMap v') := by
  let n := max (tr.countP opens) (tr'.countP opens') + 1
  have hn : n ≤ c n := hc.le_apply
  obtain ⟨n', hn'⟩ : ∃ n', c n = n' + 1 := Nat.exists_eq_succ_of_ne_zero (by omega)
  rw [filterMap_eq_flatMap_session hv (n := n') (by omega), ← hn',
    filterMap_eq_flatMap_session hv' (Nat.le_max_right (tr.countP opens) (tr'.countP opens'))]
  exact flatMap_range_sublist_of_comp hc h n

end Sides

end Sessions
