import Mathlib.Logic.Basic
import Mathlib.Data.List.Basic
import Mathlib.Order.Defs.LinearOrder
import Mathlib.Data.Nat.Basic

/-!
Machines and their runs.

A machine is a partial step function: an action is either not enabled in a
state or leads to exactly one next state, and on the way it emits a list of
events. Everything nondeterministic (the schedule, the outcome of a system
call, the data a peer sends) is part of the action, so that a run is an
ordinary evaluation and can be computed on a concrete list of actions.

A run carries a side condition on its steps. `Run m ok s₀ tr s` says that `s`
is reached from `s₀` with trace `tr`, every step on the way having satisfied
`ok` in the state before it. With `Always` for `ok` these are all the runs;
with a narrower `ok` they are the runs a conditional result is about.
-/

namespace StateMachine

variable {S A E : Type*}

/-- A deterministic labelled machine with partial steps. -/
structure Machine (S A E : Type*) where
  step : S → A → Option (S × List E)

def Always : S → A → Prop := fun _ _ => True

instance (s : S) (a : A) : Decidable (Always s a) := isTrue trivial

/-- `s` is reached from `s₀` with trace `tr`, all steps satisfying `ok`. -/
inductive Run (m : Machine S A E) (ok : S → A → Prop) (s₀ : S) : List E → S → Prop
  | start : Run m ok s₀ [] s₀
  | snoc {tr : List E} {s s' : S} {a : A} {es : List E} :
      Run m ok s₀ tr s → ok s a → m.step s a = some (s', es) →
      Run m ok s₀ (tr ++ es) s'

namespace Run

variable {m : Machine S A E} {ok ok' : S → A → Prop} {s₀ s s' : S} {tr tr' : List E}

/-- The induction every safety result uses: what holds at the start and is
preserved by each admitted step holds at the end of every run. -/
theorem invariant (h : Run m ok s₀ tr s) (I : List E → S → Prop) (h₀ : I [] s₀)
    (hstep : ∀ tr s a s' es, I tr s → ok s a → m.step s a = some (s', es) →
      I (tr ++ es) s') : I tr s := by
  induction h with
  | start => exact h₀
  | snoc _ hok hs ih => exact hstep _ _ _ _ _ ih hok hs

theorem invariant_state (h : Run m ok s₀ tr s) (I : S → Prop) (h₀ : I s₀)
    (hstep : ∀ s a s' es, I s → ok s a → m.step s a = some (s', es) → I s') : I s :=
  h.invariant (fun _ s => I s) h₀ fun _ s a s' es => hstep s a s' es

theorem mono (h : Run m ok s₀ tr s) (hle : ∀ s a, ok s a → ok' s a) :
    Run m ok' s₀ tr s := by
  induction h with
  | start => exact .start
  | snoc _ hok hs ih => exact ih.snoc (hle _ _ hok) hs

theorem always (h : Run m ok s₀ tr s) : Run m Always s₀ tr s :=
  h.mono fun _ _ _ => trivial

theorem trans (h : Run m ok s₀ tr s) (h' : Run m ok s tr' s') :
    Run m ok s₀ (tr ++ tr') s' := by
  induction h' with
  | start => simpa using h
  | snoc _ hok hs ih =>
      rw [← List.append_assoc]
      exact ih.snoc hok hs

/-- A run of a machine that has another one as a part is a run of the part: each
step is one of the part, or leaves it alone and shows nothing of it. -/
theorem project {S' A' E' : Type*} {m' : Machine S' A' E'} {ok' : S' → A' → Prop}
    (h : Run m ok s₀ tr s) (part : S → S') (view : E → Option E')
    (hstep : ∀ s a s' es, ok s a → m.step s a = some (s', es) →
      (∃ a', ok' (part s) a' ∧ m'.step (part s) a' = some (part s', es.filterMap view)) ∨
        part s' = part s ∧ es.filterMap view = []) :
    Run m' ok' (part s₀) (tr.filterMap view) (part s) := by
  induction h with
  | start => exact .start
  | @snoc tr s s' a es _ hok hs ih =>
      rw [List.filterMap_append]
      rcases hstep s a s' es hok hs with ⟨a', hok', hs'⟩ | ⟨hsame, hnone⟩
      · exact ih.snoc hok' hs'
      · rwa [hsame, hnone, List.append_nil]

end Run

theorem view_map_some {F : Type*} (f : F → E) {view : E → Option F} (h : ∀ x, view (f x) = some x)
    (xs : List F) : (xs.map f).filterMap view = xs := by
  rw [List.filterMap_map]
  exact (List.filterMap_congr fun x _ => h x).trans List.filterMap_some

theorem view_map_none {F G : Type*} {f : F → E} {view : E → Option G} (h : ∀ x, view (f x) = none)
    (xs : List F) : (xs.map f).filterMap view = [] := by
  rw [List.filterMap_map]
  exact List.filterMap_eq_nil_iff.mpr fun x _ => h x

namespace Machine

/-- An action, an end in the middle of one, after `n` of its events, or an end
between two. -/
inductive Crash (A : Type*) where
  | act (a : A)
  | fail (a : A) (n : ℕ)
  | reset

variable (m : Machine S A E)

/-- A machine that may come to an end at any moment, and then starts over from `s₀`. -/
def crashing (s₀ : S) : Machine S (Crash A) E where
  step s
    | .act a => m.step s a
    | .fail a n => (m.step s a).map fun r => (s₀, r.2.take n)
    | .reset => some (s₀, [])

def exec : S → List A → Option (S × List E)
  | s, [] => some (s, [])
  | s, a :: as =>
      match m.step s a with
      | none => none
      | some (s', es) =>
          match exec s' as with
          | none => none
          | some (s'', es') => some (s'', es ++ es')

def Along (P : S → A → Prop) : S → List A → Prop
  | _, [] => True
  | s, a :: as => P s a ∧ ∀ r ∈ m.step s a, Along P r.1 as

instance Along.decidable (P : S → A → Prop) [∀ s a, Decidable (P s a)] :
    ∀ s as, Decidable (m.Along P s as)
  | _, [] => isTrue trivial
  | s, a :: as =>
      have : Decidable (∀ r ∈ m.step s a, m.Along P r.1 as) :=
        match m.step s a with
        | none => isTrue (by simp)
        | some r =>
            have := Along.decidable P r.1 as
            decidable_of_iff (m.Along P r.1 as) (by simp)
      inferInstanceAs (Decidable (_ ∧ _))

theorem run_of_exec (ok : S → A → Prop) (s : S) (as : List A) {r : S × List E}
    (h : m.exec s as = some r) (hok : m.Along ok s as) : Run m ok s r.2 r.1 := by
  induction as generalizing s r with
  | nil =>
      obtain rfl : (s, []) = r := by simpa [exec] using h
      exact .start
  | cons a as ih =>
      simp only [exec] at h
      cases hs : m.step s a with
      | none => simp [hs] at h
      | some q =>
          cases hq : m.exec q.1 as with
          | none => simp [hs, hq] at h
          | some t =>
              obtain rfl : (t.1, q.2 ++ t.2) = r := by simpa [hs, hq] using h
              have hfirst : Run m ok s ([] ++ q.2) q.1 := Run.start.snoc hok.1 hs
              exact Run.trans (by simpa using hfirst) (ih _ hq (hok.2 q (by simp [hs])))

theorem run_of_exec_always (s : S) (as : List A) {r : S × List E}
    (h : m.exec s as = some r) : Run m Always s r.2 r.1 := by
  refine m.run_of_exec Always s as h ?_
  clear h
  induction as generalizing s with
  | nil => trivial
  | cons a as ih => exact ⟨trivial, fun r _ => ih r.1⟩

/-- Evaluating a list of actions and testing where it ends yields a run. -/
theorem exists_run_of_exec (ok : S → A → Prop) (s : S) (as : List A) (Q : S × List E → Bool)
    (h : (m.exec s as).any Q = true) (hok : m.Along ok s as) :
    ∃ tr s', Run m ok s tr s' ∧ Q (s', tr) = true := by
  obtain ⟨r, hr, hQ⟩ := (Option.any_eq_true Q _).mp h
  exact ⟨r.2, r.1, m.run_of_exec ok s as hr hok, hQ⟩

end Machine

/-! ### What holds at each event of a trace -/

/-- `Q` holds of every event together with the trace before it. -/
def AtEach (Q : List E → E → Prop) (tr : List E) : Prop :=
  ∀ n e, tr[n]? = some e → Q (tr.take n) e

namespace AtEach

variable {Q : List E → E → Prop} {tr : List E}

theorem nil : AtEach Q [] := fun n e h => by simp at h

theorem snoc (h : AtEach Q tr) {e : E} (he : Q tr e) : AtEach Q (tr ++ [e]) := by
  intro n a hn
  rcases lt_or_ge n tr.length with hlt | hge
  · rw [List.getElem?_append_left hlt] at hn
    rw [List.take_append_of_le_length (Nat.le_of_lt hlt)]
    exact h n a hn
  · obtain ⟨hn0, rfl⟩ : n - tr.length = 0 ∧ e = a := by
      rw [List.getElem?_append_right hge] at hn
      simpa [List.getElem?_cons, and_comm] using hn
    obtain rfl : n = tr.length := by omega
    rw [List.take_left]
    exact he

theorem append {es : List E} (h : AtEach Q tr) (he : AtEach (fun pre e => Q (tr ++ pre) e) es) :
    AtEach Q (tr ++ es) := by
  intro n a hn
  rcases lt_or_ge n tr.length with hlt | hge
  · rw [List.getElem?_append_left hlt] at hn
    rw [List.take_append_of_le_length (Nat.le_of_lt hlt)]
    exact h n a hn
  · rw [List.getElem?_append_right hge] at hn
    rw [List.take_append, List.take_of_length_le hge]
    exact he _ a hn

end AtEach

/-- Every `A` event of a trace has a `B` event before it. -/
def Precedes (B A : E → Prop) : List E → Prop :=
  AtEach fun pre a => A a → ∃ b ∈ pre, B b

end StateMachine
