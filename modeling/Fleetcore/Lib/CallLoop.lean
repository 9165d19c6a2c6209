import Mathlib.Data.List.Basic
import Mathlib.Data.List.Range
import Mathlib.Order.Monotone.Basic
import Mathlib.Data.Nat.Basic

/-!
Loops around a system call.

Each turn of such a loop makes one call, and the answer decides whether the
loop goes on with new local variables or returns. The environment answers with
a list when a finite piece of a run is looked at and with a sequence `ℕ → α`
when the question is whether the loop returns at all.

Two rules decide that question. A loop returns when a potential falls on every
answer of a kind that keeps coming back and never rises (`exists_done`), and it
never does when from some call on the answers leave the local variables as they
are (`never_done`).
-/

namespace CallLoop

variable {σ α β : Type*}

inductive Progress (σ β : Type*) where
  | again (s : σ)
  | done (b : β)
  deriving DecidableEq, Repr

/-- The loop on the answers of a list, as far as they reach. -/
def run (turn : σ → α → Progress σ β) : σ → List α → Progress σ β
  | s, [] => .again s
  | s, a :: as =>
      match turn s a with
      | .again s' => run turn s' as
      | .done b => .done b

def answers (o : ℕ → α) (n : ℕ) : List α := (List.range n).map o

@[simp] theorem answers_zero (o : ℕ → α) : answers o 0 = [] := rfl

theorem answers_succ (o : ℕ → α) (n : ℕ) : answers o (n + 1) = answers o n ++ [o n] := by
  simp [answers, List.range_succ]

variable {turn : σ → α → Progress σ β}

@[simp] theorem run_nil (s : σ) : run turn s [] = .again s := rfl

theorem run_append (s : σ) (as as' : List α) :
    run turn s (as ++ as') =
      match run turn s as with
      | .again s' => run turn s' as'
      | .done b => .done b := by
  induction as generalizing s with
  | nil => rfl
  | cons a as ih =>
      simp only [List.cons_append, run]
      cases turn s a with
      | again s' => exact ih s'
      | done b => rfl

theorem run_answers_succ (s : σ) (o : ℕ → α) (n : ℕ) :
    run turn s (answers o (n + 1)) =
      match run turn s (answers o n) with
      | .again s' => turn s' (o n)
      | .done b => .done b := by
  rw [answers_succ, run_append]
  cases run turn s (answers o n) with
  | again s' =>
      simp only [run]
      cases turn s' (o n) with
      | again s'' => rfl
      | done b => rfl
  | done b => rfl

theorem run_answers_mono {s : σ} {o : ℕ → α} {b : β} {n m : ℕ} (hnm : n ≤ m)
    (h : run turn s (answers o n) = .done b) : run turn s (answers o m) = .done b := by
  induction m, hnm using Nat.le_induction with
  | base => exact h
  | succ m _ ih => rw [run_answers_succ, ih]

theorem done_unique {s : σ} {o : ℕ → α} {b b' : β} {n m : ℕ}
    (h : run turn s (answers o n) = .done b) (h' : run turn s (answers o m) = .done b') :
    b = b' := by
  rcases le_total n m with hnm | hmn
  · exact Progress.done.inj ((run_answers_mono hnm h).symm.trans h')
  · exact Progress.done.inj (h.symm.trans (run_answers_mono hmn h'))

theorem again_invariant {s s' : σ} {o : ℕ → α} {n : ℕ} (I : ℕ → σ → Prop) (h₀ : I 0 s)
    (hstep : ∀ n s s', I n s → turn s (o n) = .again s' → I (n + 1) s')
    (h : run turn s (answers o n) = .again s') : I n s' := by
  induction n generalizing s' with
  | zero =>
      obtain rfl : s = s' := Progress.again.inj h
      exact h₀
  | succ n ih =>
      rw [run_answers_succ] at h
      cases hn : run turn s (answers o n) with
      | again t =>
          rw [hn] at h
          exact hstep n t s' (ih hn) h
      | done b =>
          rw [hn] at h
          cases h

theorem exists_again_of_done {s : σ} {o : ℕ → α} {n : ℕ} {b : β}
    (h : run turn s (answers o n) = .done b) :
    ∃ m < n, ∃ s', run turn s (answers o m) = .again s' ∧ turn s' (o m) = .done b := by
  induction n with
  | zero => cases h
  | succ n ih =>
      cases hn : run turn s (answers o n) with
      | again t =>
          rw [run_answers_succ, hn] at h
          exact ⟨n, Nat.lt_succ_self n, t, hn, h⟩
      | done b' =>
          rw [run_answers_succ, hn] at h
          obtain rfl : b' = b := Progress.done.inj h
          obtain ⟨m, hm, hrest⟩ := ih hn
          exact ⟨m, by omega, hrest⟩

/-- A loop that goes on after `n` answers has gone on at each of them. -/
theorem exists_again_of_lt {s t : σ} {o : ℕ → α} {n i : ℕ}
    (h : run turn s (answers o n) = .again t) (hi : i < n) :
    ∃ s' s'', run turn s (answers o i) = .again s' ∧ turn s' (o i) = .again s'' := by
  cases hnext : run turn s (answers o (i + 1)) with
  | done b => cases (run_answers_mono hi hnext).symm.trans h
  | again s'' =>
      rw [run_answers_succ] at hnext
      cases hrun : run turn s (answers o i) with
      | done b => simp [hrun] at hnext
      | again s' =>
          rw [hrun] at hnext
          exact ⟨s', s'', rfl, hnext⟩

/-- A loop returns when under an invariant a potential never rises and falls on
answers that keep coming back. -/
theorem exists_done {s : σ} {o : ℕ → α} (I : ℕ → σ → Prop) (Φ : σ → ℕ) (busy : α → Prop)
    (h₀ : I 0 s)
    (hstep : ∀ n s s', I n s → turn s (o n) = .again s' →
      I (n + 1) s' ∧ Φ s' ≤ Φ s ∧ (busy (o n) → Φ s' < Φ s))
    (hfair : ∀ m, ∃ i ≥ m, busy (o i)) :
    ∃ n b, run turn s (answers o n) = .done b := by
  by_contra! hnever
  have hagain : ∀ n, ∃ s', run turn s (answers o n) = .again s' := fun n => by
    cases hn : run turn s (answers o n) with
    | again s' => exact ⟨s', rfl⟩
    | done b => exact absurd hn (hnever n b)
  choose state hstate using hagain
  have hturn : ∀ n, turn (state n) (o n) = .again (state (n + 1)) := fun n => by
    have h := hstate (n + 1)
    rw [run_answers_succ, hstate n] at h
    exact h
  have hinv : ∀ n, I n (state n) := fun n =>
    again_invariant I h₀ (fun n s s' hs ht => (hstep n s s' hs ht).1) (hstate n)
  have hanti : Antitone fun n => Φ (state n) :=
    antitone_nat_of_succ_le fun n => (hstep n _ _ (hinv n) (hturn n)).2.1
  -- by induction on the potential: below every value there is another one
  have hdescend : ∀ k, ∃ n, Φ (state n) + k ≤ Φ (state 0) := fun k => by
    induction k with
    | zero => exact ⟨0, le_rfl⟩
    | succ k ih =>
        obtain ⟨n, hn⟩ := ih
        obtain ⟨i, hi, hbusy⟩ := hfair n
        have hfall := (hstep i _ _ (hinv i) (hturn i)).2.2 hbusy
        have hmono : Φ (state i) ≤ Φ (state n) := hanti hi
        exact ⟨i + 1, by omega⟩
  obtain ⟨n, hn⟩ := hdescend (Φ (state 0) + 1)
  omega

/-- A loop never returns when it reaches local variables that the answers from
there on leave as they are. -/
theorem never_done {s t : σ} {o : ℕ → α} {m : ℕ} (hm : run turn s (answers o m) = .again t)
    (hstay : ∀ i ≥ m, turn t (o i) = .again t) (n : ℕ) (b : β) :
    run turn s (answers o n) ≠ .done b := by
  intro h
  have hlater : ∀ k, run turn s (answers o (m + k)) = .again t := fun k => by
    induction k with
    | zero => exact hm
    | succ k ih =>
        rw [← Nat.add_assoc, run_answers_succ, ih]
        exact hstay (m + k) (Nat.le_add_right m k)
  have hdone := run_answers_mono (Nat.le_add_left n m) h
  rw [hlater n] at hdone
  cases hdone

end CallLoop
