import Fleetcore.Lib.StateMachine
import Mathlib.Data.Finset.Card
import Mathlib.Data.Finset.Image
import Mathlib.Data.Finset.Range

/-!
Answers matched to requests.

Some events of a trace are answers, some are requests, and both carry a key.
When at every moment there have been no more answers with a key than requests
with it, every answer has a request of its own: one with the same key that came
before it and is the request of no other answer (`exists_matching`).
-/

namespace Matching

open StateMachine

variable {E κ : Type*} {answer request key : E → Option κ}

def keyAt (key : E → Option κ) (tr : List E) (i : ℕ) : Option κ := tr[i]?.bind key

theorem keyAt_append_left {tr : List E} {i : ℕ} (h : i < tr.length) (es : List E) :
    keyAt key (tr ++ es) i = keyAt key tr i := by
  rw [keyAt, List.getElem?_append_left h, keyAt]

theorem keyAt_length (tr : List E) (e : E) : keyAt key (tr ++ [e]) tr.length = key e := by
  simp [keyAt]

theorem lt_of_keyAt {tr : List E} {i : ℕ} {c : κ} (h : keyAt key tr i = some c) :
    i < tr.length := by
  by_contra hge
  rw [keyAt, List.getElem?_eq_none (not_lt.mp hge)] at h
  cases h

/-- `f` gives every answer a request of its own. -/
structure Matches (answer request : E → Option κ) (tr : List E) (f : ℕ → ℕ) : Prop where
  earlier : ∀ i c, keyAt answer tr i = some c → f i < i ∧ keyAt request tr (f i) = some c
  own : ∀ i j, keyAt answer tr i ≠ none → keyAt answer tr j ≠ none → f i = f j → i = j

theorem Matches.append_quiet {tr : List E} {f : ℕ → ℕ} (h : Matches answer request tr f) {e : E}
    (he : answer e = none) : Matches answer request (tr ++ [e]) f := by
  have hpast : ∀ i, keyAt answer (tr ++ [e]) i ≠ none →
      i < tr.length ∧ keyAt answer (tr ++ [e]) i = keyAt answer tr i := by
    intro i hi
    obtain ⟨c, hc⟩ := Option.ne_none_iff_exists'.mp hi
    have hlt := lt_of_keyAt hc
    rw [List.length_append, List.length_singleton] at hlt
    rcases Nat.lt_succ_iff_lt_or_eq.mp hlt with hlt | rfl
    · exact ⟨hlt, keyAt_append_left hlt _⟩
    · rw [keyAt_length] at hi
      exact absurd he hi
  refine ⟨fun i c hi => ?_, fun i j hi hj heq => ?_⟩
  · obtain ⟨hlt, hsame⟩ := hpast i (by simp [hi])
    obtain ⟨hf, hreq⟩ := h.earlier i c (hsame ▸ hi)
    exact ⟨hf, by rwa [keyAt_append_left (hf.trans hlt)]⟩
  · obtain ⟨-, hi'⟩ := hpast i hi
    obtain ⟨-, hj'⟩ := hpast j hj
    exact h.own i j (hi' ▸ hi) (hj' ▸ hj) heq

variable [DecidableEq κ]

def positions (key : E → Option κ) (c : κ) (tr : List E) : Finset ℕ :=
  (Finset.range tr.length).filter fun i => keyAt key tr i = some c

theorem mem_positions {c : κ} {tr : List E} {i : ℕ} :
    i ∈ positions key c tr ↔ keyAt key tr i = some c := by
  rw [positions, Finset.mem_filter, Finset.mem_range]
  exact ⟨fun h => h.2, fun h => ⟨lt_of_keyAt h, h⟩⟩

theorem card_positions (c : κ) (tr : List E) :
    (positions key c tr).card = (tr.filterMap key).count c := by
  induction tr using List.reverseRecOn with
  | nil => rfl
  | append_singleton tr e ih =>
      have hold : (Finset.range tr.length).filter (fun i => keyAt key (tr ++ [e]) i = some c) =
          positions key c tr :=
        Finset.filter_congr fun i hi => by rw [keyAt_append_left (Finset.mem_range.mp hi)]
      rw [List.filterMap_append, List.count_append, ← ih, positions, List.length_append,
        List.length_singleton, Finset.range_add_one, Finset.filter_insert, keyAt_length, hold]
      cases he : key e with
      | none => simp [he]
      | some d =>
          by_cases hd : d = c
          · rw [hd, if_pos rfl, Finset.card_insert_of_notMem (by simp [positions])]
            simp [he, hd]
          · rw [if_neg (by simpa using hd)]
            simp [he, hd]

/-- No more answers with a key than requests with it. -/
def Covered (answer request : E → Option κ) (tr : List E) : Prop :=
  ∀ c, (tr.filterMap answer).count c ≤ (tr.filterMap request).count c

def Throughout (answer request : E → Option κ) (tr : List E) : Prop :=
  ∀ pre, pre <+: tr → Covered answer request pre

theorem throughout_of_prefix {tr tr' : List E} (h : Throughout answer request tr)
    (hpre : tr' <+: tr) : Throughout answer request tr' :=
  fun pre hp => h pre (hp.trans hpre)

theorem throughout_filterMap {F : Type*} {answer request : F → Option κ} (view : E → Option F)
    {tr : List E} (h : Throughout (fun e => (view e).bind answer)
      (fun e => (view e).bind request) tr) : Throughout answer request (tr.filterMap view) := by
  rintro pre ⟨post, heq⟩ c
  obtain ⟨tr₁, tr₂, rfl, rfl, -⟩ := List.filterMap_eq_append_iff.mp heq.symm
  rw [List.filterMap_filterMap, List.filterMap_filterMap]
  exact h tr₁ (List.prefix_append _ _) c

theorem Matches.append_answer {tr : List E} {f : ℕ → ℕ} (h : Matches answer request tr f) {e : E}
    {c : κ} (he : answer e = some c) {j : ℕ} (hj : keyAt request tr j = some c)
    (hfree : j ∉ (positions answer c tr).image f) :
    Matches answer request (tr ++ [e]) (Function.update f tr.length j) := by
  have hjlt := lt_of_keyAt hj
  have hpast : ∀ i c', keyAt answer (tr ++ [e]) i = some c' →
      (i < tr.length ∧ keyAt answer tr i = some c') ∨ i = tr.length ∧ c' = c := by
    intro i c' hi
    have hlt := lt_of_keyAt hi
    rw [List.length_append, List.length_singleton] at hlt
    rcases Nat.lt_succ_iff_lt_or_eq.mp hlt with hlt | rfl
    · exact .inl ⟨hlt, by rwa [keyAt_append_left hlt] at hi⟩
    · rw [keyAt_length, he] at hi
      exact .inr ⟨rfl, (Option.some.inj hi).symm⟩
  -- an earlier answer that had been given `j` would have the same key
  have hnew : ∀ i c', keyAt answer tr i = some c' → f i ≠ j := by
    rintro i c' hi rfl
    obtain rfl : c = c' := Option.some.inj (hj.symm.trans (h.earlier i c' hi).2)
    exact hfree (Finset.mem_image_of_mem f (mem_positions.mpr hi))
  refine ⟨fun i c' hi => ?_, fun i i' hi hi' heq => ?_⟩
  · rcases hpast i c' hi with ⟨hlt, hold⟩ | ⟨rfl, rfl⟩
    · obtain ⟨hf, hreq⟩ := h.earlier i c' hold
      rw [Function.update_of_ne hlt.ne]
      exact ⟨hf, by rwa [keyAt_append_left (hf.trans hlt)]⟩
    · rw [Function.update_self]
      exact ⟨hjlt, by rwa [keyAt_append_left hjlt]⟩
  · obtain ⟨d, hd⟩ := Option.ne_none_iff_exists'.mp hi
    obtain ⟨d', hd'⟩ := Option.ne_none_iff_exists'.mp hi'
    rcases hpast i d hd with ⟨hlt, hold⟩ | ⟨rfl, -⟩
    · rcases hpast i' d' hd' with ⟨hlt', hold'⟩ | ⟨rfl, -⟩
      · rw [Function.update_of_ne hlt.ne, Function.update_of_ne hlt'.ne] at heq
        exact h.own i i' (by simp [hold]) (by simp [hold']) heq
      · rw [Function.update_of_ne hlt.ne, Function.update_self] at heq
        exact absurd heq (hnew i d hold)
    · rcases hpast i' d' hd' with ⟨hlt', hold'⟩ | ⟨rfl, -⟩
      · rw [Function.update_of_ne hlt'.ne, Function.update_self] at heq
        exact absurd heq.symm (hnew i' d' hold')
      · rfl

/-- Counting is enough: a request is still free whenever an answer comes. -/
theorem exists_matching (hone : ∀ e, answer e = none ∨ request e = none) {tr : List E}
    (h : Throughout answer request tr) : ∃ f, Matches answer request tr f := by
  induction tr using List.reverseRecOn with
  | nil => exact ⟨id, fun i c hi => by simp [keyAt] at hi, fun i j hi => by simp [keyAt] at hi⟩
  | append_singleton tr e ih =>
      obtain ⟨f, hf⟩ := ih fun pre hpre => h pre (hpre.trans (List.prefix_append _ _))
      cases he : answer e with
      | none => exact ⟨f, hf.append_quiet he⟩
      | some c =>
          have hreq : request e = none := (hone e).resolve_left (by simp [he])
          have hcount := h _ (List.prefix_refl _) c
          simp only [List.filterMap_append, List.filterMap_cons, List.filterMap_nil, he, hreq,
            List.count_append, List.count_singleton_self, List.count_nil, Nat.add_zero] at hcount
          -- fewer requests have been given away than there have been
          have hcard : ((positions answer c tr).image f).card < (positions request c tr).card := by
            have himage := Finset.card_image_le (s := positions answer c tr) (f := f)
            rw [card_positions] at himage ⊢
            omega
          obtain ⟨j, hj, hfree⟩ := Finset.exists_mem_notMem_of_card_lt_card hcard
          exact ⟨_, hf.append_answer he (mem_positions.mp hj) hfree⟩

section Run

variable {S A : Type*} {m : Machine S A E} {ok : S → A → Prop} {s₀ s : S} {tr : List E}

/-- What holds after every run holds at every moment, when no step both answers
and requests. -/
theorem Run.throughout (h : Run m ok s₀ tr s)
    (hrun : ∀ tr s, Run m ok s₀ tr s → Covered answer request tr)
    (hstep : ∀ s a s' es, m.step s a = some (s', es) →
      es.filterMap answer = [] ∨ es.filterMap request = []) :
    Throughout answer request tr := by
  induction h with
  | start =>
      intro pre hpre
      rw [List.prefix_nil.mp hpre]
      exact fun c => le_rfl
  | @snoc tr s s' a es hbefore hok hs ih =>
      rintro pre ⟨suf, hsplit⟩ c
      rcases List.append_eq_append_iff.mp hsplit with ⟨mid, rfl, -⟩ | ⟨mid, rfl, rfl⟩
      · exact ih pre (List.prefix_append _ _) c
      · -- a moment in the middle of a step, which only answers or only requests
        have hold := hrun _ _ hbefore c
        have hnew := hrun _ _ (hbefore.snoc hok hs) c
        simp only [List.filterMap_append, List.count_append] at hnew ⊢
        rcases hstep _ _ _ _ hs with hquiet | hquiet
        · rw [List.filterMap_append, List.append_eq_nil_iff] at hquiet
          rw [hquiet.1, List.count_nil]
          omega
        · rw [List.filterMap_append, List.append_eq_nil_iff] at hquiet
          rw [hquiet.1, hquiet.2, List.count_nil] at hnew
          rw [hquiet.1, List.count_nil]
          omega

end Run

end Matching
