import Fleetcore.Lib.StateMachine
import Mathlib.Logic.Function.Basic

/-!
Operations on a shared memory, each inside a critical section.

An operation is a program of single accesses (`Prog`), and any number of
processes run their operations access by access. A semaphore of initial value 1
keeps two of them from being inside at the same time; what a process has taken
from it is given back when the process is killed.

As long as nobody is killed, a run comes to the same as the operations run one
at a time, in the order in which they entered (`serial_run`). A kill may leave
an operation half done. What holds nevertheless is what every single access of
every operation keeps (`Prog.Keeps`, `Keeper.kept_run`).
-/

namespace CriticalSection

open StateMachine

variable {P C A V R S : Type*}

/-! ### Programs -/

/-- A program that is done or makes an access and goes on with what it got. -/
inductive Prog (A V R : Type*) where
  | done (r : R)
  | access (a : A) (next : V → Prog A V R)

def Prog.run (acc : A → S → V × S) : Prog A V R → S → R × S
  | .done r, m => (r, m)
  | .access a next, m => (next (acc a m).1).run acc (acc a m).2

structure Operations (C A V R S : Type*) where
  access : A → S → V × S
  /-- Whether a call gets as far as the lock. -/
  admits : C → Bool
  /-- The reply of a call that does not obtain the lock. -/
  refusal : C → R
  body : C → Prog A V R

def Operations.effect (o : Operations C A V R S) (c : C) (m : S) : R × S :=
  (o.body c).run o.access m

/-! ### Processes -/

inductive Phase (C A V R : Type*) where
  | idle
  | locking (c : C)
  /-- The lock is held, and `rest` is still to be done. -/
  | inside (c : C) (rest : Prog A V R)
  /-- The reply is there; `entered` says whether the lock has been obtained. -/
  | returning (c : C) (r : R) (entered : Bool)

structure State (P C A V R S : Type*) where
  sem : ℕ
  /-- What the kernel gives back when the process is killed. -/
  owes : P → Bool
  mem : S
  phase : P → Phase C A V R

def State.init (m : S) : State P C A V R S := ⟨1, fun _ => false, m, fun _ => .idle⟩

/-- How a call on the semaphore ends. -/
inductive Outcome where
  | ok
  /-- Interrupted; the call is made again. -/
  | retry
  | error
  deriving DecidableEq, Repr

inductive Action (P C : Type*) where
  | call (p : P) (c : C)
  | lock (p : P) (o : Outcome)
  | access (p : P)
  | unlock (p : P) (o : Outcome)
  | ret (p : P)
  | kill (p : P)

inductive Event (P C R : Type*) where
  | entered (p : P) (c : C)
  | returned (p : P) (c : C) (r : R)
  /-- A call that did not obtain the lock comes back. -/
  | refused (p : P) (c : C) (r : R)
  | killed (p : P)
  deriving DecidableEq

variable [DecidableEq P]

def State.setPhase (s : State P C A V R S) (p : P) (ph : Phase C A V R) : State P C A V R S :=
  { s with phase := Function.update s.phase p ph }

def State.setOwes (s : State P C A V R S) (p : P) (b : Bool) : State P C A V R S :=
  { s with owes := Function.update s.owes p b }

def State.enter (s : State P C A V R S) (p : P) (c : C) (body : Prog A V R) :
    State P C A V R S :=
  ({ s with sem := s.sem - 1 }.setOwes p true).setPhase p (.inside c body)

def State.leave (s : State P C A V R S) (p : P) (ph : Phase C A V R) : State P C A V R S :=
  ({ s with sem := s.sem + (s.owes p).toNat }.setOwes p false).setPhase p ph

def Operations.step (o : Operations C A V R S) (s : State P C A V R S) :
    Action P C → Option (State P C A V R S × List (Event P C R))
  | .call p c =>
      match s.phase p with
      | .idle =>
          some (s.setPhase p
            (if o.admits c then .locking c else .returning c (o.refusal c) false), [])
      | _ => none
  | .lock p out =>
      match s.phase p with
      | .locking c =>
          match out with
          | .ok => if 0 < s.sem then some (s.enter p c (o.body c), [.entered p c]) else none
          | .retry => some (s, [])
          | .error => some (s.setPhase p (.returning c (o.refusal c) false), [])
      | _ => none
  | .access p =>
      match s.phase p with
      | .inside c (.access a next) =>
          let x := o.access a s.mem
          some ({ s with mem := x.2 }.setPhase p (.inside c (next x.1)), [])
      | _ => none
  | .unlock p out =>
      match s.phase p with
      | .inside c (.done r) =>
          match out with
          | .ok => some (s.leave p (.returning c r true), [])
          | .retry => some (s, [])
          -- nobody looks at the result of `unlock`
          | .error => some (s.setPhase p (.returning c r true), [])
      | _ => none
  | .ret p =>
      match s.phase p with
      | .returning c r entered =>
          some (s.setPhase p .idle, [if entered then .returned p c r else .refused p c r])
      | _ => none
  | .kill p => some (s.leave p .idle, [.killed p])

def Operations.machine (o : Operations C A V R S) (P : Type*) [DecidableEq P] :
    Machine (State P C A V R S) (Action P C) (Event P C R) := ⟨o.step⟩

inductive Step (o : Operations C A V R S) (s : State P C A V R S) :
    Action P C → State P C A V R S → List (Event P C R) → Prop
  /-- Nothing but a phase outside the lock changes. -/
  | move {a p ph} (hout : ∀ c rest, s.phase p ≠ .inside c rest)
      (hin : ∀ c rest, ph ≠ .inside c rest) (hret : ∀ c r, ph ≠ .returning c r true)
      (hprev : ∀ c r, s.phase p ≠ .returning c r true)
      (href : ∀ c r b, ph = .returning c r b → r = o.refusal c)
      (hadmits : ∀ c, ph = .locking c → o.admits c = true) :
      Step o s a (s.setPhase p ph) []
  | stay {a} : Step o s a s []
  | enter {p c} (hp : s.phase p = .locking c) (hsem : 0 < s.sem) :
      Step o s (.lock p .ok) (s.enter p c (o.body c)) [.entered p c]
  | access {p c a next} (hp : s.phase p = .inside c (.access a next)) :
      Step o s (.access p) ({ s with mem := (o.access a s.mem).2 }.setPhase p
        (.inside c (next (o.access a s.mem).1))) []
  | leave {p c r} (hp : s.phase p = .inside c (.done r)) :
      Step o s (.unlock p .ok) (s.leave p (.returning c r true)) []
  | keep {p c r} (hp : s.phase p = .inside c (.done r)) :
      Step o s (.unlock p .error) (s.setPhase p (.returning c r true)) []
  | ret {p c r} (hp : s.phase p = .returning c r true) :
      Step o s (.ret p) (s.setPhase p .idle) [.returned p c r]
  | refuse {p c r} (hp : s.phase p = .returning c r false) :
      Step o s (.ret p) (s.setPhase p .idle) [.refused p c r]
  | kill {p} : Step o s (.kill p) (s.leave p .idle) [.killed p]

theorem step_cases {o : Operations C A V R S} {s s' : State P C A V R S} {a : Action P C}
    {es : List (Event P C R)} (h : o.step s a = some (s', es)) : Step o s a s' es := by
  cases a with
  | call p c =>
      simp only [Operations.step] at h
      split at h
      · next hp =>
          obtain ⟨rfl, rfl⟩ := Prod.mk.inj (Option.some.inj h)
          refine .move (by simp [hp]) ?_ ?_ (by simp [hp]) ?_ ?_
          all_goals cases hc : o.admits c <;> simp [hc]
      · cases h
  | lock p out =>
      simp only [Operations.step] at h
      split at h
      · next c hp =>
          cases out with
          | ok =>
              simp only [Option.ite_none_right_eq_some, Option.some.injEq, Prod.mk.injEq] at h
              obtain ⟨hsem, rfl, rfl⟩ := h
              exact .enter hp hsem
          | retry =>
              obtain ⟨rfl, rfl⟩ := Prod.mk.inj (Option.some.inj h)
              exact .stay
          | error =>
              obtain ⟨rfl, rfl⟩ := Prod.mk.inj (Option.some.inj h)
              refine .move (by simp [hp]) (by simp) (by simp) (by simp [hp]) ?_ (by simp)
              intro c' r b heq
              cases heq
              rfl
      · cases h
  | access p =>
      simp only [Operations.step] at h
      split at h
      · next c a next hp =>
          obtain ⟨rfl, rfl⟩ := Prod.mk.inj (Option.some.inj h)
          exact .access hp
      · cases h
  | unlock p out =>
      simp only [Operations.step] at h
      split at h
      · next c r hp =>
          cases out with
          | ok =>
              obtain ⟨rfl, rfl⟩ := Prod.mk.inj (Option.some.inj h)
              exact .leave hp
          | retry =>
              obtain ⟨rfl, rfl⟩ := Prod.mk.inj (Option.some.inj h)
              exact .stay
          | error =>
              obtain ⟨rfl, rfl⟩ := Prod.mk.inj (Option.some.inj h)
              exact .keep hp
      · cases h
  | ret p =>
      simp only [Operations.step] at h
      split at h
      · next c r b hp =>
          obtain ⟨rfl, rfl⟩ := Prod.mk.inj (Option.some.inj h)
          cases b with
          | true => exact .ret hp
          | false => exact .refuse hp
      · cases h
  | kill p =>
      obtain ⟨rfl, rfl⟩ := Prod.mk.inj (Option.some.inj h)
      exact .kill

@[simp] theorem State.phase_setPhase (s : State P C A V R S) (p q : P) (ph : Phase C A V R) :
    (s.setPhase p ph).phase q = if q = p then ph else s.phase q := by
  simp [State.setPhase, Function.update_apply]

@[simp] theorem State.phase_enter (s : State P C A V R S) (p q : P) (c : C) (b : Prog A V R) :
    (s.enter p c b).phase q = if q = p then .inside c b else s.phase q := by
  simp [State.enter, State.setOwes]

@[simp] theorem State.phase_leave (s : State P C A V R S) (p q : P) (ph : Phase C A V R) :
    (s.leave p ph).phase q = if q = p then ph else s.phase q := by
  simp [State.leave, State.setOwes]

@[simp] theorem State.mem_setPhase (s : State P C A V R S) (p : P) (ph : Phase C A V R) :
    (s.setPhase p ph).mem = s.mem := rfl

@[simp] theorem State.mem_enter (s : State P C A V R S) (p : P) (c : C) (b : Prog A V R) :
    (s.enter p c b).mem = s.mem := rfl

@[simp] theorem State.mem_leave (s : State P C A V R S) (p : P) (ph : Phase C A V R) :
    (s.leave p ph).mem = s.mem := rfl

@[simp] theorem State.owes_enter (s : State P C A V R S) (p q : P) (c : C) (b : Prog A V R) :
    (s.enter p c b).owes q = if q = p then true else s.owes q := by
  simp [State.enter, State.setOwes, State.setPhase, Function.update_apply]

@[simp] theorem State.owes_leave (s : State P C A V R S) (p q : P) (ph : Phase C A V R) :
    (s.leave p ph).owes q = if q = p then false else s.owes q := by
  simp [State.leave, State.setOwes, State.setPhase, Function.update_apply]

/-! ### At most one process is inside -/

/-- Whoever is inside owes a unit, and there is one unit. -/
structure Exclusive (s : State P C A V R S) : Prop where
  owes : ∀ p c rest, s.phase p = .inside c rest → s.owes p = true
  unit : (s.sem = 1 ∧ ∀ p, s.owes p = false) ∨
    (s.sem = 0 ∧ ∃ p, ∀ q, s.owes q = true ↔ q = p)

omit [DecidableEq P] in
theorem Exclusive.eq_of_inside {s : State P C A V R S} (h : Exclusive s) {p q : P} {c c' : C}
    {rest rest' : Prog A V R} (hp : s.phase p = .inside c rest)
    (hq : s.phase q = .inside c' rest') : p = q := by
  have hp := h.owes p c rest hp
  have hq := h.owes q c' rest' hq
  obtain ⟨-, hnone⟩ | ⟨-, r, hr⟩ := h.unit
  · simp [hnone] at hp
  · rw [(hr p).mp hp, (hr q).mp hq]

omit [DecidableEq P] in
theorem Exclusive.outside {s : State P C A V R S} (h : Exclusive s) (hsem : 0 < s.sem) (p : P)
    (c : C) (rest : Prog A V R) : s.phase p ≠ .inside c rest := by
  intro hp
  have hp := h.owes p c rest hp
  obtain ⟨-, hnone⟩ | ⟨hzero, -⟩ := h.unit
  · simp [hnone] at hp
  · omega

omit [DecidableEq P] in
theorem Exclusive.init (m : S) : Exclusive (State.init (P := P) m : State P C A V R S) where
  owes := fun p c rest h => by cases h
  unit := .inl ⟨rfl, fun _ => rfl⟩

theorem Exclusive.setPhase {s : State P C A V R S} (h : Exclusive s) {p : P}
    {ph : Phase C A V R} (hin : ∀ c rest, ph = .inside c rest → s.owes p = true) :
    Exclusive (s.setPhase p ph) where
  owes := fun q c rest hq => by
    rw [State.phase_setPhase] at hq
    split at hq
    · next heq => exact heq ▸ hin c rest hq
    · exact h.owes q c rest hq
  unit := h.unit

theorem Exclusive.leave {s : State P C A V R S} (h : Exclusive s) {p : P}
    {ph : Phase C A V R} (hin : ∀ c rest, ph ≠ .inside c rest) : Exclusive (s.leave p ph) where
  owes := fun q c rest hq => by
    rw [State.phase_leave] at hq
    split at hq
    · exact absurd hq (hin c rest)
    · next hne =>
        rw [State.owes_leave, if_neg hne]
        exact h.owes q c rest hq
  unit := by
    have hsem : (s.leave p ph).sem = s.sem + (s.owes p).toNat := rfl
    obtain ⟨hone, hnone⟩ | ⟨hzero, r, hr⟩ := h.unit
    · exact .inl ⟨by rw [hsem, hone, hnone]; rfl, fun q => by simp [hnone]⟩
    · by_cases hp : p = r
      · subst hp
        refine .inl ⟨by rw [hsem, hzero, (hr p).mpr rfl]; rfl, fun q => ?_⟩
        by_cases hq : q = p
        · simp [hq]
        · simpa [hq] using (hr q).not.mpr hq
      · have hnot : s.owes p = false := by simpa using (hr p).not.mpr hp
        refine .inr ⟨by rw [hsem, hzero, hnot]; rfl, r, fun q => ?_⟩
        by_cases hq : q = p
        · simp [hq, hp]
        · simpa [hq] using hr q

theorem Exclusive.step {o : Operations C A V R S} {s s' : State P C A V R S} {a : Action P C}
    {es : List (Event P C R)} (h : Exclusive s) (hs : o.step s a = some (s', es)) :
    Exclusive s' := by
  cases step_cases hs with
  | move hout hin hret hprev href hadmits =>
      exact h.setPhase fun c rest heq => absurd heq (hin c rest)
  | stay => exact h
  | @enter p c hp hsem =>
      obtain ⟨hone, hnone⟩ | ⟨hzero, -⟩ := h.unit
      · refine ⟨fun q c' rest hq => ?_, .inr ⟨?_, p, fun q => by simp [hnone]⟩⟩
        · rw [State.phase_enter] at hq
          split at hq
          · next heq => simp [heq]
          · exact absurd hq (h.outside hsem q c' rest)
        · exact congrArg (· - 1) hone
      · omega
  | @access p c a next hp =>
      have hmem : Exclusive { s with mem := (o.access a s.mem).2 } := ⟨h.owes, h.unit⟩
      exact hmem.setPhase fun _ _ _ => h.owes p c _ hp
  | leave hp => exact h.leave (by simp)
  | keep hp => exact h.setPhase (by simp)
  | ret hp => exact h.setPhase (by simp)
  | refuse hp => exact h.setPhase (by simp)
  | kill => exact h.leave (by simp)

/-! ### One at a time -/

def runAll (f : C → S → R × S) : S → List (P × C) → List (P × C × R) × S
  | m, [] => ([], m)
  | m, (p, c) :: calls =>
      let x := f c m
      let rest := runAll f x.2 calls
      ((p, c, x.1) :: rest.1, rest.2)

omit [DecidableEq P] in
theorem runAll_append (f : C → S → R × S) (m : S) (calls calls' : List (P × C)) :
    runAll f m (calls ++ calls') =
      ((runAll f m calls).1 ++ (runAll f (runAll f m calls).2 calls').1,
        (runAll f (runAll f m calls).2 calls').2) := by
  induction calls generalizing m with
  | nil => rfl
  | cons x calls ih => simp [runAll, ih]

omit [DecidableEq P] in
theorem runAll_congr {f f' : C → S → R × S} {m : S} {calls : List (P × C)}
    (h : ∀ p c, (p, c) ∈ calls → ∀ m, f c m = f' c m) : runAll f m calls = runAll f' m calls := by
  induction calls generalizing m with
  | nil => rfl
  | cons x calls ih =>
      obtain ⟨p, c⟩ := x
      rw [runAll, runAll, h p c List.mem_cons_self,
        ih fun q c' hmem => h q c' (List.mem_cons_of_mem _ hmem)]

omit [DecidableEq P] in
/-- Each reply is the one to the call in the memory the calls before it left. -/
theorem exists_of_mem_runAll {f : C → S → R × S} {m : S} {calls : List (P × C)} {p : P} {c : C}
    {r : R} (h : (p, c, r) ∈ (runAll f m calls).1) :
    ∃ before after, calls = before ++ (p, c) :: after ∧ r = (f c (runAll f m before).2).1 := by
  induction calls generalizing m with
  | nil => cases h
  | cons x calls ih =>
      obtain ⟨q, c'⟩ := x
      rcases List.mem_cons.mp h with heq | hmem
      · obtain ⟨rfl, rfl, rfl⟩ : _ ∧ _ ∧ _ := by simpa using heq
        exact ⟨[], calls, rfl, rfl⟩
      · obtain ⟨before, after, rfl, hr⟩ := ih hmem
        exact ⟨(q, c') :: before, after, rfl, hr⟩

/-- The calls, in the order in which they obtained the lock. -/
def entries (tr : List (Event P C R)) : List (P × C) :=
  tr.filterMap fun
    | .entered p c => some (p, c)
    | _ => none

def returnedTo (p : P) (tr : List (Event P C R)) : List (C × R) :=
  tr.filterMap fun
    | .returned q c r => if q = p then some (c, r) else none
    | _ => none

def repliesTo (p : P) (replies : List (P × C × R)) : List (C × R) :=
  replies.filterMap fun x => if x.1 = p then some x.2 else none

/-- The reply a process that has obtained the lock will come back with. -/
def Phase.pending (acc : A → S → V × S) (m : S) : Phase C A V R → List (C × R)
  | .inside c rest => [(c, (rest.run acc m).1)]
  | .returning c r true => [(c, r)]
  | _ => []

theorem Phase.pending_eq_nil {acc : A → S → V × S} {m : S} {ph : Phase C A V R}
    (hin : ∀ c rest, ph ≠ .inside c rest) (hret : ∀ c r, ph ≠ .returning c r true) :
    ph.pending acc m = [] := by
  rcases ph with _ | c | ⟨c, rest⟩ | ⟨c, r, _ | _⟩
  · rfl
  · rfl
  · exact absurd rfl (hin c rest)
  · rfl
  · exact absurd rfl (hret c r)

/-- Outside, the reply does not depend on the memory any more. -/
theorem Phase.pending_congr {acc : A → S → V × S} {ph : Phase C A V R} (m m' : S)
    (hin : ∀ c rest, ph ≠ .inside c rest) : ph.pending acc m = ph.pending acc m' := by
  rcases ph with _ | c | ⟨c, rest⟩ | ⟨c, r, _ | _⟩
  · rfl
  · rfl
  · exact absurd rfl (hin c rest)
  · rfl
  · rfl

def Undisturbed (_ : State P C A V R S) : Action P C → Prop
  | .kill _ => False
  | _ => True

instance (s : State P C A V R S) : DecidablePred (Undisturbed (P := P) (C := C) s)
  | .kill _ => isFalse id
  | .call _ _ => isTrue trivial
  | .lock _ _ => isTrue trivial
  | .access _ => isTrue trivial
  | .unlock _ _ => isTrue trivial
  | .ret _ => isTrue trivial

/-- The memory and the replies, those to come included, are those of the calls
run one at a time. -/
structure Serial (o : Operations C A V R S) (m : S) (tr : List (Event P C R))
    (s : State P C A V R S) : Prop where
  inside : ∀ p c rest, s.phase p = .inside c rest →
    (rest.run o.access s.mem).2 = (runAll o.effect m (entries tr)).2
  outside : (∀ p c rest, s.phase p ≠ .inside c rest) →
    s.mem = (runAll o.effect m (entries tr)).2
  replies : ∀ p, repliesTo p (runAll o.effect m (entries tr)).1 =
    returnedTo p tr ++ (s.phase p).pending o.access s.mem
  refused : ∀ p c r, s.phase p = .returning c r false → r = o.refusal c

section Serial

variable {o : Operations C A V R S} {m : S} {s s' : State P C A V R S} {a : Action P C}
  {tr es : List (Event P C R)}

theorem Serial.congr (h : Serial o m tr s) (hmem : s'.mem = s.mem)
    (hentries : entries (tr ++ es) = entries tr)
    (hinside : ∀ p c rest, s'.phase p = .inside c rest → s.phase p = .inside c rest)
    (houtside : (∀ p c rest, s'.phase p ≠ .inside c rest) →
      s.mem = (runAll o.effect m (entries tr)).2)
    (hreplies : ∀ p, returnedTo p es ++ (s'.phase p).pending o.access s.mem =
      (s.phase p).pending o.access s.mem)
    (hrefused : ∀ p c r, s'.phase p = .returning c r false → r = o.refusal c) :
    Serial o m (tr ++ es) s' where
  inside := fun p c rest hp => by
    rw [hmem, hentries]
    exact h.inside p c rest (hinside p c rest hp)
  outside := fun hout => by
    rw [hmem, hentries]
    exact houtside hout
  replies := fun p => by
    have happ : returnedTo p (tr ++ es) = returnedTo p tr ++ returnedTo p es :=
      List.filterMap_append
    rw [hmem, hentries, h.replies p, happ, List.append_assoc, hreplies p]
  refused := hrefused

omit [DecidableEq P] in
theorem entries_append (tr es : List (Event P C R)) :
    entries (tr ++ es) = entries tr ++ entries es := List.filterMap_append

theorem Serial.setPhase (h : Serial o m tr s) (p : P) (ph : Phase C A V R)
    (hentries : entries es = []) (hin : ∀ c rest, ph ≠ .inside c rest)
    (hout : (∀ q c rest, q ≠ p → s.phase q ≠ .inside c rest) →
      s.mem = (runAll o.effect m (entries tr)).2)
    (hothers : ∀ q ≠ p, returnedTo q es = [])
    (hself : returnedTo p es ++ ph.pending o.access s.mem = (s.phase p).pending o.access s.mem)
    (href : ∀ c r, ph = .returning c r false → r = o.refusal c)
    (hphase : ∀ q, s'.phase q = if q = p then ph else s.phase q) (hmem : s'.mem = s.mem) :
    Serial o m (tr ++ es) s' := by
  refine h.congr hmem (by rw [entries_append, hentries, List.append_nil]) (fun q c rest hq => ?_)
    (fun hnone => hout fun q c rest hne => ?_) (fun q => ?_) fun q c r hq => ?_
  · rw [hphase] at hq
    split at hq
    · exact absurd hq (hin c rest)
    · exact hq
  · have hq := hnone q c rest
    rwa [hphase, if_neg hne] at hq
  · rw [hphase]
    split
    · next heq => rw [heq, hself]
    · next hne => rw [hothers q hne, List.nil_append]
  · rw [hphase] at hq
    split at hq
    · exact href c r hq
    · exact h.refused q c r hq

omit [DecidableEq P] in
theorem outside_of_others {p : P} (hp : ∀ c rest, s.phase p ≠ .inside c rest)
    (hothers : ∀ q c rest, q ≠ p → s.phase q ≠ .inside c rest) :
    ∀ q c rest, s.phase q ≠ .inside c rest := by
  intro q c rest hq
  by_cases heq : q = p
  · exact hp c rest (heq ▸ hq)
  · exact hothers q c rest heq hq

theorem Serial.mem_of_done (h : Serial o m tr s) {p : P} {c : C} {r : R}
    (hp : s.phase p = .inside c (.done r)) : s.mem = (runAll o.effect m (entries tr)).2 :=
  h.inside p c (.done r) hp

/-- Whoever enters finds the memory as the calls before left it. -/
theorem Serial.enter (hx : Exclusive s) (h : Serial o m tr s) {p : P} {c : C}
    (hp : s.phase p = .locking c) (hsem : 0 < s.sem) :
    Serial o m (tr ++ [.entered p c]) (s.enter p c (o.body c)) := by
  have hmem := h.outside (hx.outside hsem)
  have hentries : entries (tr ++ [.entered p c]) = entries tr ++ [(p, c)] :=
    entries_append _ _
  refine ⟨?_, ?_, ?_, ?_⟩
  · intro q c' rest hq
    rw [State.phase_enter] at hq
    split at hq
    · obtain ⟨rfl, rfl⟩ := Phase.inside.inj hq
      rw [hentries, runAll_append, ← hmem]
      rfl
    · exact absurd hq (hx.outside hsem q c' rest)
  · intro hnone
    exact absurd (by simp) (hnone p c (o.body c))
  · intro q
    have happ : returnedTo q (tr ++ [.entered p c]) = returnedTo q tr ++ [] :=
      List.filterMap_append
    have hreplies : ∀ xs : List (P × C × R), repliesTo q (xs ++ [(p, c, (o.effect c s.mem).1)]) =
        repliesTo q xs ++ if p = q then [(c, (o.effect c s.mem).1)] else [] := by
      intro xs
      by_cases hpq : p = q <;> simp [repliesTo, List.filterMap_append, hpq]
    rw [hentries, runAll_append, happ, List.append_nil, ← hmem, State.phase_enter]
    refine (hreplies _).trans ?_
    rw [h.replies q]
    -- the last reply is the one `p` is now going to come back with
    by_cases hq : q = p
    · subst hq
      simp [hp, Phase.pending, Operations.effect]
    · simp [hq, Ne.symm hq]
  · intro q c' r hq
    rw [State.phase_enter] at hq
    split at hq
    · cases hq
    · exact h.refused q c' r hq

/-- An access is one step of the operation that is alone inside. -/
theorem Serial.access (hx : Exclusive s) (h : Serial o m tr s) {p : P} {c : C} {a : A}
    {next : V → Prog A V R} (hp : s.phase p = .inside c (.access a next)) :
    Serial o m tr ({ s with mem := (o.access a s.mem).2 }.setPhase p
      (.inside c (next (o.access a s.mem).1))) := by
  have hother : ∀ q c' rest, q ≠ p → s.phase q ≠ .inside c' rest := by
    intro q c' rest hne hq
    exact hne (hx.eq_of_inside hq hp)
  refine ⟨?_, ?_, ?_, ?_⟩
  · intro q c' rest hq
    rw [State.phase_setPhase] at hq
    split at hq
    · obtain ⟨rfl, rfl⟩ := Phase.inside.inj hq
      exact h.inside p c _ hp
    · next hne => exact absurd hq (hother q c' rest hne)
  · intro hnone
    exact absurd (by simp) (hnone p c (next (o.access a s.mem).1))
  · intro q
    rw [h.replies q, State.phase_setPhase]
    by_cases hq : q = p
    · subst hq
      simp [hp, Phase.pending, Prog.run]
    · rw [if_neg hq, Phase.pending_congr s.mem _ fun c' rest => hother q c' rest hq]
  · intro q c' r hq
    rw [State.phase_setPhase] at hq
    split at hq
    · cases hq
    · exact h.refused q c' r hq

theorem Serial.step (hx : Exclusive s) (h : Serial o m tr s) (hok : Undisturbed s a)
    (hs : o.step s a = some (s', es)) : Serial o m (tr ++ es) s' := by
  cases step_cases hs with
  | @move _ p ph hout hin hret hprev href hadmits =>
      apply h.setPhase p ph rfl hin
      · intro hnone
        exact h.outside (outside_of_others hout hnone)
      · exact fun _ _ => rfl
      · rw [Phase.pending_eq_nil hin hret, Phase.pending_eq_nil hout hprev]
        rfl
      · exact fun c r heq => href c r false heq
      · exact fun q => State.phase_setPhase s p q ph
      · rfl
  | stay => simpa using h
  | enter hp hsem => exact h.enter hx hp hsem
  | access hp => simpa using h.access hx hp
  | @leave p c r hp =>
      exact h.setPhase p (.returning c r true) rfl (by simp) (fun _ => h.mem_of_done hp)
        (fun _ _ => rfl) (by rw [hp]; rfl) (by simp) (fun q => by simp) rfl
  | @keep p c r hp =>
      exact h.setPhase p (.returning c r true) rfl (by simp) (fun _ => h.mem_of_done hp)
        (fun _ _ => rfl) (by rw [hp]; rfl) (by simp) (fun q => by simp) rfl
  | @ret p c r hp =>
      exact h.setPhase p .idle rfl (by simp)
        (fun hnone => h.outside (outside_of_others (by simp [hp]) hnone))
        (fun q hq => by simp [returnedTo, Ne.symm hq]) (by simp [returnedTo, hp, Phase.pending])
        (by simp) (fun q => by simp) rfl
  | @refuse p c r hp =>
      exact h.setPhase p .idle rfl (by simp)
        (fun hnone => h.outside (outside_of_others (by simp [hp]) hnone))
        (fun q hq => rfl) (by simp [returnedTo, hp, Phase.pending])
        (by simp) (fun q => by simp) rfl
  | kill => exact hok.elim

theorem Serial.init : Serial o m [] (State.init (P := P) m) where
  inside := fun p c rest hp => by cases hp
  outside := fun _ => rfl
  replies := fun p => rfl
  refused := fun p c r hp => by cases hp

theorem serial_run (h : Run (o.machine P) Undisturbed (State.init m) tr s) : Serial o m tr s := by
  have hboth := h.invariant (fun tr s => Exclusive s ∧ Serial o m tr s) ⟨.init m, .init⟩
    fun tr s a s' es hI hok hs => ⟨hI.1.step hs, hI.2.step hI.1 hok hs⟩
  exact hboth.2

theorem refused_run (h : Run (o.machine P) Undisturbed (State.init m) tr s) {p : P} {c : C} {r : R}
    (hr : .refused p c r ∈ tr) : r = o.refusal c := by
  have hboth := h.invariant (fun tr s => (Exclusive s ∧ Serial o m tr s) ∧
      ∀ p c r, .refused p c r ∈ tr → r = o.refusal c) ⟨⟨.init m, .init⟩, by simp⟩
    fun tr s a s' es hI hok hs => by
      refine ⟨⟨hI.1.1.step hs, hI.1.2.step hI.1.1 hok hs⟩, fun p c r hmem => ?_⟩
      rcases List.mem_append.mp hmem with hold | hnew
      · exact hI.2 p c r hold
      · cases step_cases hs with
        | refuse hp =>
            obtain ⟨rfl, rfl, rfl⟩ : _ ∧ _ ∧ _ := by simpa using hnew
            exact hI.1.2.refused _ _ _ hp
        | _ => simp at hnew
  exact hboth.2 p c r hr

end Serial

/-! ### What survives a kill -/

/-- From memory `m` on, `I` holds after every access, each access changes the
memory as `D` allows, and the reply meets `post`. -/
def Prog.Keeps (acc : A → S → V × S) (I : S → Prop) (D : S → S → Prop) (post : R → S → Prop) :
    Prog A V R → S → Prop
  | .done r, m => I m ∧ post r m
  | .access a next, m =>
      I m ∧ D m (acc a m).2 ∧ (next (acc a m).1).Keeps acc I D post (acc a m).2

theorem Prog.Keeps.inv {acc : A → S → V × S} {I : S → Prop} {D : S → S → Prop}
    {post : R → S → Prop} {g : Prog A V R} {m : S} (h : g.Keeps acc I D post m) : I m := by
  cases g with
  | done r => exact h.1
  | access a next => exact h.1

/-- Operations that keep `I`, and change the memory as `D` allows, access by
access; `post` is what their replies say. -/
structure Keeper (o : Operations C A V R S) (I : S → Prop) (D : S → S → Prop)
    (post : C → R → S → Prop) : Prop where
  refl : ∀ m, D m m
  trans : ∀ m m' m'', D m m' → D m' m'' → D m m''
  body : ∀ c m, o.admits c = true → I m → (o.body c).Keeps o.access I D (post c) m

/-- What holds of a state whatever was killed on the way to it. -/
structure Kept (o : Operations C A V R S) (I : S → Prop) (D : S → S → Prop)
    (post : C → R → S → Prop) (s : State P C A V R S) : Prop where
  exclusive : Exclusive s
  inv : I s.mem
  inside : ∀ p c rest, s.phase p = .inside c rest → rest.Keeps o.access I D (post c) s.mem
  locking : ∀ p c, s.phase p = .locking c → o.admits c = true

section Keeper

variable {o : Operations C A V R S} {I : S → Prop} {D : S → S → Prop} {post : C → R → S → Prop}
  {m : S} {s s' : State P C A V R S} {a : Action P C} {tr es : List (Event P C R)}

omit [DecidableEq P] in
theorem Kept.init (hI : I m) : Kept o I D post (State.init (P := P) m) where
  exclusive := .init m
  inv := hI
  inside := fun p c rest hp => by cases hp
  locking := fun p c hp => by cases hp

omit [DecidableEq P] in
theorem Kept.congr (h : Kept o I D post s) (hx : Exclusive s') (hmem : s'.mem = s.mem)
    (hinside : ∀ p c rest, s'.phase p = .inside c rest → s.phase p = .inside c rest)
    (hlocking : ∀ p c, s'.phase p = .locking c → s.phase p = .locking c ∨ o.admits c = true) :
    Kept o I D post s' where
  exclusive := hx
  inv := hmem ▸ h.inv
  inside := fun p c rest hp => hmem ▸ h.inside p c rest (hinside p c rest hp)
  locking := fun p c hp => (hlocking p c hp).elim (h.locking p c) id

theorem Kept.setPhase (h : Kept o I D post s) (hx : Exclusive s') (p : P) (ph : Phase C A V R)
    (hin : ∀ c rest, ph ≠ .inside c rest) (hlock : ∀ c, ph = .locking c → o.admits c = true)
    (hphase : ∀ q, s'.phase q = if q = p then ph else s.phase q) (hmem : s'.mem = s.mem) :
    Kept o I D post s' := by
  refine h.congr hx hmem (fun q c rest hq => ?_) fun q c hq => ?_
  · rw [hphase] at hq
    split at hq
    · exact absurd hq (hin c rest)
    · exact hq
  · rw [hphase] at hq
    split at hq
    · exact .inr (hlock c hq)
    · exact .inl hq

theorem Kept.step (hk : Keeper o I D post) (h : Kept o I D post s)
    (hs : o.step s a = some (s', es)) : Kept o I D post s' := by
  have hx := h.exclusive.step hs
  cases step_cases hs with
  | @move _ p ph hout hin hret hprev href hadmits =>
      exact h.setPhase hx p ph hin hadmits (fun q => by simp) rfl
  | stay => exact h
  | @enter p c hp hsem =>
      refine ⟨hx, h.inv, fun q c' rest hq => ?_, fun q c' hq => ?_⟩
      · rw [State.phase_enter] at hq
        split at hq
        · obtain ⟨rfl, rfl⟩ := Phase.inside.inj hq
          exact hk.body c s.mem (h.locking p c hp) h.inv
        · exact h.inside q c' rest hq
      · rw [State.phase_enter] at hq
        split at hq
        · cases hq
        · exact h.locking q c' hq
  | @access p c a next hp =>
      obtain ⟨-, -, hrest⟩ := h.inside p c _ hp
      refine ⟨hx, hrest.inv, fun q c' rest hq => ?_, fun q c' hq => ?_⟩
      · rw [State.phase_setPhase] at hq
        split at hq
        · obtain ⟨rfl, rfl⟩ := Phase.inside.inj hq
          exact hrest
        · next hne => exact absurd (h.exclusive.eq_of_inside hq hp) hne
      · rw [State.phase_setPhase] at hq
        split at hq
        · cases hq
        · exact h.locking q c' hq
  | @leave p c r hp =>
      exact h.setPhase hx p (.returning c r true) (by simp) (by simp) (fun q => by simp) rfl
  | @keep p c r hp =>
      exact h.setPhase hx p (.returning c r true) (by simp) (by simp) (fun q => by simp) rfl
  | @ret p c r hp => exact h.setPhase hx p .idle (by simp) (by simp) (fun q => by simp) rfl
  | @refuse p c r hp => exact h.setPhase hx p .idle (by simp) (by simp) (fun q => by simp) rfl
  | @kill p => exact h.setPhase hx p .idle (by simp) (by simp) (fun q => by simp) rfl

theorem Keeper.changes_step (hk : Keeper o I D post) (h : Kept o I D post s)
    (hs : o.step s a = some (s', es)) : D s.mem s'.mem := by
  cases step_cases hs with
  | @access p c a next hp => exact (h.inside p c _ hp).2.1
  | _ => exact hk.refl _

/-- What holds at the start of a run holds throughout, and the memory changes
as the accesses do. -/
theorem Keeper.kept_run {ok : State P C A V R S → Action P C → Prop} {s₀ : State P C A V R S}
    (hk : Keeper o I D post) (h₀ : Kept o I D post s₀) (h : Run (o.machine P) ok s₀ tr s) :
    Kept o I D post s ∧ D s₀.mem s.mem :=
  h.invariant_state (fun s => Kept o I D post s ∧ D s₀.mem s.mem) ⟨h₀, hk.refl _⟩
    fun _ _ _ _ hI _ hs => ⟨hI.1.step hk hs, hk.trans _ _ _ hI.2 (hk.changes_step hI.1 hs)⟩

theorem returning_step (hs : o.step s a = some (s', es)) {p : P} {c : C} {r : R}
    (hr : s'.phase p = .returning c r true) :
    s.phase p = .returning c r true ∨ s.phase p = .inside c (.done r) := by
  cases step_cases hs with
  | @move _ q ph hout hin hret hprev href hadmits =>
      rw [State.phase_setPhase] at hr
      split at hr
      · exact absurd hr (hret c r)
      · exact .inl hr
  | stay => exact .inl hr
  | enter hq hsem =>
      rw [State.phase_enter] at hr
      split at hr
      · cases hr
      · exact .inl hr
  | access hq =>
      rw [State.phase_setPhase] at hr
      split at hr
      · cases hr
      · exact .inl hr
  -- with `unlock` an operation gets its reply, whether it returns the lock or not
  | leave hq =>
      rw [State.phase_leave] at hr
      split at hr
      · next heq =>
          obtain ⟨rfl, rfl, -⟩ := Phase.returning.inj hr
          exact .inr (heq ▸ hq)
      · exact .inl hr
  | keep hq =>
      rw [State.phase_setPhase] at hr
      split at hr
      · next heq =>
          obtain ⟨rfl, rfl, -⟩ := Phase.returning.inj hr
          exact .inr (heq ▸ hq)
      · exact .inl hr
  | ret hq =>
      rw [State.phase_setPhase] at hr
      split at hr
      · cases hr
      · exact .inl hr
  | refuse hq =>
      rw [State.phase_setPhase] at hr
      split at hr
      · cases hr
      · exact .inl hr
  | kill =>
      rw [State.phase_leave] at hr
      split at hr
      · cases hr
      · exact .inl hr

/-- A reply says what its call's end says, and goes on saying it as far as the
accesses cannot spoil it; `F` is known from the start of the run on. -/
theorem Keeper.reply_run {ok : State P C A V R S → Action P C → Prop} {s₀ : State P C A V R S}
    (hk : Keeper o I D post) (h₀ : Kept o I D post s₀) {F : S → Prop}
    (hF : ∀ m m', F m → D m m' → F m') (hF₀ : F s₀.mem) {Q : C → R → S → Prop}
    (hQ : ∀ c r m m', Q c r m → D m m' → Q c r m')
    (hpost : ∀ c r m, I m → F m → post c r m → Q c r m) {p : P}
    (hp : ∀ c r, s₀.phase p ≠ .returning c r true) (h : Run (o.machine P) ok s₀ tr s) :
    ∀ c r, .returned p c r ∈ tr → Q c r s.mem := by
  have hinv := h.invariant (fun tr s => Kept o I D post s ∧ F s.mem ∧
      (∀ c r, s.phase p = .returning c r true → Q c r s.mem) ∧
      ∀ c r, .returned p c r ∈ tr → Q c r s.mem)
    ⟨h₀, hF₀, fun c r h => absurd h (hp c r), by simp⟩ ?_
  · exact hinv.2.2.2
  · rintro tr s a s' es ⟨hkept, hf, hphase, htr⟩ - hs
    have hd := hk.changes_step hkept hs
    refine ⟨hkept.step hk hs, hF _ _ hf hd, ?_, ?_⟩
    · intro c r hr
      rcases returning_step hs hr with hold | hdone
      · exact hQ c r _ _ (hphase c r hold) hd
      · obtain ⟨hi, hend⟩ := hkept.inside p c _ hdone
        exact hQ c r _ _ (hpost c r s.mem hi hf hend) hd
    · intro c r hr
      rcases List.mem_append.mp hr with hold | hnew
      · exact hQ c r _ _ (htr c r hold) hd
      · cases step_cases hs with
        | ret hq =>
            obtain ⟨rfl, rfl, rfl⟩ : _ ∧ _ ∧ _ := by simpa using hnew
            exact hphase _ _ hq
        | _ => simp at hnew

/-! ### Who gets as far as the lock -/

omit [DecidableEq P] in
theorem Prog.keeps_of_forall {acc : A → S → V × S} {post : R → S → Prop}
    (hpost : ∀ r m, post r m) (g : Prog A V R) (m : S) :
    g.Keeps acc (fun _ => True) (fun _ _ => True) post m := by
  induction g generalizing m with
  | done r => exact ⟨trivial, hpost r m⟩
  | access a next ih => exact ⟨trivial, trivial, ih _ _⟩

theorem Operations.keeper_admits (o : Operations C A V R S) :
    Keeper o (fun _ => True) (fun _ _ => True) fun c _ _ => o.admits c = true where
  refl := fun _ => trivial
  trans := fun _ _ _ _ _ => trivial
  body := fun c m hc _ => (o.body c).keeps_of_forall (fun _ _ => hc) m

theorem admits_of_returned {ok : State P C A V R S → Action P C → Prop}
    (h : Run (o.machine P) ok (State.init m) tr s) {p : P} {c : C} {r : R}
    (hr : .returned p c r ∈ tr) : o.admits c = true :=
  o.keeper_admits.reply_run (.init trivial) (F := fun _ => True) (fun _ _ _ _ => trivial) trivial
    (Q := fun c _ _ => o.admits c = true) (fun _ _ _ _ hc _ => hc) (fun _ _ _ _ _ hc => hc)
    (by simp [State.init]) h c r hr

theorem admits_of_entries {ok : State P C A V R S → Action P C → Prop}
    (h : Run (o.machine P) ok (State.init m) tr s) {p : P} {c : C} (hp : (p, c) ∈ entries tr) :
    o.admits c = true := by
  have hinv := h.invariant (fun tr s =>
      Kept o (fun _ => True) (fun _ _ => True) (fun c _ _ => o.admits c = true) s ∧
        ∀ p c, (p, c) ∈ entries tr → o.admits c = true) ⟨.init trivial, by simp [entries]⟩ ?_
  · exact hinv.2 p c hp
  · rintro tr s a s' es ⟨hkept, htr⟩ - hs
    refine ⟨hkept.step o.keeper_admits hs, fun p c hmem => ?_⟩
    rw [entries_append] at hmem
    rcases List.mem_append.mp hmem with hold | hnew
    · exact htr p c hold
    · cases step_cases hs with
      | @enter q c' hq hsem =>
          obtain ⟨rfl, rfl⟩ : p = q ∧ c = c' := by simpa [entries] using hnew
          exact hkept.locking p c hq
      | _ => simp [entries] at hnew

end Keeper

end CriticalSection
