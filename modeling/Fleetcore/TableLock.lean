import Fleetcore.Lib.StateMachine
import Mathlib.Data.Set.Card
import Mathlib.Logic.Function.Basic

/-!
The semaphore of the terminal table (`ShmTable::open`, `lock` and `unlock`).

The kernel's part is one semaphore: a new one is 0, each `semop` is atomic and
does not go below zero, a successful `semop` sets `sem_otime`, and the
adjustments made under `SEM_UNDO` are given back when a process dies. The
processes' part is where each of them stands in `open` and between `lock` and
`unlock`. A process is any value of a type `P`, so there is no bound on their
number; any of them may die at any point and be started again.

What holds throughout is a balance between the value and the one possible
holder (`Inv`), and it rests on which operations carry `SEM_UNDO`: the pending
adjustment of a process is 1 exactly while it holds the lock, so its death
returns what it took, and the creator's +1 is never taken back.
-/

namespace Fleetcore.TableLock

open StateMachine

def initRetries : ℕ := 100

inductive Phase where
  /-- `open` has not been called. -/
  | fresh
  /-- `semget` created the set; the initialising `semop` comes next. -/
  | seeding
  /-- `semget` said `EEXIST`; the attaching `semget` comes next. -/
  | attaching
  /-- In the retry loop, `i` rounds done. -/
  | waiting (i : ℕ)
  /-- `open` returned false and `sem_id_` is negative. -/
  | closed
  /-- `open` returned `opened` and `sem_id_` names the set; no lock is held. -/
  | ready (opened : Bool)
  /-- Between a successful `lock` and its `unlock`. -/
  | holding (opened : Bool)
  | dead
  deriving DecidableEq, Repr

def Phase.holds : Phase → Bool
  | .holding _ => true
  | _ => false

structure State (P : Type*) where
  /-- The key has a semaphore set. -/
  created : Bool
  val : ℕ
  /-- `sem_otime` is not zero. -/
  otime : Bool
  /-- What the kernel adds to the value when a process dies. -/
  undo : P → ℤ
  phase : P → Phase

def State.init (P : Type*) : State P := ⟨false, 0, false, fun _ => 0, fun _ => .fresh⟩

/-- How a system call that may be retried ends. -/
inductive Outcome where
  | ok
  | eintr
  | error
  deriving DecidableEq, Repr

/-- One step of one process; the arguments say what its system calls answer. -/
inductive Action (P : Type*) where
  | start (p : P)
  /-- `open` up to the exclusive `semget`: the segment is attached (`shm`) and
  the call fails for a reason other than `EEXIST` (`err`) or does not. -/
  | semget (p : P) (shm err : Bool)
  /-- The second `semget`, after `EEXIST`. -/
  | attach (p : P) (err : Bool)
  /-- The initialising `semop`, without `SEM_UNDO`. -/
  | seed (p : P) (err : Bool)
  /-- One round of the retry loop. -/
  | poll (p : P) (err : Bool)
  | lock (p : P) (o : Outcome)
  | unlock (p : P) (o : Outcome)
  /-- Exit or kill. -/
  | die (p : P)

inductive Event (P : Type*) where
  /-- The creator's +1. -/
  | seeded (p : P)
  | opened (p : P)
  | locked (p : P)
  | unlocked (p : P)
  | died (p : P)
  deriving DecidableEq

variable {P : Type*} [DecidableEq P]

def State.setPhase (s : State P) (p : P) (ph : Phase) : State P :=
  { s with phase := Function.update s.phase p ph }

def State.addUndo (s : State P) (p : P) (d : ℤ) : State P :=
  { s with undo := Function.update s.undo p (s.undo p + d) }

def State.seed (s : State P) (p : P) : State P :=
  { s with val := s.val + 1, otime := true }.setPhase p (.ready true)

/-- `semop` -1 with `SEM_UNDO`. -/
def State.acquire (s : State P) (p : P) (opened : Bool) : State P :=
  ({ s with val := s.val - 1, otime := true }.addUndo p 1).setPhase p (.holding opened)

/-- `semop` +1 with `SEM_UNDO`. -/
def State.release (s : State P) (p : P) (opened : Bool) : State P :=
  ({ s with val := s.val + 1, otime := true }.addUndo p (-1)).setPhase p (.ready opened)

/-- The kernel applies the adjustments of a process and forgets it. -/
def State.kill (s : State P) (p : P) : State P :=
  { s with
    val := (s.val + s.undo p).toNat
    undo := Function.update s.undo p 0 }.setPhase p .dead

def step (s : State P) : Action P → Option (State P × List (Event P))
  | .start p =>
      if s.phase p = .dead then some (s.setPhase p .fresh, []) else none
  | .semget p shm err =>
      if s.phase p = .fresh then
        if !shm then some (s.setPhase p .closed, [])
        else if err then some (s.setPhase p .closed, [])
        else if s.created then some (s.setPhase p .attaching, [])
        else some ({ s with created := true }.setPhase p .seeding, [])
      else none
  | .attach p err =>
      if s.phase p = .attaching then
        some (s.setPhase p (if err then .closed else .waiting 0), [])
      else none
  | .seed p err =>
      if s.phase p = .seeding then
        if err then some (s.setPhase p (.ready false), [])
        else some (s.seed p, [.seeded p, .opened p])
      else none
  | .poll p err =>
      match s.phase p with
      | .waiting i =>
          if err then some (s.setPhase p (.ready false), [])
          else if s.otime then some (s.setPhase p (.ready true), [.opened p])
          else if i + 1 < initRetries then some (s.setPhase p (.waiting (i + 1)), [])
          else some (s.setPhase p (.ready false), [])
      | _ => none
  | .lock p o =>
      match s.phase p with
      -- `sem_id_` is negative: `lock` returns false
      | .closed => some (s, [])
      -- after an `open` that failed late, `lock` still has a set to work on
      | .ready opened =>
          match o with
          | .ok => if 0 < s.val then some (s.acquire p opened, [.locked p]) else none
          | .eintr => some (s, [])
          | .error => some (s, [])
      | _ => none
  | .unlock p o =>
      match s.phase p with
      | .holding opened =>
          match o with
          | .ok => some (s.release p opened, [.unlocked p])
          -- a lock that is not given back stays held
          | .eintr => some (s, [])
          | .error => some (s, [])
      | _ => none
  | .die p =>
      if s.phase p = .dead then none else some (s.kill p, [.died p])

def machine (P : Type*) [DecidableEq P] : Machine (State P) (Action P) (Event P) := ⟨step⟩

/-! ### What one step can do -/

inductive Effect (s : State P) : State P → List (Event P) → Prop
  | stay : Effect s s []
  /-- A process without the lock moves on in `open`. -/
  | move (p : P) (ph : Phase) (h : (s.phase p).holds = false) (h' : ph.holds = false)
      (hne : ph ≠ .seeding) : Effect s (s.setPhase p ph) []
  /-- A process that waited sees `sem_otime` set. -/
  | seen (p : P) (h : (s.phase p).holds = false) (ho : s.otime = true) :
      Effect s (s.setPhase p (.ready true)) [.opened p]
  | create (p : P) (h : (s.phase p).holds = false) (hc : s.created = false) :
      Effect s ({ s with created := true }.setPhase p .seeding) []
  | seed (p : P) (h : s.phase p = .seeding) : Effect s (s.seed p) [.seeded p, .opened p]
  | acquire (p : P) (opened : Bool) (h : s.phase p = .ready opened) (hv : 0 < s.val) :
      Effect s (s.acquire p opened) [.locked p]
  | release (p : P) (opened : Bool) (h : s.phase p = .holding opened) :
      Effect s (s.release p opened) [.unlocked p]
  | kill (p : P) : Effect s (s.kill p) [.died p]

theorem effect_of_step {s s' : State P} {a : Action P} {es : List (Event P)}
    (h : step s a = some (s', es)) : Effect s s' es := by
  cases a with
  | start p =>
      simp only [step, Option.ite_none_right_eq_some, Option.some.injEq, Prod.mk.injEq] at h
      obtain ⟨hp, rfl, rfl⟩ := h
      exact .move p _ (by rw [hp]; rfl) rfl (by simp)
  | semget p shm err =>
      simp only [step, Option.ite_none_right_eq_some] at h
      obtain ⟨hp, h⟩ := h
      have hfree : (s.phase p).holds = false := by rw [hp]; rfl
      split_ifs at h with hshm herr hcr <;> obtain ⟨rfl, rfl⟩ := Prod.mk.inj (Option.some.inj h)
      · exact .move p _ hfree rfl (by simp)
      · exact .move p _ hfree rfl (by simp)
      · exact .move p _ hfree rfl (by simp)
      · exact .create p hfree (by simpa using hcr)
  | attach p err =>
      simp only [step, Option.ite_none_right_eq_some, Option.some.injEq, Prod.mk.injEq] at h
      obtain ⟨hp, rfl, rfl⟩ := h
      refine .move p _ (by rw [hp]; rfl) ?_ ?_ <;> split <;> simp [Phase.holds]
  | seed p err =>
      simp only [step, Option.ite_none_right_eq_some] at h
      obtain ⟨hp, h⟩ := h
      split_ifs at h with herr <;> obtain ⟨rfl, rfl⟩ := Prod.mk.inj (Option.some.inj h)
      · exact .move p _ (by rw [hp]; rfl) rfl (by simp)
      · exact .seed p hp
  | poll p err =>
      simp only [step] at h
      split at h
      · next i hp =>
          have hfree : (s.phase p).holds = false := by rw [hp]; rfl
          split_ifs at h with herr ho hi <;>
            obtain ⟨rfl, rfl⟩ := Prod.mk.inj (Option.some.inj h)
          · exact .move p _ hfree rfl (by simp)
          · exact .seen p hfree ho
          · exact .move p _ hfree rfl (by simp)
          · exact .move p _ hfree rfl (by simp)
      · cases h
  | lock p o =>
      simp only [step] at h
      split at h
      · obtain ⟨rfl, rfl⟩ := Prod.mk.inj (Option.some.inj h)
        exact .stay
      · next opened hp =>
          cases o with
          | ok =>
              simp only [Option.ite_none_right_eq_some, Option.some.injEq, Prod.mk.injEq] at h
              obtain ⟨hv, rfl, rfl⟩ := h
              exact .acquire p opened hp hv
          | eintr =>
              obtain ⟨rfl, rfl⟩ := Prod.mk.inj (Option.some.inj h)
              exact .stay
          | error =>
              obtain ⟨rfl, rfl⟩ := Prod.mk.inj (Option.some.inj h)
              exact .stay
      · cases h
  | unlock p o =>
      simp only [step] at h
      split at h
      · next opened hp =>
          cases o with
          | ok =>
              obtain ⟨rfl, rfl⟩ := Prod.mk.inj (Option.some.inj h)
              exact .release p opened hp
          | eintr =>
              obtain ⟨rfl, rfl⟩ := Prod.mk.inj (Option.some.inj h)
              exact .stay
          | error =>
              obtain ⟨rfl, rfl⟩ := Prod.mk.inj (Option.some.inj h)
              exact .stay
      · cases h
  | die p =>
      simp only [step, Option.ite_none_left_eq_some, Option.some.injEq, Prod.mk.injEq] at h
      obtain ⟨-, rfl, rfl⟩ := h
      exact .kill p

/-! ### The balance of the value and the holder -/

/-- The processes between a successful `lock` and its `unlock`. -/
def State.holders (s : State P) : Set P := { p | (s.phase p).holds = true }

def Event.IsSeed (e : Event P) : Prop := ∃ p, e = .seeded p

/-- `open` returned true, or a critical section starts. -/
def Event.IsUse (e : Event P) : Prop := ∃ p, e = .opened p ∨ e = .locked p

def Seeded (tr : List (Event P)) : Prop := ∃ e ∈ tr, e.IsSeed

/-- The value and the holder before and after the creator's +1. -/
structure Balanced (seeded : Prop) (val : ℕ) (holders : Set P) : Prop where
  before : ¬seeded → val = 0 ∧ holders = ∅
  after : seeded → (val = 1 ∧ holders = ∅) ∨ (val = 0 ∧ ∃ p, holders = {p})

structure Inv (tr : List (Event P)) (s : State P) : Prop where
  /-- The pending adjustment is what the process has taken and not returned. -/
  undo_eq : ∀ p, s.undo p = if (s.phase p).holds then 1 else 0
  balanced : Balanced (Seeded tr) s.val s.holders
  otime_iff : s.otime = true ↔ Seeded tr
  created : Seeded tr → s.created = true
  /-- The creator is alone, and has not been seeding before. -/
  seeding : ∀ p, s.phase p = .seeding →
    s.created = true ∧ ¬Seeded tr ∧ ∀ q, s.phase q = .seeding → q = p
  ordered : Precedes Event.IsSeed Event.IsUse tr

omit [DecidableEq P] in
theorem seeded_append_of_not {tr es : List (Event P)} (h : ∀ e ∈ es, ¬e.IsSeed) :
    Seeded (tr ++ es) ↔ Seeded tr := by
  constructor
  · rintro ⟨e, he, hs⟩
    rcases List.mem_append.mp he with he | he
    · exact ⟨e, he, hs⟩
    · exact absurd hs (h e he)
  · rintro ⟨e, he, hs⟩
    exact ⟨e, List.mem_append_left _ he, hs⟩

omit [DecidableEq P] in
theorem seeded_snoc {tr : List (Event P)} {e : Event P} (h : ¬e.IsSeed) :
    Seeded (tr ++ [e]) ↔ Seeded tr :=
  seeded_append_of_not (by simpa using h)

omit [DecidableEq P] in
theorem State.free_of_holders {s : State P} (h : s.holders = ∅) (p : P) :
    (s.phase p).holds = false := by
  simpa [State.holders] using Set.eq_empty_iff_forall_notMem.mp h p

@[simp] theorem State.phase_setPhase (s : State P) (p q : P) (ph : Phase) :
    (s.setPhase p ph).phase q = if q = p then ph else s.phase q := by
  simp [State.setPhase, Function.update_apply]

theorem State.holders_setPhase (s : State P) (p : P) {ph : Phase} (h : ph.holds = false) :
    (s.setPhase p ph).holders = s.holders \ {p} := by
  ext q
  by_cases hq : q = p <;> simp [State.holders, hq, h]

theorem State.holders_setPhase_holding (s : State P) (p : P) (b : Bool) :
    (s.setPhase p (.holding b)).holders = insert p s.holders := by
  ext q
  by_cases hq : q = p <;> simp [State.holders, hq, Phase.holds]

theorem State.holders_setPhase_of_free (s : State P) {p : P} {ph : Phase}
    (h : (s.phase p).holds = false) (h' : ph.holds = false) :
    (s.setPhase p ph).holders = s.holders := by
  rw [s.holders_setPhase p h', Set.sdiff_singleton_eq_self]
  simp [State.holders, h]

theorem undo_eq_setPhase {s : State P} {p : P} {ph : Phase}
    (hu : ∀ q, s.undo q = if (s.phase q).holds then 1 else 0)
    (h : (s.phase p).holds = false) (h' : ph.holds = false) (q : P) :
    (s.setPhase p ph).undo q = if ((s.setPhase p ph).phase q).holds then 1 else 0 := by
  by_cases hq : q = p
  · subst hq
    simpa [State.setPhase, h, h'] using hu q
  · simpa [State.setPhase, Function.update_apply, hq] using hu q

theorem seeding_of_setPhase {s : State P} {p q : P} {ph : Phase} (hne : ph ≠ .seeding)
    (h : (s.setPhase p ph).phase q = .seeding) : s.phase q = .seeding := by
  by_cases hq : q = p
  · simp [hq, hne] at h
  · simpa [hq] using h

omit [DecidableEq P] in
theorem inv_init : Inv [] (State.init P) where
  undo_eq := fun p => rfl
  balanced := ⟨fun _ => ⟨rfl, by ext p; simp [State.holders, State.init, Phase.holds]⟩,
    fun h => by simp [Seeded] at h⟩
  otime_iff := by simp [State.init, Seeded]
  created := fun h => by simp [Seeded] at h
  seeding := fun p hp => by simp [State.init] at hp
  ordered := AtEach.nil

theorem Inv.setPhase {tr es : List (Event P)} {s : State P} (hi : Inv tr s) {p : P} {ph : Phase}
    (h : (s.phase p).holds = false) (h' : ph.holds = false) (hne : ph ≠ .seeding)
    (hes : ∀ e ∈ es, ¬e.IsSeed) (hord : Precedes Event.IsSeed Event.IsUse (tr ++ es)) :
    Inv (tr ++ es) (s.setPhase p ph) where
  undo_eq := undo_eq_setPhase hi.undo_eq h h'
  balanced := by
    rw [seeded_append_of_not hes, s.holders_setPhase_of_free h h']
    exact hi.balanced
  otime_iff := by
    rw [seeded_append_of_not hes]
    exact hi.otime_iff
  created := by
    rw [seeded_append_of_not hes]
    exact hi.created
  seeding := fun q hq => by
    rw [seeded_append_of_not hes]
    obtain ⟨hc, hn, huniq⟩ := hi.seeding q (seeding_of_setPhase hne hq)
    exact ⟨hc, hn, fun r hr => huniq r (seeding_of_setPhase hne hr)⟩
  ordered := hord

theorem Inv.create {tr : List (Event P)} {s : State P} (hi : Inv tr s) {p : P}
    (h : (s.phase p).holds = false) (hc : s.created = false) :
    Inv tr ({ s with created := true }.setPhase p .seeding) where
  undo_eq := undo_eq_setPhase (s := { s with created := true }) hi.undo_eq h rfl
  balanced := by
    rw [State.holders_setPhase_of_free _ (by exact h) rfl]
    exact hi.balanced
  otime_iff := hi.otime_iff
  created := fun _ => rfl
  seeding := fun q _ => by
    -- nobody is seeding while the set does not exist
    have hnone : ∀ r, s.phase r ≠ .seeding := fun r hr => by
      rw [(hi.seeding r hr).1] at hc
      cases hc
    have hself : ∀ r, ({ s with created := true }.setPhase p .seeding).phase r = .seeding →
        r = p := fun r hr => by
      by_contra hne
      exact hnone r (by simpa [hne] using hr)
    refine ⟨rfl, fun hs => ?_, fun r hr => (hself r hr).trans (hself q ‹_›).symm⟩
    rw [hi.created hs] at hc
    cases hc
  ordered := hi.ordered

theorem Inv.seed {tr : List (Event P)} {s : State P} (hi : Inv tr s) {p : P}
    (h : s.phase p = .seeding) : Inv (tr ++ [.seeded p, .opened p]) (s.seed p) := by
  obtain ⟨hcreated, hnot, huniq⟩ := hi.seeding p h
  obtain ⟨hval, hholders⟩ := hi.balanced.before hnot
  have hfree : (s.phase p).holds = false := by rw [h]; rfl
  have hseeded : Seeded (tr ++ [.seeded p, .opened p]) := ⟨.seeded p, by simp, p, rfl⟩
  refine ⟨undo_eq_setPhase (s := { s with val := s.val + 1, otime := true }) hi.undo_eq hfree rfl,
    ⟨fun hn => absurd hseeded hn, fun _ => .inl ⟨?_, ?_⟩⟩, by simpa [State.seed, State.setPhase],
    fun _ => hcreated, fun q hq => ?_, ?_⟩
  · exact congrArg (· + 1) hval
  · rw [State.seed, State.holders_setPhase_of_free _ (by exact hfree) rfl]
    exact hholders
  · have hq' : s.phase q = .seeding := seeding_of_setPhase (by simp) hq
    obtain rfl := huniq q hq'
    simp [State.seed] at hq
  · have hfirst : Precedes Event.IsSeed Event.IsUse (tr ++ [.seeded p]) :=
      hi.ordered.snoc fun ⟨_, hu⟩ => by simp at hu
    rw [show tr ++ [.seeded p, .opened p] = (tr ++ [.seeded p]) ++ [.opened p] by simp]
    exact hfirst.snoc fun _ => ⟨.seeded p, by simp, p, rfl⟩

/-- A lock is taken from the value 1, and there is no holder then. -/
theorem Inv.acquire {tr : List (Event P)} {s : State P} (hi : Inv tr s) {p : P} {b : Bool}
    (h : s.phase p = .ready b) (hv : 0 < s.val) : Inv (tr ++ [.locked p]) (s.acquire p b) := by
  -- a value that is not 0 is from the seed, and then nobody holds the lock
  have hseeded : Seeded tr := by
    by_contra hn
    have := (hi.balanced.before hn).1
    omega
  obtain ⟨hval, hholders⟩ | ⟨hval, -⟩ := hi.balanced.after hseeded
  · have htr : Seeded (tr ++ [.locked p]) ↔ Seeded tr := seeded_snoc (by simp [Event.IsSeed])
    refine ⟨fun q => ?_, ?_, ?_, ?_, ?_, ?_⟩
    · have hu := hi.undo_eq q
      by_cases hq : q = p
      · subst hq
        simp only [h, Phase.holds, Bool.false_eq_true, if_false] at hu
        simp [State.acquire, State.setPhase, State.addUndo, hu, Phase.holds]
      · simpa [State.acquire, State.setPhase, State.addUndo, Function.update_apply, hq] using hu
    · refine ⟨fun hn => absurd (htr.mpr hseeded) hn, fun _ => .inr ⟨?_, p, ?_⟩⟩
      · exact congrArg (· - 1) hval
      · rw [State.acquire, State.holders_setPhase_holding]
        exact (congrArg (insert p) hholders).trans (insert_empty_eq p)
    · rw [htr]
      exact ⟨fun _ => hseeded, fun _ => rfl⟩
    · exact fun _ => hi.created hseeded
    · exact fun q hq => absurd hseeded
        (hi.seeding q (seeding_of_setPhase (by simp) hq)).2.1
    · exact hi.ordered.snoc fun _ => hseeded
  · omega

/-- Only the holder unlocks, and nobody holds the lock after it. -/
theorem Inv.release {tr : List (Event P)} {s : State P} (hi : Inv tr s) {p : P} {b : Bool}
    (h : s.phase p = .holding b) : Inv (tr ++ [.unlocked p]) (s.release p b) := by
  have hmem : p ∈ s.holders := by simp [State.holders, h, Phase.holds]
  have hseeded : Seeded tr := by
    by_contra hn
    rw [(hi.balanced.before hn).2] at hmem
    exact hmem
  obtain ⟨-, hholders⟩ | ⟨hval, q, hholders⟩ := hi.balanced.after hseeded
  · rw [hholders] at hmem
    exact hmem.elim
  · have htr : Seeded (tr ++ [.unlocked p]) ↔ Seeded tr := seeded_snoc (by simp [Event.IsSeed])
    refine ⟨fun r => ?_, ?_, ?_, ?_, ?_, ?_⟩
    · have hu := hi.undo_eq r
      by_cases hr : r = p
      · subst hr
        simp only [h, Phase.holds, if_true] at hu
        simp [State.release, State.setPhase, State.addUndo, hu, Phase.holds]
      · simpa [State.release, State.setPhase, State.addUndo, Function.update_apply, hr] using hu
    · refine ⟨fun hn => absurd (htr.mpr hseeded) hn, fun _ => .inl ⟨?_, ?_⟩⟩
      · exact congrArg (· + 1) hval
      · rw [State.release, State.holders_setPhase _ _ rfl]
        obtain rfl : p = q := by simpa [hholders] using hmem
        exact (congrArg (· \ {p}) hholders).trans (Set.sdiff_self ..)
    · rw [htr]
      exact ⟨fun _ => hseeded, fun _ => rfl⟩
    · exact fun _ => hi.created hseeded
    · exact fun r hr => absurd hseeded
        (hi.seeding r (seeding_of_setPhase (by simp) hr)).2.1
    · exact hi.ordered.snoc fun ⟨_, hu⟩ => by simp at hu

/-- A death gives back exactly what the process held. -/
theorem Inv.kill {tr : List (Event P)} {s : State P} (hi : Inv tr s) (p : P) :
    Inv (tr ++ [.died p]) (s.kill p) := by
  have htr : Seeded (tr ++ [.died p]) ↔ Seeded tr := seeded_snoc (by simp [Event.IsSeed])
  have hholders : (s.kill p).holders = s.holders \ {p} := State.holders_setPhase _ _ rfl
  have hval : (s.kill p).val = (s.val + s.undo p).toNat := rfl
  refine ⟨fun q => ?_, ?_, ?_, ?_, ?_, ?_⟩
  · have hu := hi.undo_eq q
    by_cases hq : q = p
    · subst hq
      simp [State.kill, State.setPhase, Phase.holds]
    · simpa [State.kill, State.setPhase, Function.update_apply, hq] using hu
  · -- the unit comes back if `p` held it, and nothing otherwise
    rw [htr, hholders, hval, hi.undo_eq p]
    refine ⟨fun hn => ?_, fun hs => ?_⟩
    · obtain ⟨hv, he⟩ := hi.balanced.before hn
      simp [hv, he, State.free_of_holders he p]
    · obtain ⟨hv, he⟩ | ⟨hv, q, he⟩ := hi.balanced.after hs
      · exact .inl (by simp [hv, he, State.free_of_holders he p])
      · by_cases hp : (s.phase p).holds = true
        · obtain rfl : p = q := by
            have : p ∈ s.holders := hp
            simpa [he] using this
          exact .inl (by simp [hv, he, hp])
        · refine .inr ⟨by simp [hv, hp], q, ?_⟩
          rw [he, Set.sdiff_singleton_eq_self]
          rintro rfl
          have : p ∈ s.holders := by simp [he]
          exact hp this
  · rw [htr]
    exact hi.otime_iff
  · rw [htr]
    exact hi.created
  · intro q hq
    rw [htr]
    obtain ⟨hc, hn, huniq⟩ := hi.seeding q (seeding_of_setPhase (by simp) hq)
    exact ⟨hc, hn, fun r hr => huniq r (seeding_of_setPhase (by simp) hr)⟩
  · exact hi.ordered.snoc fun ⟨_, hu⟩ => by simp at hu

theorem Inv.step {tr es : List (Event P)} {s s' : State P} {a : Action P} (hi : Inv tr s)
    (h : step s a = some (s', es)) : Inv (tr ++ es) s' := by
  cases effect_of_step h with
  | stay => simpa using hi
  | move p ph hfree hfree' hne =>
      exact hi.setPhase hfree hfree' hne (by simp) (by simpa using hi.ordered)
  | seen p hfree ho =>
      exact hi.setPhase hfree rfl (by simp) (by simp [Event.IsSeed])
        (hi.ordered.snoc fun _ => hi.otime_iff.mp ho)
  | create p hfree hc => simpa using hi.create hfree hc
  | seed p hp => exact hi.seed hp
  | acquire p b hp hv => exact hi.acquire hp hv
  | release p b hp => exact hi.release hp
  | kill p => exact hi.kill p

/-- In every run, whoever is killed and whenever: at most one process is
between `lock` and `unlock`; the value and the number of holders add up to 1
once the creator's +1 has happened and to 0 before it; and neither does `open`
return true nor does a critical section start before that +1. -/
theorem table_lock_safe {tr : List (Event P)} {s : State P}
    (h : Run (machine P) Always (State.init P) tr s) :
    s.holders.Subsingleton ∧
      (Seeded tr → s.val + s.holders.ncard = 1) ∧
      (¬Seeded tr → s.val + s.holders.ncard = 0) ∧
      Precedes Event.IsSeed Event.IsUse tr := by
  have hi : Inv tr s := h.invariant Inv inv_init fun _ _ _ _ _ hi _ hs => hi.step hs
  have hbefore : ¬Seeded tr → s.val = 0 ∧ s.holders = ∅ := hi.balanced.before
  have hafter := hi.balanced.after
  refine ⟨?_, fun hs => ?_, fun hn => ?_, hi.ordered⟩
  · by_cases hs : Seeded tr
    · obtain ⟨-, he⟩ | ⟨-, p, he⟩ := hafter hs
      · simp [he]
      · simp [he]
    · simp [(hbefore hs).2]
  · obtain ⟨hv, he⟩ | ⟨hv, p, he⟩ := hafter hs <;> simp [hv, he]
  · obtain ⟨hv, he⟩ := hbefore hn
    simp [hv, he]

/-- The creator takes the lock and is killed with it while another process
waits in `open`; that process then finds the lock free. -/
theorem table_lock_safe_creator_killed :
    ∃ tr s, Run (machine Bool) Always (State.init Bool) tr s ∧ Event.died true ∈ tr ∧
      s.phase false = .holding true ∧ s.val + s.holders.ncard = 1 := by
  have hrun := (machine Bool).run_of_exec_always (State.init Bool)
    [.semget true true false, .semget false true false, .attach false false,
      .poll false false, .seed true false, .lock true .ok, .die true, .poll false false,
      .lock false .ok] rfl
  exact ⟨_, _, hrun, by decide, rfl,
    (table_lock_safe hrun).2.1 ⟨.seeded true, by decide, true, rfl⟩⟩

end Fleetcore.TableLock
