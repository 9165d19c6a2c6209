import Fleetcore.Lib.CallLoop
import Fleetcore.ShmTable
import Fleetcore.TableLock

/-!
One `ShmTable` object: `open` with its seven failure exits, and what the
accessors make of the object it leaves.

`open` attaches the segment before it gets the semaphore, and `is_open` is about
the segment alone. An exit after `shmat` therefore leaves an object that counts
as open, and unless `semget` itself failed the accessors of that object call
`semop`, on a semaphore that may stay at 0.
-/

namespace Fleetcore.TableOpen

open CallLoop
open Fleetcore.TableLock (Outcome initRetries)

/-- The members of a `ShmTable`; `none` for a negative identifier. -/
structure ShmTable where
  shmId : Option ℕ
  semId : Option ℕ
  /-- `rows_` is not null. -/
  rows : Bool
  deriving DecidableEq, Repr

namespace ShmTable

def fresh : ShmTable := ⟨none, none, false⟩

def isOpen (t : ShmTable) : Bool := t.rows

end ShmTable

/-! ### `open` -/

inductive Semget where
  | id (i : ℕ)
  | eexist
  | failed
  deriving DecidableEq, Repr

/-- The answers to the system calls of one `open`. -/
structure OpenCalls where
  shmget : Option ℕ
  /-- `shmat` attaches the segment. -/
  shmat : Bool
  semgetExcl : Semget
  /-- The second `semget`, after `EEXIST`. -/
  semget : Option ℕ
  /-- The initialising `semop` succeeds. -/
  semop : Bool
  /-- `sem_otime` in the answer to the `i`-th `semctl`; `none` when it fails. -/
  semctl : ℕ → Option ℕ

/-- The retry loop from round `i` on, with `n` rounds to go. -/
def awaitInit (semctl : ℕ → Option ℕ) : ℕ → ℕ → Bool
  | 0, _ => false
  | n + 1, i =>
      match semctl i with
      | none => false
      | some otime => if otime ≠ 0 then true else awaitInit semctl n (i + 1)

def ShmTable.open (t : ShmTable) (c : OpenCalls) : Bool × ShmTable :=
  let t := { t with shmId := c.shmget }
  if t.shmId = none then (false, t)
  else if !c.shmat then (false, t)
  else
    let t := { t with rows := true }
    match c.semgetExcl with
    | .id i => (c.semop, { t with semId := some i })
    | .eexist =>
        let t := { t with semId := c.semget }
        if t.semId = none then (false, t) else (awaitInit c.semctl initRetries 0, t)
    | .failed => (false, { t with semId := none })

/-! ### The accessors -/

def lockTurn (_ : Unit) : Outcome → Progress Unit Bool
  | .ok => .done true
  | .eintr => .again ()
  | .error => .done false

structure AccessorCall (R : Type*) where
  /-- It calls `semop`. -/
  attempted : Bool
  /-- What it returns; `none` while it is inside `semop`. -/
  result : Option R
  deriving DecidableEq, Repr

/-- The shape all accessors have: a look at the object and at the arguments
(`refused`), then `lock`, and `work` under the lock. `answers` are those to the
`semop` of `lock`. -/
def ShmTable.guarded {R : Type*} (t : ShmTable) (refused : Bool) (answers : List Outcome)
    (failure work : R) : AccessorCall R :=
  if !t.isOpen || refused then ⟨false, some failure⟩
  else if t.semId = none then ⟨false, some failure⟩
  else
    match run lockTurn () answers with
    | .again _ => ⟨true, none⟩
    | .done locked => ⟨true, some (if locked then work else failure)⟩

namespace ShmTable

variable (t : ShmTable) (answers : List Outcome) (g : Segment)

def registerTerminal (termNo : UInt32) : AccessorCall (Bool × Segment) :=
  t.guarded (termNo == 0) answers (false, g) (g.registerTerminal .granted termNo)

def setState (now : UInt64) (termNo : UInt32) (state : UInt8) (capabilities : UInt32) :
    AccessorCall (Bool × Segment) :=
  t.guarded false answers (false, g) (g.setState .granted now termNo state capabilities)

def touch (now : UInt64) (termNo : UInt32) : AccessorCall (Bool × Segment) :=
  t.guarded false answers (false, g) (g.touch .granted now termNo)

def find (termNo : UInt32) (out : TermEntry) : AccessorCall (Bool × TermEntry) :=
  t.guarded false answers (false, out) (g.find .granted termNo out)

def snapshot (out : Option (List TermEntry)) : AccessorCall (ℕ × Option (List TermEntry)) :=
  t.guarded out.isNone answers (0, out) (g.snapshot .granted out)

end ShmTable

/-- The access a call had to the table, from what it found of the object and what
`lock` answered. -/
def ShmTable.accessWith (t : ShmTable) (answers : List Outcome) : Access :=
  ⟨t.isOpen, decide (t.semId ≠ none ∧ run lockTurn () answers = .done true)⟩

theorem ShmTable.guarded_result {R : Type*} {t : ShmTable} {refused : Bool}
    {answers : List Outcome} {failure r : R} (op : Access → R)
    (hdenied : ∀ a, a ≠ .granted ∨ refused = true → op a = failure)
    (h : (t.guarded refused answers failure (op .granted)).result = some r) :
    r = op (t.accessWith answers) := by
  unfold guarded at h
  split_ifs at h with hshut hsem
  · obtain rfl := Option.some.inj h
    refine (hdenied _ ?_).symm
    rcases Bool.or_eq_true_iff.mp hshut with hclosed | hrefused
    · left
      intro hgranted
      have hopen : t.isOpen = true := congrArg Access.isOpen hgranted
      simp [hopen] at hclosed
    · exact .inr hrefused
  · obtain rfl := Option.some.inj h
    refine (hdenied _ (.inl fun hgranted => ?_)).symm
    have hlocked := congrArg Access.locked hgranted
    simp [accessWith, hsem, Access.granted] at hlocked
  · have hopen : t.isOpen = true := by simp_all
    cases hrun : run lockTurn () answers with
    | again u => simp [hrun] at h
    | done locked =>
        simp only [hrun, Option.some.injEq] at h
        subst h
        cases locked with
        | true =>
            have haccess : t.accessWith answers = .granted := by
              simp [accessWith, hopen, hsem, hrun, Access.granted]
            rw [haccess, if_pos rfl]
        | false =>
            refine (hdenied _ (.inl fun hgranted => ?_)).symm
            have hlocked := congrArg Access.locked hgranted
            simp [accessWith, hrun, Access.granted] at hlocked

/-! The accessors are the operations on the rows, with the access `lock` obtains. -/

section Results

variable {t : ShmTable} {answers : List Outcome} {g : Segment}

theorem ShmTable.result_registerTerminal {termNo : UInt32} {r : Bool × Segment}
    (h : (t.registerTerminal answers g termNo).result = some r) :
    r = g.registerTerminal (t.accessWith answers) termNo := by
  refine guarded_result (fun a => g.registerTerminal a termNo) (fun a ha => ?_) h
  rcases a with ⟨_ | _, _ | _⟩ <;> simp_all [Segment.registerTerminal, Access.granted]

theorem ShmTable.result_setState {now : UInt64} {termNo capabilities : UInt32} {state : UInt8}
    {r : Bool × Segment}
    (h : (t.setState answers g now termNo state capabilities).result = some r) :
    r = g.setState (t.accessWith answers) now termNo state capabilities := by
  refine guarded_result (fun a => g.setState a now termNo state capabilities) (fun a ha => ?_) h
  rcases a with ⟨_ | _, _ | _⟩ <;> simp_all [Segment.setState, Access.granted]

theorem ShmTable.result_touch {now : UInt64} {termNo : UInt32} {r : Bool × Segment}
    (h : (t.touch answers g now termNo).result = some r) :
    r = g.touch (t.accessWith answers) now termNo := by
  refine guarded_result (fun a => g.touch a now termNo) (fun a ha => ?_) h
  rcases a with ⟨_ | _, _ | _⟩ <;> simp_all [Segment.touch, Access.granted]

theorem ShmTable.result_find {termNo : UInt32} {out : TermEntry} {r : Bool × TermEntry}
    (h : (t.find answers g termNo out).result = some r) :
    r = g.find (t.accessWith answers) termNo out := by
  refine guarded_result (fun a => g.find a termNo out) (fun a ha => ?_) h
  rcases a with ⟨_ | _, _ | _⟩ <;> simp_all [Segment.find, Access.granted]

theorem ShmTable.result_snapshot {out : Option (List TermEntry)}
    {r : ℕ × Option (List TermEntry)} (h : (t.snapshot answers g out).result = some r) :
    r = g.snapshot (t.accessWith answers) out := by
  refine guarded_result (fun a => g.snapshot a out) (fun a ha => ?_) h
  rcases a with ⟨_ | _, _ | _⟩ <;> cases out <;> simp_all [Segment.snapshot, Access.granted]

end Results

/-- Every accessor fails at once, and none calls `semop`. -/
structure ShmTable.Refuses (t : ShmTable) : Prop where
  registerTerminal : ∀ answers g termNo,
    t.registerTerminal answers g termNo = ⟨false, some (false, g)⟩
  setState : ∀ answers g now termNo state capabilities,
    t.setState answers g now termNo state capabilities = ⟨false, some (false, g)⟩
  touch : ∀ answers g now termNo, t.touch answers g now termNo = ⟨false, some (false, g)⟩
  find : ∀ answers g termNo out, t.find answers g termNo out = ⟨false, some (false, out)⟩
  snapshot : ∀ answers g out, t.snapshot answers g out = ⟨false, some (0, out)⟩

theorem ShmTable.guarded_of_closed {R : Type*} {t : ShmTable} (h : t.isOpen = false)
    (refused : Bool) (answers : List Outcome) (failure work : R) :
    t.guarded refused answers failure work = ⟨false, some failure⟩ := by
  simp [guarded, h]

theorem ShmTable.refuses_of_closed {t : ShmTable} (h : t.isOpen = false) : t.Refuses where
  registerTerminal := fun _ _ _ => guarded_of_closed h _ _ _ _
  setState := fun _ _ _ _ _ _ => guarded_of_closed h _ _ _ _
  touch := fun _ _ _ _ => guarded_of_closed h _ _ _ _
  find := fun _ _ _ _ => guarded_of_closed h _ _ _ _
  snapshot := fun _ _ _ => guarded_of_closed h _ _ _ _

/-- An object with a semaphore waits in `semop` for as long as that has not
answered. -/
theorem ShmTable.guarded_waits {R : Type*} {t : ShmTable} {i : ℕ} (h : t.isOpen = true)
    (hsem : t.semId = some i) (failure work : R) :
    t.guarded false [] failure work = ⟨true, none⟩ := by
  simp [guarded, h, hsem]

/-! ### What `open` leaves -/

def OpenCalls.Attached (c : OpenCalls) : Prop := c.shmget.isSome = true ∧ c.shmat = true

/-- The semaphore is there and somebody has operated on it: this process created
it and its initialising `semop` succeeded, or it was there already and one of
the rounds of the retry loop, all before it having been answered, saw
`sem_otime` set. -/
def OpenCalls.Initialised (c : OpenCalls) : Prop :=
  (∃ i, c.semgetExcl = .id i ∧ c.semop = true) ∨
    (c.semgetExcl = .eexist ∧ c.semget.isSome = true ∧
      ∃ i < initRetries, (∃ otime, c.semctl i = some otime ∧ otime ≠ 0) ∧
        ∀ j < i, c.semctl j = some 0)

theorem awaitInit_iff (semctl : ℕ → Option ℕ) (n i : ℕ) :
    awaitInit semctl n i = true ↔
      ∃ k < n, (∃ otime, semctl (i + k) = some otime ∧ otime ≠ 0) ∧
        ∀ j < k, semctl (i + j) = some 0 := by
  induction n generalizing i with
  | zero => simp [awaitInit]
  | succ n ih =>
      constructor
      · intro h
        unfold awaitInit at h
        split at h
        · cases h
        · next otime hfirst =>
            split at h
            · next hset => exact ⟨0, by omega, ⟨otime, hfirst, hset⟩, by simp⟩
            · next hzero =>
                obtain ⟨k, hk, hset, hbefore⟩ := (ih (i + 1)).mp h
                refine ⟨k + 1, by omega, ?_, fun j hj => ?_⟩
                · rwa [show i + (k + 1) = i + 1 + k by omega]
                · cases j with
                  | zero => rw [Nat.add_zero, hfirst, not_not.mp hzero]
                  | succ j =>
                      rw [show i + (j + 1) = i + 1 + j by omega]
                      exact hbefore j (by omega)
      · rintro ⟨k, hk, ⟨otime, hset, hne⟩, hbefore⟩
        unfold awaitInit
        cases k with
        | zero =>
            rw [Nat.add_zero] at hset
            simp [hset, hne]
        | succ k =>
            have hfirst := hbefore 0 (by omega)
            rw [Nat.add_zero] at hfirst
            simp only [hfirst, ne_eq, not_true_eq_false, if_false]
            apply (ih (i + 1)).mpr
            refine ⟨k, by omega, ⟨otime, ?_, hne⟩, fun j hj => ?_⟩
            · rwa [show i + 1 + k = i + (k + 1) by omega]
            · rw [show i + 1 + j = i + (j + 1) by omega]
              exact hbefore (j + 1) (by omega)

/-- `open` succeeds exactly when both objects are had, and the object counts as
open from the moment the segment is attached. -/
theorem ShmTable.open_spec (t : ShmTable) (c : OpenCalls) :
    ((t.open c).1 = true ↔ c.Attached ∧ c.Initialised) ∧
      ((t.open c).2.isOpen = true ↔ c.Attached ∨ t.isOpen = true) := by
  unfold ShmTable.open OpenCalls.Attached OpenCalls.Initialised
  cases hshm : c.shmget with
  | none => simp [isOpen]
  | some shm =>
      cases hat : c.shmat with
      | false => simp [isOpen]
      | true =>
          cases hsem : c.semgetExcl with
          | id i => simp [isOpen]
          | failed => simp [isOpen]
          | eexist =>
              cases hsecond : c.semget with
              | none => simp [isOpen]
              | some i => simpa [isOpen] using awaitInit_iff c.semctl initRetries 0

/-- What is expected of `open`. -/
structure Sound (t : ShmTable) (c : OpenCalls) : Prop where
  /-- A failure leaves a closed object, whose accessors fail without `semop`. -/
  failed : (t.open c).1 = false → (t.open c).2.isOpen = false ∧ (t.open c).2.Refuses
  opened : (t.open c).1 = true → (t.open c).2.rows = true ∧ c.Initialised

/-- Whatever the system calls answer, and whatever the object was before: `open`
does what is expected exactly when an attached segment comes with an initialised
semaphore, and a segment that is not attached meets an object that was closed. -/
theorem open_sound_iff (t : ShmTable) (c : OpenCalls) :
    Sound t c ↔ (c.Attached → c.Initialised) ∧ (¬c.Attached → t.isOpen = false) := by
  obtain ⟨hresult, hopen⟩ := t.open_spec c
  constructor
  · intro h
    refine ⟨fun hat => ?_, fun hat => ?_⟩
    · -- the object counts as open, so `open` has not failed
      by_contra hinit
      have hfalse : (t.open c).1 = false :=
        Bool.eq_false_iff.mpr fun htrue => hinit (hresult.mp htrue).2
      have hclosed := (h.failed hfalse).1
      rw [hopen.mpr (.inl hat)] at hclosed
      cases hclosed
    · have hfalse : (t.open c).1 = false :=
        Bool.eq_false_iff.mpr fun htrue => hat (hresult.mp htrue).1
      have hclosed := (h.failed hfalse).1
      exact Bool.eq_false_iff.mpr fun hwas => by
        rw [hopen.mpr (.inr hwas)] at hclosed
        cases hclosed
  · rintro ⟨hinit, hwas⟩
    refine ⟨fun hfalse => ?_, fun htrue => ?_⟩
    · have hat : ¬c.Attached := fun hat => by
        rw [hresult.mpr ⟨hat, hinit hat⟩] at hfalse
        cases hfalse
      have hclosed : (t.open c).2.isOpen = false := Bool.eq_false_iff.mpr fun h => by
        rcases hopen.mp h with h | h
        · exact hat h
        · rw [hwas hat] at h
          cases h
      exact ⟨hclosed, ShmTable.refuses_of_closed hclosed⟩
    · obtain ⟨hat, hinit⟩ := hresult.mp htrue
      exact ⟨hopen.mpr (.inl hat), hinit⟩

/-- The creator of the semaphore died before its first `semop`. -/
def orphaned : OpenCalls where
  shmget := some 0
  shmat := true
  semgetExcl := .eexist
  semget := some 0
  semop := false
  semctl := fun _ => some 0

/-- After all retries `open` fails, the object counts as open, and the next call
goes into `semop` and stays there. -/
theorem open_orphaned_waits :
    (ShmTable.fresh.open orphaned).1 = false ∧
      (ShmTable.fresh.open orphaned).2.isOpen = true ∧
      (ShmTable.fresh.open orphaned).2.touch [] .zero 0 1001 = ⟨true, none⟩ ∧
      ¬Sound .fresh orphaned := by
  have hinit : ¬orphaned.Initialised := by simp [OpenCalls.Initialised, orphaned]
  have hat : orphaned.Attached := ⟨rfl, rfl⟩
  have hopen := (ShmTable.fresh.open_spec orphaned).2.mpr (.inl hat)
  have hfalse : (ShmTable.fresh.open orphaned).1 = false :=
    Bool.eq_false_iff.mpr fun htrue =>
      hinit ((ShmTable.fresh.open_spec orphaned).1.mp htrue).2
  refine ⟨hfalse, hopen, ShmTable.guarded_waits hopen rfl _ _, fun hsound => ?_⟩
  have hclosed := (hsound.failed hfalse).1
  rw [hopen] at hclosed
  cases hclosed

end Fleetcore.TableOpen
