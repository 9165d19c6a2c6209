import Fleetcore.Lib.StateMachine
import Mathlib.Logic.Function.Basic

/-!
Creating and removing System V message queues (`common/msgq.cpp`).

The kernel keeps a table from key to queue identifier; an identifier is never
used twice. A `MsgQueue` object holds an identifier and an ownership flag, and
`open` sets the flag to what its caller asked for, not to what `msgget` did.

An object is named by its process and a number, so that objects are moved only
within a process; object 0 is the process's own queue. A process that leaves
`main`, whether its `init` failed or its loop ended, destroys its objects; one
that is killed does not. The trace records which objects brought a queue into
existence, which were moved, and which issued `IPC_RMID`.
-/

namespace Fleetcore.Msgq

open StateMachine

def msgqKeyBase : ℤ := 0x46431000

def msgqMaxPayload : ℕ := 1024

structure Kernel where
  queues : ℤ → Option ℕ
  next : ℕ

def Kernel.init : Kernel := ⟨fun _ => none, 0⟩

def Kernel.create (k : Kernel) (key : ℤ) : Kernel where
  queues := Function.update k.queues key (some k.next)
  next := k.next + 1

/-- `IPC_RMID`. -/
def Kernel.remove (k : Kernel) (i : ℕ) : Kernel where
  queues := fun key => if k.queues key = some i then none else k.queues key
  next := k.next

structure MsgQueue where
  /-- `id_`; `none` for a negative one. -/
  id : Option ℕ
  owner : Bool
  deriving DecidableEq, Repr

/-- `MsgQueue()`, and what a moved-from object is left as. -/
def MsgQueue.closed : MsgQueue := ⟨none, false⟩

def MsgQueue.removes (q : MsgQueue) : Option ℕ := if q.owner then q.id else none

/-- A process and the number of one of its objects. -/
abbrev Obj (P : Type*) := P × ℕ

structure State (P : Type*) where
  kernel : Kernel
  obj : Obj P → Option MsgQueue

def State.init (P : Type*) : State P := ⟨.init, fun _ => none⟩

inductive Action (P : Type*) where
  | construct (o : Obj P)
  /-- `err`: the call of `msgget` fails whatever the key. -/
  | open (o : Obj P) (key : ℤ) (create err : Bool)
  | moveConstruct (src dst : Obj P)
  | moveAssign (src dst : Obj P)
  | destroy (o : Obj P)
  /-- The process dies without running destructors. -/
  | kill (p : P)
  deriving DecidableEq

inductive Event (P : Type*) where
  /-- The object's own `msgget` brought the queue into existence. -/
  | created (o : Obj P) (i : ℕ)
  | moved (src dst : Obj P)
  /-- The object issued `IPC_RMID`. -/
  | removed (o : Obj P) (i : ℕ)
  deriving DecidableEq

variable {P : Type*} [DecidableEq P]

def State.set (s : State P) (o : Obj P) (q : Option MsgQueue) : State P :=
  { s with obj := Function.update s.obj o q }

/-- `MsgQueue::open` on an object in state `q`. -/
def State.openQueue (s : State P) (o : Obj P) (q : MsgQueue) (key : ℤ) (create err : Bool) :
    State P × List (Event P) :=
  if err then (s.set o (some { q with id := none }), [])
  else
    match s.kernel.queues key with
    | some i => (s.set o (some ⟨some i, create⟩), [])
    | none =>
        if create then
          ({ s with kernel := s.kernel.create key }.set o (some ⟨some s.kernel.next, create⟩),
            [.created o s.kernel.next])
        else (s.set o (some { q with id := none }), [])

/-- `if (id_ >= 0 && owner_) msgctl(id_, IPC_RMID, nullptr)`. -/
def State.dispose (s : State P) (o : Obj P) (q : MsgQueue) : State P × List (Event P) :=
  match q.removes with
  | some i => ({ s with kernel := s.kernel.remove i }, [.removed o i])
  | none => (s, [])

def step (s : State P) : Action P → Option (State P × List (Event P))
  | .construct o =>
      match s.obj o with
      | none => some (s.set o (some .closed), [])
      | some _ => none
  | .open o key create err =>
      match s.obj o with
      | none => none
      | some q => some (s.openQueue o q key create err)
  | .moveConstruct src dst =>
      if src.1 ≠ dst.1 then none
      else
        match s.obj src, s.obj dst with
        | some q, none => some ((s.set dst (some q)).set src (some .closed), [.moved src dst])
        | _, _ => none
  | .moveAssign src dst =>
      if src.1 ≠ dst.1 then none
      else
        match s.obj src, s.obj dst with
        | some q, some old =>
            if src = dst then some (s, [])
            else
              let r := s.dispose dst old
              some ((r.1.set dst (some q)).set src (some .closed), r.2 ++ [.moved src dst])
        | _, _ => none
  | .destroy o =>
      match s.obj o with
      | none => none
      | some q =>
          let r := s.dispose o q
          some (r.1.set o none, r.2)
  | .kill p => some ({ s with obj := fun o => if o.1 = p then none else s.obj o }, [])

def machine (P : Type*) [DecidableEq P] : Machine (State P) (Action P) (Event P) := ⟨step⟩

/-! ### Processes

`Process::init` constructs the process's own queue and opens it with
`create`; leaving `main` destroys it. Sending opens a queue for the time of one
call. -/

/-- A process comes up as far as its own queue. -/
def bringUp (p : P) (index : ℤ) : List (Action P) :=
  [.construct (p, 0), .open (p, 0) (msgqKeyBase + index) true false]

/-- A process leaves `main`, after a failed `init` or at the end of its loop. -/
def leaveMain (p : P) : List (Action P) := [.destroy (p, 0)]

/-- `Process::send_to`, as far as queue objects go. -/
def sendTo (p : P) (dest : ℤ) : List (Action P) :=
  [.construct (p, 1), .open (p, 1) (msgqKeyBase + dest) false false, .destroy (p, 1)]

/-! ### Who may remove a queue -/

def passTitle (m : ℕ → Option (Obj P)) : Event P → ℕ → Option (Obj P)
  | .created o i => Function.update m i (some o)
  | .moved src dst => fun i => if m i = some src then some dst else m i
  | .removed _ _ => m

/-- The object whose own `msgget` created a queue, or to which that object has
since been moved. -/
def title (tr : List (Event P)) : ℕ → Option (Obj P) := tr.foldl passTitle fun _ => none

def Event.isRemovalOf (i : ℕ) : Event P → Bool
  | .removed _ j => j == i
  | _ => false

def TitledRemovals (tr : List (Event P)) : Prop :=
  AtEach (fun pre e => ∀ o i, e = .removed o i → title pre i = some o) tr

/-- A queue was created by an object of process `p`, and by no other process. -/
def CreatedBy (tr : List (Event P)) (p : P) (i : ℕ) : Prop :=
  (∃ o : Obj P, o.1 = p ∧ Event.created o i ∈ tr) ∧
    ∀ o : Obj P, Event.created o i ∈ tr → o.1 = p

/-- `IPC_RMID` comes from the process that created the queue. -/
def OwnRemovals (tr : List (Event P)) : Prop :=
  AtEach (fun pre e => ∀ o i, e = .removed o i → CreatedBy pre o.1 i) tr

/-- `open` with `create` is called only when the key has no queue. -/
def OpensFreeKeys (s : State P) : Action P → Prop
  | .open _ key true false => s.kernel.queues key = none
  | _ => True

instance OpensFreeKeys.decidable (s : State P) : ∀ a, Decidable (OpensFreeKeys s a)
  | .open _ key true false => inferInstanceAs (Decidable (s.kernel.queues key = none))
  | .open _ _ true true => isTrue trivial
  | .open _ _ false _ => isTrue trivial
  | .construct _ => isTrue trivial
  | .moveConstruct _ _ => isTrue trivial
  | .moveAssign _ _ => isTrue trivial
  | .destroy _ => isTrue trivial
  | .kill _ => isTrue trivial

def removals (i : ℕ) (tr : List (Event P)) : ℕ := tr.countP (Event.isRemovalOf i)

theorem title_snoc (tr : List (Event P)) (e : Event P) :
    title (tr ++ [e]) = passTitle (title tr) e := by
  simp [title]

omit [DecidableEq P] in
theorem removals_snoc_removed (tr : List (Event P)) (o : Obj P) (i j : ℕ) :
    removals i (tr ++ [.removed o j]) = removals i tr + if j = i then 1 else 0 := by
  by_cases h : j = i <;> simp [removals, Event.isRemovalOf, h]

omit [DecidableEq P] in
theorem removals_snoc_other (tr : List (Event P)) (i : ℕ) {e : Event P}
    (h : ∀ o j, e ≠ .removed o j) : removals i (tr ++ [e]) = removals i tr := by
  cases e with
  | removed o j => exact absurd rfl (h o j)
  | created o j => simp [removals, Event.isRemovalOf]
  | moved src dst => simp [removals, Event.isRemovalOf]

omit [DecidableEq P] in
theorem CreatedBy.snoc_iff {tr : List (Event P)} {p : P} {i : ℕ} {e : Event P}
    (h : ∀ o, e ≠ .created o i) : CreatedBy (tr ++ [e]) p i ↔ CreatedBy tr p i := by
  have hmem : ∀ o, Event.created o i ∈ tr ++ [e] ↔ Event.created o i ∈ tr := fun o => by
    simp [Ne.symm (h o)]
  simp only [CreatedBy, hmem]

/-! ### The invariant

An object that would remove a queue has the title to it, and the queue has not
been removed. Titles are unique by construction, so a removal leaves no second
object behind that would remove the same queue. -/

structure Inv (tr : List (Event P)) (s : State P) : Prop where
  owned : ∀ o q i, s.obj o = some q → q.removes = some i →
    title tr i = some o ∧ removals i tr = 0
  beyond : ∀ i, s.kernel.next ≤ i →
    title tr i = none ∧ removals i tr = 0 ∧ ∀ o, Event.created o i ∉ tr
  home : ∀ i o, title tr i = some o → CreatedBy tr o.1 i
  titled : TitledRemovals tr
  own : OwnRemovals tr
  once : ∀ i, removals i tr ≤ 1

@[simp] theorem State.obj_set (s : State P) (o o' : Obj P) (q : Option MsgQueue) :
    (s.set o q).obj o' = if o' = o then q else s.obj o' := by
  simp [State.set, Function.update_apply]

@[simp] theorem State.set_set (s : State P) (o : Obj P) (q q' : Option MsgQueue) :
    (s.set o q).set o q' = s.set o q' := by
  simp [State.set]

theorem inv_init : Inv [] (State.init P) where
  owned := fun o q i h => by simp [State.init] at h
  beyond := fun i _ => ⟨rfl, rfl, by simp⟩
  home := fun i o h => by simp [title] at h
  titled := AtEach.nil
  own := AtEach.nil
  once := fun i => Nat.zero_le 1

theorem Inv.set {tr : List (Event P)} {s : State P} (hi : Inv tr s) (o : Obj P)
    {q : Option MsgQueue} (hq : ∀ q' ∈ q, q'.removes = none) : Inv tr (s.set o q) :=
  { hi with
    owned := fun o' q' i ho hr => by
      rw [State.obj_set] at ho
      split at ho
      · rw [hq q' ho] at hr
        cases hr
      · exact hi.owned o' q' i ho hr }

theorem Inv.dispose {tr : List (Event P)} {s : State P} (hi : Inv tr s) {o : Obj P}
    {q : MsgQueue} (ho : s.obj o = some q) :
    Inv (tr ++ (s.dispose o q).2) ((s.dispose o q).1.set o none) := by
  unfold State.dispose
  cases hr : q.removes with
  | none => simpa using hi.set o (by simp)
  | some i =>
      obtain ⟨htitle, hzero⟩ := hi.owned o q i ho hr
      have hcount : ∀ j, removals j (tr ++ [.removed o i]) =
          removals j tr + if i = j then 1 else 0 := fun j => removals_snoc_removed tr o j i
      refine ⟨fun o' q' j ho' hr' => ?_, fun j hj => ?_, ?_, ?_, ?_, fun j => ?_⟩
      · rw [State.obj_set] at ho'
        split at ho'
        · cases ho'
        · next hne =>
            obtain ⟨htitle', hzero'⟩ := hi.owned o' q' j ho' hr'
            -- the title to a queue is with one object at a time
            have hij : i ≠ j := fun hij => by
              subst hij
              exact hne (Option.some.inj (htitle'.symm.trans htitle))
            rw [hcount, if_neg hij, title_snoc]
            exact ⟨htitle', hzero'⟩
      · have hij : i ≠ j := fun hij => by
          subst hij
          rw [(hi.beyond i hj).1] at htitle
          cases htitle
        rw [hcount, if_neg hij, title_snoc]
        simpa [passTitle] using hi.beyond j hj
      · intro j o' ht
        rw [title_snoc] at ht
        exact (CreatedBy.snoc_iff (by simp)).mpr (hi.home j o' ht)
      · exact hi.titled.snoc fun o' j he => by
          obtain ⟨rfl, rfl⟩ := Event.removed.inj he
          exact htitle
      · exact hi.own.snoc fun o' j he => by
          obtain ⟨rfl, rfl⟩ := Event.removed.inj he
          exact hi.home i o htitle
      · rw [hcount]
        split
        · next hij =>
            subst hij
            omega
        · exact hi.once j

/-- The title to a queue goes to the object whose `msgget` created it. -/
theorem Inv.create {tr : List (Event P)} {s : State P} (hi : Inv tr s) (o : Obj P) (key : ℤ) :
    Inv (tr ++ [.created o s.kernel.next])
      ({ s with kernel := s.kernel.create key }.set o (some ⟨some s.kernel.next, true⟩)) := by
  have htitle : ∀ j, title (tr ++ [.created o s.kernel.next]) j =
      if j = s.kernel.next then some o else title tr j := fun j => by
    rw [title_snoc, passTitle, Function.update_apply]
  have hcount : ∀ j, removals j (tr ++ [.created o s.kernel.next]) = removals j tr := fun j =>
    removals_snoc_other tr j (by simp)
  -- the kernel has not given out this identifier before
  have hfresh := hi.beyond s.kernel.next le_rfl
  refine ⟨fun o' q j ho hr => ?_, fun j hj => ?_, fun j o' ht => ?_, hi.titled.snoc (by simp),
    hi.own.snoc (by simp), fun j => by rw [hcount]; exact hi.once j⟩
  · rw [hcount, htitle]
    rw [State.obj_set] at ho
    split at ho
    · next heq =>
        obtain rfl := Option.some.inj ho
        obtain rfl : s.kernel.next = j := Option.some.inj hr
        exact ⟨by rw [if_pos rfl, heq], hfresh.2.1⟩
    · obtain ⟨ht, hz⟩ := hi.owned o' q j ho hr
      have hne : j ≠ s.kernel.next := fun hj => by
        rw [hj, hfresh.1] at ht
        cases ht
      exact ⟨by rw [if_neg hne, ht], hz⟩
  · have hj' : s.kernel.next + 1 ≤ j := hj
    obtain ⟨hn, hz, hc⟩ := hi.beyond j (by omega)
    rw [hcount, htitle, if_neg (by omega)]
    refine ⟨hn, hz, fun o' => ?_⟩
    have hne : j ≠ s.kernel.next := by omega
    simp [hc, hne]
  · rw [htitle] at ht
    split at ht
    · next heq =>
        subst heq
        obtain rfl := Option.some.inj ht
        exact ⟨⟨o, rfl, by simp⟩, fun c hmem => by
          rcases List.mem_append.mp hmem with hmem | hmem
          · exact absurd hmem (hfresh.2.2 c)
          · rw [(Event.created.inj (List.mem_singleton.mp hmem)).1]⟩
    · next hne =>
        exact (CreatedBy.snoc_iff (by simp [Ne.symm hne])).mpr (hi.home j o' ht)

theorem Inv.move {tr : List (Event P)} {s : State P} (hi : Inv tr s) {src dst : Obj P}
    {q : MsgQueue} (hsrc : s.obj src = some q) (hhome : src.1 = dst.1) :
    Inv (tr ++ [.moved src dst]) ((s.set dst (some q)).set src (some .closed)) := by
  have hcount : ∀ j, removals j (tr ++ [.moved src dst]) = removals j tr := fun j =>
    removals_snoc_other tr j (by simp)
  have htitle : ∀ j, title (tr ++ [.moved src dst]) j =
      if title tr j = some src then some dst else title tr j := fun j => by
    rw [title_snoc, passTitle]
  refine ⟨fun o q' j ho hr => ?_, fun j hj => ?_, fun j o ht => ?_, hi.titled.snoc (by simp),
    hi.own.snoc (by simp), fun j => by rw [hcount]; exact hi.once j⟩
  · rw [hcount, htitle]
    rw [State.obj_set, State.obj_set] at ho
    split_ifs at ho with h₁ h₂
    · obtain rfl := Option.some.inj ho
      cases hr
    · obtain rfl := Option.some.inj ho
      obtain ⟨ht, hz⟩ := hi.owned src q j hsrc hr
      exact ⟨by rw [if_pos ht, h₂], hz⟩
    · obtain ⟨ht, hz⟩ := hi.owned o q' j ho hr
      have hne : title tr j ≠ some src := fun h => h₁ (Option.some.inj (ht.symm.trans h))
      exact ⟨by rw [if_neg hne, ht], hz⟩
  · have hb := hi.beyond j hj
    rw [hcount, htitle, hb.1]
    exact ⟨rfl, hb.2.1, by simpa using hb.2.2⟩
  · rw [htitle] at ht
    refine (CreatedBy.snoc_iff (by simp)).mpr ?_
    split at ht
    · next hsome =>
        rw [← Option.some.inj ht, ← hhome]
        exact hi.home j src hsome
    · exact hi.home j o ht

theorem Inv.kill {tr : List (Event P)} {s : State P} (hi : Inv tr s) (p : P) :
    Inv tr { s with obj := fun o => if o.1 = p then none else s.obj o } :=
  { hi with
    owned := fun o q i ho hr => by
      simp only at ho
      split at ho
      · cases ho
      · exact hi.owned o q i ho hr }

/-- `open` keeps the invariant as long as `create` meets no existing queue. -/
theorem Inv.openQueue {tr : List (Event P)} {s : State P} (hi : Inv tr s) {o : Obj P}
    {q : MsgQueue} {key : ℤ} {create err : Bool}
    (hfree : OpensFreeKeys s (.open o key create err)) :
    Inv (tr ++ (s.openQueue o q key create err).2) (s.openQueue o q key create err).1 := by
  unfold State.openQueue
  have hfail : ∀ q' ∈ some { q with id := none }, q'.removes = none := by
    simp [MsgQueue.removes]
  split
  · simpa using hi.set o hfail
  · next herr =>
      split
      · next i hkey =>
          have hattach : create = false := by
            cases create with
            | false => rfl
            | true =>
                have : s.kernel.queues key = none := by simpa [OpensFreeKeys, herr] using hfree
                rw [hkey] at this
                cases this
          simpa [hattach] using hi.set o (q := some ⟨some i, false⟩) (by simp [MsgQueue.removes])
      · split
        · next hcreate =>
            rw [hcreate]
            exact hi.create o key
        · simpa using hi.set o hfail

/-- The target disposes of what it owns, and is empty when it is moved into. -/
theorem Inv.moveAssign {tr : List (Event P)} {s : State P} (hi : Inv tr s) {src dst : Obj P}
    {q old : MsgQueue} (hsrc : s.obj src = some q) (hdst : s.obj dst = some old)
    (hhome : src.1 = dst.1) (hne : src ≠ dst) :
    Inv (tr ++ ((s.dispose dst old).2 ++ [.moved src dst]))
      (((s.dispose dst old).1.set dst (some q)).set src (some .closed)) := by
  have hobj : (s.dispose dst old).1.obj = s.obj := by
    unfold State.dispose
    split <;> rfl
  have hsrc' : ((s.dispose dst old).1.set dst none).obj src = some q := by
    simp [hobj, hne, hsrc]
  have hmove := (hi.dispose hdst).move hsrc' hhome
  rw [List.append_assoc, State.set_set] at hmove
  exact hmove

theorem Inv.step {tr es : List (Event P)} {s s' : State P} {a : Action P} (hi : Inv tr s)
    (hfree : OpensFreeKeys s a) (h : step s a = some (s', es)) : Inv (tr ++ es) s' := by
  cases a with
  | construct o =>
      simp only [Msgq.step] at h
      split at h
      · obtain ⟨rfl, rfl⟩ := Prod.mk.inj (Option.some.inj h)
        simpa using hi.set o (q := some .closed) (by simp [MsgQueue.removes, MsgQueue.closed])
      · cases h
  | «open» o key create err =>
      simp only [Msgq.step] at h
      split at h
      · cases h
      · obtain ⟨rfl, rfl⟩ := Prod.mk.inj (Option.some.inj h)
        exact hi.openQueue hfree
  | moveConstruct src dst =>
      simp only [Msgq.step, ne_eq, ite_not] at h
      split at h
      · next hhome =>
          split at h
          · next hsrc hdst =>
              obtain ⟨rfl, rfl⟩ := Prod.mk.inj (Option.some.inj h)
              exact hi.move hsrc hhome
          · cases h
      · cases h
  | moveAssign src dst =>
      simp only [Msgq.step, ne_eq, ite_not] at h
      split at h
      · next hhome =>
          split at h
          · next hsrc hdst =>
              split at h
              · obtain ⟨rfl, rfl⟩ := Prod.mk.inj (Option.some.inj h)
                simpa using hi
              · next hne =>
                  obtain ⟨rfl, rfl⟩ := Prod.mk.inj (Option.some.inj h)
                  exact hi.moveAssign hsrc hdst hhome hne
          · cases h
      · cases h
  | destroy o =>
      simp only [Msgq.step] at h
      split at h
      · cases h
      · next ho =>
          obtain ⟨rfl, rfl⟩ := Prod.mk.inj (Option.some.inj h)
          exact hi.dispose ho
  | kill p =>
      obtain ⟨rfl, rfl⟩ := Prod.mk.inj (Option.some.inj h)
      simpa using hi.kill p

/-- As long as every `open` with `create` meets a key without a queue: only the
object with the title removes a queue, only the process that created it does,
and at most once. -/
theorem only_creator_removes {tr : List (Event P)} {s : State P}
    (h : Run (machine P) OpensFreeKeys (State.init P) tr s) :
    TitledRemovals tr ∧ OwnRemovals tr ∧ ∀ i, removals i tr ≤ 1 := by
  have hi : Inv tr s := h.invariant Inv inv_init fun _ _ _ _ _ hi hok hs => hi.step hok hs
  exact ⟨hi.titled, hi.own, hi.once⟩

/-- Gateway comes up, a peer sends to it, and it leaves; then it comes up and
leaves once more. -/
theorem only_creator_removes_restart :
    ∃ tr s, Run (machine Bool) OpensFreeKeys (State.init Bool) tr s ∧
      removals 0 tr = 1 ∧ TitledRemovals tr := by
  have hrun := (machine Bool).run_of_exec OpensFreeKeys (State.init Bool)
    (bringUp false 1000 ++ sendTo true 1000 ++ leaveMain false ++ bringUp true 1000 ++
      leaveMain true) rfl (by decide)
  exact ⟨_, _, hrun, by decide, (only_creator_removes hrun).1⟩

/-- Two gateways: the second attaches to the first one's queue, finds the port
taken, and removes on its way out the queue the first is receiving from. -/
theorem second_gateway_removes_queue :
    ∃ tr s, Run (machine Bool) Always (State.init Bool) tr s ∧
      Event.created (false, 0) 0 ∈ tr ∧ Event.removed (true, 0) 0 ∈ tr ∧
      s.obj (false, 0) = some ⟨some 0, true⟩ ∧ s.kernel.queues (msgqKeyBase + 1000) = none ∧
      ¬TitledRemovals tr ∧ ¬OwnRemovals tr := by
  have hrun := (machine Bool).run_of_exec_always (State.init Bool)
    (bringUp false 1000 ++ bringUp true 1000 ++ leaveMain true) rfl
  refine ⟨_, _, hrun, by decide, by decide, rfl, rfl, fun h => ?_, fun h => ?_⟩
  · have := h 1 _ rfl (true, 0) 0 rfl
    revert this
    decide
  · have := (h 1 _ rfl (true, 0) 0 rfl).2 (false, 0) (by decide)
    revert this
    decide

end Fleetcore.Msgq
