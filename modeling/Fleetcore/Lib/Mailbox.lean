import Fleetcore.Lib.StateMachine
import Mathlib.Algebra.BigOperators.Group.List.Basic
import Mathlib.Data.List.Nodup
import Mathlib.Logic.Function.Basic

/-!
Message-passing processes over bounded first-in-first-out queues.

A program says, for each process, how it comes up, how it reacts to a message
and what it does when its queue is empty. A reaction replaces the local and the
shared state and lists the messages to be sent; the messages wait in the
process's outbox and are put on their queues one at a time. A full queue holds
the sender up: a process with messages in its outbox does nothing else. A queue
that does not exist swallows the message.

The trace records what a reaction takes, observes and posts, and what becomes
of each posted message. The laws of the section on conservation relate the
four: a queue holds what was sent to it and not yet taken
(`sentTo_eq_takenFrom_append`), an outbox what was posted and not yet disposed
of (`postedBy_eq_disposedBy_append`).
-/

namespace Mailbox

open StateMachine

variable {P K M L G I O : Type*}

structure Reaction (K M L G O : Type*) where
  loc : L
  shared : G
  sends : List (K × M)
  obs : List O

/-- Processes `P` with queues at keys `K`, local states `L`, a shared state `G`
and inputs `I` from outside; `none` where a process cannot react. -/
structure Program (P K M L G I O : Type*) where
  key : P → K
  start : P → I → G → Option (Reaction K M L G O)
  recv : P → I → L → G → M → Option (Reaction K M L G O)
  idle : P → I → L → G → Option (Reaction K M L G O)

/-- A running process and the messages it has still to send. -/
structure Proc (K M L : Type*) where
  loc : L
  outbox : List (K × M)

structure State (P K M L G : Type*) where
  queue : K → Option (List M)
  proc : P → Option (Proc K M L)
  shared : G
  /-- The processes that have come up, in order. -/
  started : List P

def State.init (shared : G) : State P K M L G := ⟨fun _ => none, fun _ => none, shared, []⟩

inductive Action (P I : Type*) where
  | start (p : P) (i : I)
  | recv (p : P) (i : I)
  | idle (p : P) (i : I)
  /-- The first message of the outbox is put on its queue. -/
  | flush (p : P)

def Action.proc : Action P I → P
  | .start p _ => p
  | .recv p _ => p
  | .idle p _ => p
  | .flush p => p

inductive Event (P K M O : Type*) where
  | started (p : P)
  | took (p : P) (m : M)
  | saw (p : P) (o : O)
  | posted (p : P) (k : K) (m : M)
  | sent (p : P) (k : K) (m : M)
  /-- Sent to a queue that does not exist. -/
  | lost (p : P) (k : K) (m : M)
  deriving DecidableEq

/-- Whether a queue of `n` messages takes another one; `none` for no bound. -/
def hasRoom (cap : Option ℕ) (n : ℕ) : Bool :=
  match cap with
  | none => true
  | some c => decide (n < c)

def Reaction.events (p : P) (r : Reaction K M L G O) : List (Event P K M O) :=
  r.obs.map (.saw p) ++ r.sends.map fun x => .posted p x.1 x.2

variable [DecidableEq P] [DecidableEq K]

namespace State

variable (s : State P K M L G)

def contents (k : K) : List M := (s.queue k).getD []

def outbox (p : P) : List (K × M) :=
  match s.proc p with
  | none => []
  | some q => q.outbox

def setQueue (k : K) (ms : List M) : State P K M L G :=
  { s with queue := Function.update s.queue k (some ms) }

def setProc (p : P) (q : Proc K M L) : State P K M L G :=
  { s with proc := Function.update s.proc p (some q) }

def react (p : P) (r : Reaction K M L G O) : State P K M L G :=
  { s with shared := r.shared }.setProc p ⟨r.loc, r.sends⟩

/-- A process comes up: its queue exists from now on. -/
def launch (k : K) (p : P) (r : Reaction K M L G O) : State P K M L G :=
  { s with started := s.started ++ [p] }.setQueue k (s.contents k) |>.react p r

end State

def Program.step (g : Program P K M L G I O) (cap : Option ℕ) (s : State P K M L G) :
    Action P I → Option (State P K M L G × List (Event P K M O))
  | .start p i =>
      match s.proc p with
      | some _ => none
      | none =>
          match g.start p i s.shared with
          | none => none
          | some r => some (s.launch (g.key p) p r, .started p :: r.events p)
  | .recv p i =>
      match s.proc p, s.queue (g.key p) with
      | some ⟨loc, []⟩, some (m :: ms) =>
          match g.recv p i loc s.shared m with
          | none => none
          | some r => some ((s.setQueue (g.key p) ms).react p r, .took p m :: r.events p)
      | _, _ => none
  | .idle p i =>
      match s.proc p, s.queue (g.key p) with
      | some ⟨loc, []⟩, some [] =>
          match g.idle p i loc s.shared with
          | none => none
          | some r => some (s.react p r, r.events p)
      | _, _ => none
  | .flush p =>
      match s.proc p with
      | some ⟨loc, (k, m) :: rest⟩ =>
          match s.queue k with
          | none => some (s.setProc p ⟨loc, rest⟩, [.lost p k m])
          | some ms =>
              if hasRoom cap ms.length then
                some ((s.setQueue k (ms ++ [m])).setProc p ⟨loc, rest⟩, [.sent p k m])
              else none
      | _ => none

def Program.machine (g : Program P K M L G I O) (cap : Option ℕ) :
    Machine (State P K M L G) (Action P I) (Event P K M O) := ⟨g.step cap⟩

/-! ### What one step can do -/

inductive Step (g : Program P K M L G I O) (cap : Option ℕ) (s : State P K M L G) :
    Action P I → State P K M L G → List (Event P K M O) → Prop
  | start {p i r} (hp : s.proc p = none) (hr : g.start p i s.shared = some r) :
      Step g cap s (.start p i) (s.launch (g.key p) p r) (.started p :: r.events p)
  | recv {p i loc m ms r} (hp : s.proc p = some ⟨loc, []⟩)
      (hq : s.queue (g.key p) = some (m :: ms)) (hr : g.recv p i loc s.shared m = some r) :
      Step g cap s (.recv p i) ((s.setQueue (g.key p) ms).react p r) (.took p m :: r.events p)
  | idle {p i loc r} (hp : s.proc p = some ⟨loc, []⟩) (hq : s.queue (g.key p) = some [])
      (hr : g.idle p i loc s.shared = some r) :
      Step g cap s (.idle p i) (s.react p r) (r.events p)
  | lost {p loc k m rest} (hp : s.proc p = some ⟨loc, (k, m) :: rest⟩)
      (hq : s.queue k = none) :
      Step g cap s (.flush p) (s.setProc p ⟨loc, rest⟩) [.lost p k m]
  | sent {p loc k m rest ms} (hp : s.proc p = some ⟨loc, (k, m) :: rest⟩)
      (hq : s.queue k = some ms) (hroom : hasRoom cap ms.length = true) :
      Step g cap s (.flush p) ((s.setQueue k (ms ++ [m])).setProc p ⟨loc, rest⟩) [.sent p k m]

theorem step_cases {g : Program P K M L G I O} {cap : Option ℕ} {s s' : State P K M L G}
    {a : Action P I} {es : List (Event P K M O)} (h : g.step cap s a = some (s', es)) :
    Step g cap s a s' es := by
  cases a with
  | start p i =>
      simp only [Program.step] at h
      split at h
      · cases h
      · next hp =>
          split at h
          · cases h
          · next r hr =>
              obtain ⟨rfl, rfl⟩ := Prod.mk.inj (Option.some.inj h)
              exact .start hp hr
  | recv p i =>
      simp only [Program.step] at h
      split at h
      · next loc m ms hp hq =>
          split at h
          · cases h
          · next r hr =>
              obtain ⟨rfl, rfl⟩ := Prod.mk.inj (Option.some.inj h)
              exact .recv hp hq hr
      · cases h
  | idle p i =>
      simp only [Program.step] at h
      split at h
      · next loc hp hq =>
          split at h
          · cases h
          · next r hr =>
              obtain ⟨rfl, rfl⟩ := Prod.mk.inj (Option.some.inj h)
              exact .idle hp hq hr
      · cases h
  | flush p =>
      simp only [Program.step] at h
      split at h
      · next loc k m rest hp =>
          split at h
          · next hq =>
              obtain ⟨rfl, rfl⟩ := Prod.mk.inj (Option.some.inj h)
              exact .lost hp hq
          · next ms hq =>
              split at h
              · next hroom =>
                  obtain ⟨rfl, rfl⟩ := Prod.mk.inj (Option.some.inj h)
                  exact .sent hp hq hroom
              · cases h
      · cases h

theorem Step.step_eq {g : Program P K M L G I O} {cap : Option ℕ} {s s' : State P K M L G}
    {a : Action P I} {es : List (Event P K M O)} (h : Step g cap s a s' es) :
    g.step cap s a = some (s', es) := by
  cases h with
  | start hp hr => simp only [Program.step, hp, hr]
  | recv hp hq hr => simp only [Program.step, hp, hq, hr]
  | idle hp hq hr => simp only [Program.step, hp, hq, hr]
  | lost hp hq => simp only [Program.step, hp, hq]
  | sent hp hq hroom => simp only [Program.step, hp, hq, hroom, if_true]

/-! ### Reading an updated state -/

namespace State

variable (s : State P K M L G)

omit [DecidableEq P] in
@[simp] theorem contents_setQueue (k k' : K) (ms : List M) :
    (s.setQueue k ms).contents k' = if k' = k then ms else s.contents k' := by
  unfold contents setQueue
  by_cases h : k' = k <;> simp [h]

omit [DecidableEq K] in
@[simp] theorem contents_setProc (p : P) (q : Proc K M L) (k : K) :
    (s.setProc p q).contents k = s.contents k := rfl

omit [DecidableEq K] in
@[simp] theorem contents_react (p : P) (r : Reaction K M L G O) (k : K) :
    (s.react p r).contents k = s.contents k := rfl

@[simp] theorem contents_launch (k k' : K) (p : P) (r : Reaction K M L G O) :
    (s.launch k p r).contents k' = s.contents k' := by
  have hset : (s.launch k p r).contents k' =
      (State.setQueue { s with started := s.started ++ [p] } k (s.contents k)).contents k' := rfl
  rw [hset, contents_setQueue]
  split
  · next h => rw [h]
  · rfl

omit [DecidableEq P] in
@[simp] theorem outbox_setQueue (k : K) (ms : List M) (p : P) :
    (s.setQueue k ms).outbox p = s.outbox p := rfl

omit [DecidableEq K] in
@[simp] theorem outbox_setProc (p p' : P) (q : Proc K M L) :
    (s.setProc p q).outbox p' = if p' = p then q.outbox else s.outbox p' := by
  unfold outbox setProc
  by_cases h : p' = p <;> simp [h]

omit [DecidableEq K] in
@[simp] theorem outbox_react (p p' : P) (r : Reaction K M L G O) :
    (s.react p r).outbox p' = if p' = p then r.sends else s.outbox p' :=
  outbox_setProc _ p p' _

@[simp] theorem outbox_launch (k : K) (p p' : P) (r : Reaction K M L G O) :
    (s.launch k p r).outbox p' = if p' = p then r.sends else s.outbox p' :=
  outbox_setProc _ p p' _

omit [DecidableEq P] in
@[simp] theorem proc_setQueue (k : K) (ms : List M) : (s.setQueue k ms).proc = s.proc := rfl

omit [DecidableEq K] in
@[simp] theorem proc_setProc (p p' : P) (q : Proc K M L) :
    (s.setProc p q).proc p' = if p' = p then some q else s.proc p' := by
  simp [setProc, Function.update_apply]

omit [DecidableEq K] in
@[simp] theorem proc_react (p p' : P) (r : Reaction K M L G O) :
    (s.react p r).proc p' = if p' = p then some ⟨r.loc, r.sends⟩ else s.proc p' :=
  proc_setProc _ p p' _

@[simp] theorem proc_launch (k : K) (p p' : P) (r : Reaction K M L G O) :
    (s.launch k p r).proc p' = if p' = p then some ⟨r.loc, r.sends⟩ else s.proc p' :=
  proc_setProc _ p p' _

omit [DecidableEq P] in
@[simp] theorem queue_setQueue (k k' : K) (ms : List M) :
    (s.setQueue k ms).queue k' = if k' = k then some ms else s.queue k' := by
  simp [setQueue, Function.update_apply]

omit [DecidableEq K] in
@[simp] theorem queue_setProc (p : P) (q : Proc K M L) : (s.setProc p q).queue = s.queue := rfl

omit [DecidableEq K] in
@[simp] theorem queue_react (p : P) (r : Reaction K M L G O) :
    (s.react p r).queue = s.queue := rfl

@[simp] theorem queue_launch (k k' : K) (p : P) (r : Reaction K M L G O) :
    (s.launch k p r).queue k' = if k' = k then some (s.contents k) else s.queue k' := by
  simp [launch, react, setProc, setQueue, Function.update_apply]

omit [DecidableEq P] in
@[simp] theorem started_setQueue (k : K) (ms : List M) :
    (s.setQueue k ms).started = s.started := rfl

omit [DecidableEq K] in
@[simp] theorem started_setProc (p : P) (q : Proc K M L) :
    (s.setProc p q).started = s.started := rfl

omit [DecidableEq K] in
@[simp] theorem started_react (p : P) (r : Reaction K M L G O) :
    (s.react p r).started = s.started := rfl

@[simp] theorem started_launch (k : K) (p : P) (r : Reaction K M L G O) :
    (s.launch k p r).started = s.started ++ [p] := rfl

omit [DecidableEq P] in
@[simp] theorem shared_setQueue (k : K) (ms : List M) :
    (s.setQueue k ms).shared = s.shared := rfl

omit [DecidableEq K] in
@[simp] theorem shared_setProc (p : P) (q : Proc K M L) :
    (s.setProc p q).shared = s.shared := rfl

omit [DecidableEq K] in
@[simp] theorem shared_react (p : P) (r : Reaction K M L G O) :
    (s.react p r).shared = r.shared := rfl

@[simp] theorem shared_launch (k : K) (p : P) (r : Reaction K M L G O) :
    (s.launch k p r).shared = r.shared := rfl

omit [DecidableEq P] [DecidableEq K] in
theorem contents_of_queue {s : State P K M L G} {k : K} {ms : List M}
    (h : s.queue k = some ms) : s.contents k = ms := by
  simp [contents, h]

omit [DecidableEq P] [DecidableEq K] in
theorem outbox_of_proc {s : State P K M L G} {p : P} {q : Proc K M L}
    (h : s.proc p = some q) : s.outbox p = q.outbox := by
  simp [outbox, h]

omit [DecidableEq P] [DecidableEq K] in
theorem outbox_of_not_running {s : State P K M L G} {p : P} (h : s.proc p = none) :
    s.outbox p = [] := by
  simp [outbox, h]

end State

/-! ### Conservation -/

namespace Event

def sentTo? (k : K) : Event P K M O → Option M
  | .sent _ k' m => if k' = k then some m else none
  | _ => none

def takenFrom? (key : P → K) (k : K) : Event P K M O → Option M
  | .took p m => if key p = k then some m else none
  | _ => none

def postedBy? (p : P) : Event P K M O → Option (K × M)
  | .posted p' k m => if p' = p then some (k, m) else none
  | _ => none

def disposedBy? (p : P) : Event P K M O → Option (K × M)
  | .sent p' k m => if p' = p then some (k, m) else none
  | .lost p' k m => if p' = p then some (k, m) else none
  | _ => none

def sentBy? (p : P) : Event P K M O → Option (K × M)
  | .sent p' k m => if p' = p then some (k, m) else none
  | _ => none

def tookBy? (p : P) : Event P K M O → Option M
  | .took p' m => if p' = p then some m else none
  | _ => none

def sawBy? (p : P) : Event P K M O → Option O
  | .saw p' o => if p' = p then some o else none
  | _ => none

end Event

abbrev sentTo (k : K) (tr : List (Event P K M O)) : List M := tr.filterMap (Event.sentTo? k)

abbrev takenFrom (key : P → K) (k : K) (tr : List (Event P K M O)) : List M :=
  tr.filterMap (Event.takenFrom? key k)

abbrev postedBy (p : P) (tr : List (Event P K M O)) : List (K × M) :=
  tr.filterMap (Event.postedBy? p)

abbrev disposedBy (p : P) (tr : List (Event P K M O)) : List (K × M) :=
  tr.filterMap (Event.disposedBy? p)

abbrev sentBy (p : P) (tr : List (Event P K M O)) : List (K × M) := tr.filterMap (Event.sentBy? p)

abbrev tookBy (p : P) (tr : List (Event P K M O)) : List M := tr.filterMap (Event.tookBy? p)

abbrev sawBy (p : P) (tr : List (Event P K M O)) : List O := tr.filterMap (Event.sawBy? p)

omit [DecidableEq K] in
theorem tookBy_append (p : P) (tr tr' : List (Event P K M O)) :
    tookBy p (tr ++ tr') = tookBy p tr ++ tookBy p tr' := List.filterMap_append

omit [DecidableEq K] in
theorem sawBy_append (p : P) (tr tr' : List (Event P K M O)) :
    sawBy p (tr ++ tr') = sawBy p tr ++ sawBy p tr' := List.filterMap_append

omit [DecidableEq K] in
theorem postedBy_append (p : P) (tr tr' : List (Event P K M O)) :
    postedBy p (tr ++ tr') = postedBy p tr ++ postedBy p tr' := List.filterMap_append

section Reactions

variable (r : Reaction K M L G O) (p p' : P)

omit [DecidableEq P] in
@[simp] theorem sentTo_events (k : K) : sentTo k (r.events p) = [] := by
  simp [sentTo, Reaction.events, Event.sentTo?]

omit [DecidableEq P] in
@[simp] theorem takenFrom_events (key : P → K) (k : K) : takenFrom key k (r.events p) = [] := by
  simp [takenFrom, Reaction.events, Event.takenFrom?]

omit [DecidableEq K] in
@[simp] theorem disposedBy_events : disposedBy p' (r.events p) = [] := by
  simp [disposedBy, Reaction.events, Event.disposedBy?]

omit [DecidableEq K] in
@[simp] theorem postedBy_events :
    postedBy p' (r.events p) = if p = p' then r.sends else [] := by
  by_cases h : p = p' <;>
    simp [postedBy, Reaction.events, Event.postedBy?, h, List.filterMap_map, Function.comp_def]

omit [DecidableEq K] in
@[simp] theorem sawBy_events : sawBy p' (r.events p) = if p = p' then r.obs else [] := by
  by_cases h : p = p' <;>
    simp [sawBy, Reaction.events, Event.sawBy?, h, List.filterMap_map, Function.comp_def]

omit [DecidableEq K] in
@[simp] theorem tookBy_events : tookBy p' (r.events p) = [] := by
  simp [tookBy, Reaction.events, Event.tookBy?]

end Reactions

section Runs

variable {g : Program P K M L G I O} {cap : Option ℕ} {shared : G}
  {ok : State P K M L G → Action P I → Prop} {s : State P K M L G} {tr : List (Event P K M O)}

/-- What a step adds to a queue is put behind what is there, and what it takes
comes from the front. -/
theorem contents_step {s' : State P K M L G} {a : Action P I} {es : List (Event P K M O)}
    (hs : g.step cap s a = some (s', es)) (k : K) :
    s.contents k ++ sentTo k es = takenFrom g.key k es ++ s'.contents k := by
  cases step_cases hs with
  | start hp hr =>
      simp only [List.filterMap_cons, sentTo_events, takenFrom_events]
      simp [Event.sentTo?, Event.takenFrom?]
  | @recv p i loc m ms r hp hq hr =>
      simp only [List.filterMap_cons, sentTo_events, takenFrom_events]
      by_cases hk : g.key p = k
      · subst hk
        simp [Event.sentTo?, Event.takenFrom?, State.contents_of_queue hq]
      · simp [Event.sentTo?, Event.takenFrom?, hk, Ne.symm hk]
  | idle hp hq hr => simp
  | lost hp hq => simp [Event.sentTo?, Event.takenFrom?, List.filterMap_cons]
  | @sent p loc k' m rest ms hp hq hroom =>
      by_cases hk : k' = k
      · subst hk
        simp [Event.sentTo?, Event.takenFrom?, State.contents_of_queue hq,
          List.filterMap_cons]
      · simp [Event.sentTo?, Event.takenFrom?, hk, Ne.symm hk, List.filterMap_cons]

/-- The same of what a process posts, and what becomes of it. -/
theorem outbox_step {s' : State P K M L G} {a : Action P I} {es : List (Event P K M O)}
    (hs : g.step cap s a = some (s', es)) (p : P) :
    s.outbox p ++ postedBy p es = disposedBy p es ++ s'.outbox p := by
  cases step_cases hs with
  | @start p' i r hp hr =>
      simp only [List.filterMap_cons, postedBy_events, disposedBy_events]
      by_cases hpp : p' = p
      · subst hpp
        simp [Event.postedBy?, Event.disposedBy?, State.outbox_of_not_running hp]
      · simp [Event.postedBy?, Event.disposedBy?, hpp, Ne.symm hpp]
  | @recv p' i loc m ms r hp hq hr =>
      simp only [List.filterMap_cons, postedBy_events, disposedBy_events]
      by_cases hpp : p' = p
      · subst hpp
        simp [Event.postedBy?, Event.disposedBy?, State.outbox_of_proc hp]
      · simp [Event.postedBy?, Event.disposedBy?, hpp, Ne.symm hpp]
  | @idle p' i loc r hp hq hr =>
      by_cases hpp : p' = p
      · subst hpp
        simp [State.outbox_of_proc hp]
      · simp [hpp, Ne.symm hpp]
  | @lost p' loc k m rest hp hq =>
      by_cases hpp : p' = p
      · subst hpp
        simp [Event.postedBy?, Event.disposedBy?, State.outbox_of_proc hp,
          List.filterMap_cons]
      · simp [Event.postedBy?, Event.disposedBy?, hpp, Ne.symm hpp, List.filterMap_cons]
  | @sent p' loc k m rest ms hp hq hroom =>
      by_cases hpp : p' = p
      · subst hpp
        simp [Event.postedBy?, Event.disposedBy?, State.outbox_of_proc hp,
          List.filterMap_cons]
      · simp [Event.postedBy?, Event.disposedBy?, hpp, Ne.symm hpp, List.filterMap_cons]

/-- First in, first out: what was sent to a queue is what was taken from it,
followed by what it holds. -/
theorem sentTo_eq_takenFrom_append (h : Run (g.machine cap) ok (State.init shared) tr s) (k : K) :
    sentTo k tr = takenFrom g.key k tr ++ s.contents k := by
  induction h with
  | start => rfl
  | snoc hrun hok hs ih =>
      simp only [List.filterMap_append, ih]
      rw [List.append_assoc, List.append_assoc, contents_step hs]

/-- What a process posted is what has been disposed of, followed by its outbox. -/
theorem postedBy_eq_disposedBy_append (h : Run (g.machine cap) ok (State.init shared) tr s)
    (p : P) : postedBy p tr = disposedBy p tr ++ s.outbox p := by
  induction h with
  | start => rfl
  | snoc hrun hok hs ih =>
      simp only [List.filterMap_append, ih]
      rw [List.append_assoc, List.append_assoc, outbox_step hs]

theorem filterMap_sublist {α β : Type*} {f f' : α → Option β} {l : List α}
    (h : ∀ a ∈ l, ∀ b, f a = some b → f' a = some b) :
    (l.filterMap f).Sublist (l.filterMap f') := by
  induction l with
  | nil => simp
  | cons a l ih =>
      have ih := ih fun a' ha' => h a' (List.mem_cons_of_mem _ ha')
      cases hf : f a with
      | none =>
          rw [List.filterMap_cons_none hf]
          exact ih.trans ((List.sublist_cons_self a l).filterMap f')
      | some b =>
          rw [List.filterMap_cons_some hf,
            List.filterMap_cons_some (h a List.mem_cons_self b hf)]
          exact ih.cons_cons b

omit [DecidableEq K] in
theorem sentBy_sublist_disposedBy (p : P) (tr : List (Event P K M O)) :
    (sentBy p tr).Sublist (disposedBy p tr) :=
  filterMap_sublist fun e _ x h => by cases e <;> simp_all [Event.sentBy?, Event.disposedBy?]

theorem sentBy_sublist_postedBy (h : Run (g.machine cap) ok (State.init shared) tr s) (p : P) :
    (sentBy p tr).Sublist (postedBy p tr) := by
  rw [postedBy_eq_disposedBy_append h p]
  exact (sentBy_sublist_disposedBy p tr).trans (List.sublist_append_left _ _)

omit [DecidableEq K] in
theorem mem_sentBy {p : P} {x : K × M} : x ∈ sentBy p tr ↔ Event.sent p x.1 x.2 ∈ tr := by
  constructor
  · intro h
    obtain ⟨e, he, hx⟩ := List.mem_filterMap.mp h
    cases e <;> simp_all [Event.sentBy?]
    obtain ⟨rfl, rfl⟩ := hx
    exact he
  · exact fun h => List.mem_filterMap.mpr ⟨_, h, by simp [Event.sentBy?]⟩

end Runs

end Mailbox
