import Fleetcore.Lib.Sessions
import Mathlib.Data.List.Infix
import Mathlib.Logic.Function.Basic

/-!
Connections that carry a stream each way.

A client makes connections to a server one after the other, and the server
accepts them in the order they were made. It need not accept all: a connection
that is pending may be dropped, for instance because the process that listens
for it ends. Both ends write to and read from the last connection they know of,
the client the last one it has made and the server the last one it has accepted.
What is read on a connection is a beginning of what the other end wrote on it:
nothing is lost, doubled or overtaken on the way, and nothing is promised about
the end of a stream.

The moves of both ends are one sequence, in the order they happen. Cut into the
sessions of either end, the two halves fit together connection by connection
(`serverGot_isPrefix`, `clientGot_matched`).
-/

namespace Links

open Sessions StateMachine

variable {α : Type*}

inductive Move (α : Type*) where
  | connect
  /-- The server takes the next one. -/
  | accept
  | clientWrite (d : List α)
  | serverRead (d : List α)
  | serverWrite (d : List α)
  | clientRead (d : List α)

/-- Connections are numbered from 1 on, in the order they are made. -/
structure Port (α : Type*) where
  made : ℕ
  accepted : ℕ
  /-- The connection that is the `k`-th to be accepted. -/
  conn : ℕ → ℕ
  /-- What the client has written, and the server read of it. -/
  up : ℕ → List α
  upRead : ℕ → List α
  /-- What the server has written, and the client read of it. -/
  down : ℕ → List α
  downRead : ℕ → List α

def extend (f : ℕ → List α) (k : ℕ) (d : List α) : ℕ → List α := Function.update f k (f k ++ d)

theorem extend_apply (f : ℕ → List α) (k : ℕ) (d : List α) (j : ℕ) :
    extend f k d j = f j ++ if k = j then d else [] := by
  by_cases h : j = k
  · subst h
    simp [extend]
  · simp [extend, h, Ne.symm h]

@[simp] theorem extend_nil (f : ℕ → List α) (k : ℕ) : extend f k [] = f := by
  rw [extend, List.append_nil, Function.update_eq_self]

theorem extend_prefix {f g : ℕ → List α} (h : ∀ k, f k <+: g k) (n : ℕ) (d : List α) (k : ℕ) :
    f k <+: extend g n d k := by
  rw [extend_apply]
  exact (h k).trans (List.prefix_append _ _)

theorem prefix_extend {f g : ℕ → List α} (h : ∀ k, f k <+: g k) {n : ℕ} {d : List α}
    (hn : f n ++ d <+: g n) (k : ℕ) : extend f n d k <+: g k := by
  by_cases hk : k = n
  · subst hk
    simpa [extend] using hn
  · simpa [extend, hk] using h k

namespace Port

def fresh : Port α := ⟨0, 0, id, fun _ => [], fun _ => [], fun _ => [], fun _ => []⟩

/-- The next connection is lost before it is accepted. -/
def drop (p : Port α) : Option (Port α) :=
  if p.conn (p.accepted + 1) ≤ p.made then
    some { p with conn := fun k => if k ≤ p.accepted then p.conn k else p.conn k + 1 }
  else none

variable [DecidableEq α]

def move (p : Port α) : Move α → Option (Port α)
  | .connect => some { p with made := p.made + 1 }
  | .accept =>
      if p.conn (p.accepted + 1) ≤ p.made then some { p with accepted := p.accepted + 1 } else none
  | .clientWrite d => if 0 < p.made then some { p with up := extend p.up p.made d } else none
  | .serverRead d =>
      let j := p.conn p.accepted
      if 0 < p.accepted ∧ p.upRead j ++ d <+: p.up j then
        some { p with upRead := extend p.upRead j d }
      else none
  | .serverWrite d =>
      if 0 < p.accepted then some { p with down := extend p.down (p.conn p.accepted) d } else none
  | .clientRead d =>
      if 0 < p.made ∧ p.downRead p.made ++ d <+: p.down p.made then
        some { p with downRead := extend p.downRead p.made d }
      else none

def moves (p : Port α) (ms : List (Move α)) : Option (Port α) := ms.foldlM move p

end Port

/-! ### The two ends -/

def connects : Move α → Bool
  | .connect => true
  | _ => false

def accepts : Move α → Bool
  | .accept => true
  | _ => false

def clientWrote : Move α → List α
  | .clientWrite d => d
  | _ => []

def serverRead : Move α → List α
  | .serverRead d => d
  | _ => []

def serverWrote : Move α → List α
  | .serverWrite d => d
  | _ => []

def clientRead : Move α → List α
  | .clientRead d => d
  | _ => []

def clientSent (ms : List (Move α)) : List α := ms.flatMap clientWrote

def serverGot (ms : List (Move α)) : List α := ms.flatMap serverRead

def serverSent (ms : List (Move α)) : List α := ms.flatMap serverWrote

def clientGot (ms : List (Move α)) : List α := ms.flatMap clientRead

theorem clientWrote_connect : ∀ m : Move α, connects m = true → clientWrote m = []
  | .connect, _ => rfl

theorem serverRead_accept : ∀ m : Move α, accepts m = true → serverRead m = []
  | .accept, _ => rfl

theorem serverWrote_accept : ∀ m : Move α, accepts m = true → serverWrote m = []
  | .accept, _ => rfl

theorem clientRead_connect : ∀ m : Move α, connects m = true → clientRead m = []
  | .connect, _ => rfl

/-- What a port has kept of the moves made on it. -/
structure Books (ms : List (Move α)) (p : Port α) : Prop where
  made : ms.countP connects = p.made
  accepted : ms.countP accepts = p.accepted
  conn_mono : StrictMono p.conn
  up : ∀ j, clientSent (session connects j ms) = p.up j
  upRead : ∀ k, serverGot (session accepts k ms) = p.upRead (p.conn k)
  down : ∀ k, serverSent (session accepts k ms) = p.down (p.conn k)
  downRead : ∀ j, clientGot (session connects j ms) = p.downRead j
  up_prefix : ∀ j, p.upRead j <+: p.up j
  down_prefix : ∀ j, p.downRead j <+: p.down j
  /-- Nothing happens at the server's end of a connection it has not accepted. -/
  silent : ∀ j, (∀ k ≤ p.accepted, p.conn k ≠ j) → p.upRead j = [] ∧ p.down j = []

theorem Books.fresh : Books [] (Port.fresh : Port α) where
  made := rfl
  accepted := rfl
  conn_mono := strictMono_id
  up := fun k => by cases k <;> rfl
  upRead := fun k => by cases k <;> rfl
  down := fun k => by cases k <;> rfl
  downRead := fun k => by cases k <;> rfl
  up_prefix := fun _ => List.prefix_refl _
  down_prefix := fun _ => List.prefix_refl _
  silent := fun _ _ => ⟨rfl, rfl⟩

/-- On every connection the server has read a beginning of what the client wrote. -/
theorem Books.serverGot_isPrefix {ms : List (Move α)} {p : Port α} (h : Books ms p) (k : ℕ) :
    serverGot (session accepts k ms) <+: clientSent (session connects (p.conn k) ms) := by
  rw [h.upRead, h.up]
  exact h.up_prefix _

/-- And the client one of what the server wrote, if it has accepted the connection. -/
theorem Books.clientGot_matched {ms : List (Move α)} {p : Port α} (h : Books ms p) (j : ℕ) :
    clientGot (session connects j ms) = [] ∨ ∃ k, p.conn k = j ∧
      clientGot (session connects j ms) <+: serverSent (session accepts k ms) := by
  have hread := h.down_prefix j
  rw [← h.downRead] at hread
  by_cases hj : ∃ k ≤ p.accepted, p.conn k = j
  · obtain ⟨k, -, rfl⟩ := hj
    exact .inr ⟨k, rfl, by rwa [h.down]⟩
  · have hnot : ∀ k ≤ p.accepted, p.conn k ≠ j := fun k hk heq => hj ⟨k, hk, heq⟩
    rw [(h.silent j hnot).2] at hread
    exact .inl (List.prefix_nil.mp hread)

/-- The connections that are still to come move up by one. -/
theorem Books.drop {ms : List (Move α)} {p p' : Port α} (h : Books ms p)
    (hp : p.drop = some p') : Books ms p' := by
  simp only [Port.drop, Option.ite_none_right_eq_some, Option.some.injEq] at hp
  obtain ⟨-, rfl⟩ := hp
  -- a number that is still to come is the number of no session
  have hnew : ∀ k, p.accepted < k →
      p.upRead (p.conn k + 1) = [] ∧ p.down (p.conn k + 1) = [] := fun k hk =>
    h.silent _ fun i hi heq => by
      have hlt := h.conn_mono (hi.trans_lt hk)
      omega
  refine ⟨h.made, h.accepted, strictMono_nat_of_lt_succ fun k => ?_, h.up, fun k => ?_, fun k => ?_,
    h.downRead, h.up_prefix, h.down_prefix, fun j hj => h.silent j fun k hk => ?_⟩
  · have hlt : p.conn k < p.conn (k + 1) := h.conn_mono (Nat.lt_succ_self k)
    dsimp only
    split_ifs <;> omega
  · dsimp only
    split
    · exact h.upRead k
    · next hk =>
        have hnil : session accepts k ms = [] := session_eq_nil (by rw [h.accepted]; omega)
        rw [hnil, (hnew k (by omega)).1]
        rfl
  · dsimp only
    split
    · exact h.down k
    · next hk =>
        have hnil : session accepts k ms = [] := session_eq_nil (by rw [h.accepted]; omega)
        rw [hnil, (hnew k (by omega)).2]
        rfl
  · have hne := hj k hk
    dsimp only at hne
    rwa [if_pos hk] at hne

section Law

variable [DecidableEq α] {ms : List (Move α)} {p p' : Port α} {m : Move α}

structure Moved (p : Port α) (m : Move α) (p' : Port α) : Prop where
  made : p'.made = p.made + if connects m then 1 else 0
  accepted : p'.accepted = p.accepted + if accepts m then 1 else 0
  conn : p'.conn = p.conn
  up : p'.up = extend p.up p'.made (clientWrote m)
  upRead : p'.upRead = extend p.upRead (p.conn p'.accepted) (serverRead m)
  down : p'.down = extend p.down (p.conn p'.accepted) (serverWrote m)
  downRead : p'.downRead = extend p.downRead p'.made (clientRead m)
  up_prefix : (∀ k, p.upRead k <+: p.up k) → ∀ k, p'.upRead k <+: p'.up k
  down_prefix : (∀ k, p.downRead k <+: p.down k) → ∀ k, p'.downRead k <+: p'.down k

theorem moved_of_move (hm : p.move m = some p') : Moved p m p' := by
  cases m with
  | connect =>
      obtain rfl := Option.some.inj hm
      exact ⟨rfl, rfl, rfl, (extend_nil _ _).symm, (extend_nil _ _).symm, (extend_nil _ _).symm,
        (extend_nil _ _).symm, id, id⟩
  | accept =>
      simp only [Port.move, Option.ite_none_right_eq_some, Option.some.injEq] at hm
      obtain ⟨-, rfl⟩ := hm
      exact ⟨rfl, rfl, rfl, (extend_nil _ _).symm, (extend_nil _ _).symm, (extend_nil _ _).symm,
        (extend_nil _ _).symm, id, id⟩
  | clientWrite d =>
      simp only [Port.move, Option.ite_none_right_eq_some, Option.some.injEq] at hm
      obtain ⟨-, rfl⟩ := hm
      exact ⟨rfl, rfl, rfl, rfl, (extend_nil _ _).symm, (extend_nil _ _).symm,
        (extend_nil _ _).symm, fun h => extend_prefix h _ _, id⟩
  | serverRead d =>
      simp only [Port.move, Option.ite_none_right_eq_some, Option.some.injEq] at hm
      obtain ⟨⟨-, hread⟩, rfl⟩ := hm
      exact ⟨rfl, rfl, rfl, (extend_nil _ _).symm, rfl, (extend_nil _ _).symm,
        (extend_nil _ _).symm, fun h => prefix_extend h hread, id⟩
  | serverWrite d =>
      simp only [Port.move, Option.ite_none_right_eq_some, Option.some.injEq] at hm
      obtain ⟨-, rfl⟩ := hm
      exact ⟨rfl, rfl, rfl, (extend_nil _ _).symm, (extend_nil _ _).symm, rfl,
        (extend_nil _ _).symm, id, fun h => extend_prefix h _ _⟩
  | clientRead d =>
      simp only [Port.move, Option.ite_none_right_eq_some, Option.some.injEq] at hm
      obtain ⟨⟨-, hread⟩, rfl⟩ := hm
      exact ⟨rfl, rfl, rfl, (extend_nil _ _).symm, (extend_nil _ _).symm, (extend_nil _ _).symm,
        rfl, id, fun h => prefix_extend h hread⟩

theorem Books.step (h : Books ms p) (hm : p.move m = some p') : Books (ms ++ [m]) p' := by
  have hmoved := moved_of_move hm
  have hmade : (ms ++ [m]).countP connects = p'.made := by
    rw [List.countP_append, h.made, hmoved.made, List.countP_singleton]
  have haccepted : (ms ++ [m]).countP accepts = p'.accepted := by
    rw [List.countP_append, h.accepted, hmoved.accepted, List.countP_singleton]
  -- a connection has one session at the server
  have hsame : ∀ k (d : List α), (if p.conn p'.accepted = p.conn k then d else []) =
      if p'.accepted = k then d else [] := fun k d => by
    rw [if_congr h.conn_mono.injective.eq_iff rfl rfl]
  refine ⟨hmade, haccepted, hmoved.conn ▸ h.conn_mono, fun k => ?_, fun k => ?_, fun k => ?_,
    fun k => ?_, hmoved.up_prefix h.up_prefix, hmoved.down_prefix h.down_prefix, fun j hj => ?_⟩
  · rw [clientSent, flatMap_session_concat clientWrote_connect, ← clientSent, h.up, hmade,
      hmoved.up, extend_apply]
  · rw [serverGot, flatMap_session_concat serverRead_accept, ← serverGot, h.upRead, haccepted,
      hmoved.upRead, hmoved.conn, extend_apply, hsame]
  · rw [serverSent, flatMap_session_concat serverWrote_accept, ← serverSent, h.down, haccepted,
      hmoved.down, hmoved.conn, extend_apply, hsame]
  · rw [clientGot, flatMap_session_concat clientRead_connect, ← clientGot, h.downRead, hmade,
      hmoved.downRead, extend_apply]
  · rw [hmoved.conn] at hj
    have hle : p.accepted ≤ p'.accepted := by rw [hmoved.accepted]; exact Nat.le_add_right _ _
    obtain ⟨hup, hdown⟩ := h.silent j fun k hk => hj k (hk.trans hle)
    have hne := hj p'.accepted le_rfl
    rw [hmoved.upRead, hmoved.down, extend_apply, extend_apply, if_neg hne, if_neg hne, hup, hdown]
    exact ⟨rfl, rfl⟩

theorem Books.moves (h : Books ms p) {ms' : List (Move α)} (hm : p.moves ms' = some p') :
    Books (ms ++ ms') p' := by
  induction ms' generalizing ms p with
  | nil =>
      obtain rfl : p = p' := by simpa [Port.moves] using hm
      rwa [List.append_nil]
  | cons m ms' ih =>
      simp only [Port.moves, List.foldlM_cons, Option.bind_eq_bind, Option.bind_eq_some_iff] at hm
      obtain ⟨p₁, hfirst, hrest⟩ := hm
      rw [List.append_cons]
      exact ih (h.step hfirst) hrest

end Law

/-! ### Machines over ports -/

/-- A machine whose events are moves on ports `P`; an action concerns one port. -/
structure Net (P S A E α : Type*) where
  machine : Machine S A E
  port : A → P
  move : P → E → Option (Move α)

namespace Net

variable {P S A E : Type*} (n : Net P S A E α)

/-- The events of an action are moves on its own port only. -/
def Local : Prop :=
  ∀ s a s' es, n.machine.step s a = some (s', es) →
    ∀ p, p ≠ n.port a → es.filterMap (n.move p) = []

/-- An action, or the loss of a connection that is pending. -/
inductive Act (P A : Type*) where
  | of (a : A)
  | drop (p : P)

variable [DecidableEq P] [DecidableEq α]

def step (s : S × (P → Port α)) : Act P A → Option ((S × (P → Port α)) × List E)
  | .of a =>
      match n.machine.step s.1 a with
      | none => none
      | some (s', es) =>
          match (s.2 (n.port a)).moves (es.filterMap (n.move (n.port a))) with
          | none => none
          | some q => some ((s', Function.update s.2 (n.port a) q), es)
  | .drop p =>
      match (s.2 p).drop with
      | none => none
      | some q => some ((s.1, Function.update s.2 p q), [])

def wired : Machine (S × (P → Port α)) (Act P A) E := ⟨n.step⟩

def initPorts : P → Port α := fun _ => .fresh

inductive Stepped (s : S × (P → Port α)) : Act P A → S × (P → Port α) → List E → Prop
  | of {a s' es q} (hm : n.machine.step s.1 a = some (s', es))
      (hq : (s.2 (n.port a)).moves (es.filterMap (n.move (n.port a))) = some q) :
      Stepped s (.of a) (s', Function.update s.2 (n.port a) q) es
  | drop {p q} (hq : (s.2 p).drop = some q) :
      Stepped s (.drop p) (s.1, Function.update s.2 p q) []

variable {n} {ok : S × (P → Port α) → Act P A → Prop} {s₀ : S} {s s' : S × (P → Port α)}
  {a : Act P A} {tr es : List E}

theorem step_cases (h : n.step s a = some (s', es)) : n.Stepped s a s' es := by
  cases a with
  | of a =>
      simp only [step] at h
      split at h
      · cases h
      · next t os hm =>
          split at h
          · cases h
          · next q hq =>
              obtain ⟨rfl, rfl⟩ := Prod.mk.inj (Option.some.inj h)
              exact .of hm hq
  | drop p =>
      simp only [step] at h
      split at h
      · cases h
      · next q hq =>
          obtain ⟨rfl, rfl⟩ := Prod.mk.inj (Option.some.inj h)
          exact .drop hq

theorem machine_run (h : Run n.wired ok (s₀, initPorts) tr s) {ok' : S → A → Prop}
    (hok : ∀ s a, ok s (.of a) → ok' s.1 a) : Run n.machine ok' s₀ tr s.1 := by
  induction h with
  | start => exact .start
  | snoc _ hs hstep ih =>
      cases step_cases hstep with
      | of hm hq => exact ih.snoc (hok _ _ hs) hm
      | drop hq =>
          rw [List.append_nil]
          exact ih

theorem machine_run_always (h : Run n.wired ok (s₀, initPorts) tr s) :
    Run n.machine Always s₀ tr s.1 := machine_run h fun _ _ _ => trivial

theorem books (hlocal : n.Local) (h : Run n.wired ok (s₀, initPorts) tr s) (p : P) :
    Books (tr.filterMap (n.move p)) (s.2 p) := by
  refine h.invariant (fun tr s => Books (tr.filterMap (n.move p)) (s.2 p)) .fresh
    fun tr s a s' es ih _ hs => ?_
  cases step_cases hs with
  | @of a t es q hm hq =>
      rw [List.filterMap_append]
      show Books _ (Function.update s.2 (n.port a) q p)
      by_cases hp : p = n.port a
      · subst hp
        rw [Function.update_self]
        exact ih.moves hq
      · rw [Function.update_of_ne hp, hlocal _ _ _ _ hm p hp, List.append_nil]
        exact ih
  | @drop p' q hq =>
      rw [List.append_nil]
      show Books _ (Function.update s.2 p' q p)
      by_cases hp : p = p'
      · subst hp
        rw [Function.update_self]
        exact ih.drop hq
      · rwa [Function.update_of_ne hp]

end Net

end Links
