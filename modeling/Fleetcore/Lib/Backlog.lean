import Fleetcore.Lib.Histories
import Mathlib.Algebra.BigOperators.Group.Finset.Basic
import Mathlib.Algebra.Order.BigOperators.Group.Finset

/-!
How much is under way in a mailbox program.

The load of a state is the number of messages in the queues and outboxes of the
processes that are up. A reaction changes it by what it takes and posts, and
putting a message on a queue does not change it. A process is blocked on a
queue when its next message is for that queue and the queue is full.
-/

namespace Mailbox

open StateMachine

variable {P K M L G I O : Type*} [DecidableEq P] [DecidableEq K]

theorem sum_replace {S : Finset P} (f f' : P → ℕ) {p : P} (hp : p ∈ S)
    (h : ∀ q ∈ S, q ≠ p → f' q = f q) : ∑ q ∈ S, f' q + f p = ∑ q ∈ S, f q + f' p := by
  have hrest : ∑ q ∈ S.erase p, f' q = ∑ q ∈ S.erase p, f q :=
    Finset.sum_congr rfl fun q hq => h q (Finset.mem_of_mem_erase hq) (Finset.ne_of_mem_erase hq)
  have hf := Finset.add_sum_erase S f hp
  have hf' := Finset.add_sum_erase S f' hp
  omega

def waiting (g : Program P K M L G I O) (s : State P K M L G) : ℕ :=
  ∑ p ∈ s.started.toFinset, (s.contents (g.key p)).length

def unsent (s : State P K M L G) : ℕ := ∑ p ∈ s.started.toFinset, (s.outbox p).length

def load (g : Program P K M L G I O) (s : State P K M L G) : ℕ := waiting g s + unsent s

/-- `p` waits for room in the queue at `k`, which holds `cap` messages. -/
def Blocked (cap : ℕ) (s : State P K M L G) (p : P) (k : K) : Prop :=
  (s.outbox p).head?.map Prod.fst = some k ∧ ∃ ms ∈ s.queue k, cap ≤ ms.length

instance (cap : ℕ) (s : State P K M L G) (p : P) (k : K) : Decidable (Blocked cap s p k) :=
  inferInstanceAs (Decidable (_ ∧ ∃ ms ∈ s.queue k, cap ≤ ms.length))

omit [DecidableEq P] [DecidableEq K] in
theorem Blocked.outbox {cap : ℕ} {s : State P K M L G} {p : P} {k : K} (h : Blocked cap s p k) :
    ∃ m rest, s.outbox p = (k, m) :: rest := by
  obtain ⟨hhead, -⟩ := h
  cases hout : s.outbox p with
  | nil => simp [hout] at hhead
  | cons x rest =>
      obtain rfl : x.1 = k := by simpa [hout] using hhead
      exact ⟨x.2, rest, rfl⟩

omit [DecidableEq P] [DecidableEq K] in
theorem Blocked.le_length {cap : ℕ} {s : State P K M L G} {p : P} {k : K}
    (h : Blocked cap s p k) : cap ≤ (s.contents k).length := by
  obtain ⟨-, ms, hms, hle⟩ := h
  rwa [State.contents_of_queue hms]

section Steps

variable {g : Program P K M L G I O} {s s' : State P K M L G} {p : P} {loc : L}

omit [DecidableEq K] in
theorem unsent_replace (hp : p ∈ s.started) {xs : List (K × M)} (hstarted : s'.started = s.started)
    (hout : ∀ q, s'.outbox q = if q = p then xs else s.outbox q) :
    unsent s' + (s.outbox p).length = unsent s + xs.length := by
  have hsum := sum_replace (fun q => (s.outbox q).length) (fun q => (s'.outbox q).length)
    (List.mem_toFinset.mpr hp) fun q _ hq => by rw [hout, if_neg hq]
  simpa [unsent, hstarted, hout p] using hsum

theorem waiting_replace (hkey : Function.Injective g.key) (hp : p ∈ s.started) {ms : List M}
    (hstarted : s'.started = s.started)
    (hcont : ∀ k, s'.contents k = if k = g.key p then ms else s.contents k) :
    waiting g s' + (s.contents (g.key p)).length = waiting g s + ms.length := by
  have hsum := sum_replace (fun q => (s.contents (g.key q)).length)
    (fun q => (s'.contents (g.key q)).length) (List.mem_toFinset.mpr hp) fun q _ hq => by
      rw [hcont, if_neg (hkey.ne hq)]
  simpa [waiting, hstarted, hcont (g.key p)] using hsum

omit [DecidableEq P] [DecidableEq K] in
theorem Standing.mem_started (hst : Standing g s) {q : Proc K M L} (hp : s.proc p = some q) :
    p ∈ s.started :=
  (hst.up_iff p).mp (by simp [hp])

omit [DecidableEq P] [DecidableEq K] in
theorem Standing.contents_eq_nil (hst : Standing g s) (hkey : Function.Injective g.key)
    (hp : s.proc p = none) : s.contents (g.key p) = [] := by
  have hqueue : s.queue (g.key p) = none := by
    by_contra hne
    obtain ⟨q, hq, hqp⟩ := (hst.queue_iff _).mp hne
    exact (hst.up_iff p).mpr (hkey hqp ▸ hq) hp
  simp [State.contents, hqueue]

omit [DecidableEq P] [DecidableEq K] in
theorem Standing.proc_eq_none (hst : Standing g s) (hq : s.queue (g.key p) = none) :
    s.proc p = none := by
  by_contra hp
  exact (hst.queue_iff (g.key p)).mpr ⟨p, (hst.up_iff p).mp hp, rfl⟩ hq

theorem load_launch (hst : Standing g s) (hkey : Function.Injective g.key)
    (hp : s.proc p = none) (r : Reaction K M L G O) :
    load g (s.launch (g.key p) p r) = load g s + r.sends.length := by
  have hnew : p ∉ s.started := fun hmem => (hst.up_iff p).mpr hmem hp
  have hmem : p ∉ s.started.toFinset := fun h => hnew (List.mem_toFinset.mp h)
  have hset : (s.launch (g.key p) p r).started.toFinset = insert p s.started.toFinset := by
    rw [State.started_launch, List.toFinset_append, Finset.union_comm]
    rfl
  have hwaiting : waiting g (s.launch (g.key p) p r) = waiting g s := by
    simp only [waiting, hset, Finset.sum_insert hmem, State.contents_launch,
      hst.contents_eq_nil hkey hp, List.length_nil, Nat.zero_add]
  have hunsent : unsent (s.launch (g.key p) p r) = unsent s + r.sends.length := by
    have hrest : ∑ q ∈ s.started.toFinset, ((s.launch (g.key p) p r).outbox q).length =
        unsent s := Finset.sum_congr rfl fun q hq => by
      have hne : q ≠ p := fun h => hmem (h ▸ hq)
      rw [State.outbox_launch, if_neg hne]
    rw [unsent, hset, Finset.sum_insert hmem, hrest, State.outbox_launch, if_pos rfl,
      Nat.add_comm]
  rw [load, hwaiting, hunsent, load, Nat.add_assoc]

omit [DecidableEq K] in
theorem load_react (hst : Standing g s) (hp : s.proc p = some ⟨loc, []⟩)
    (r : Reaction K M L G O) : load g (s.react p r) = load g s + r.sends.length := by
  have hunsent : unsent (s.react p r) + (s.outbox p).length = unsent s + r.sends.length :=
    unsent_replace (hst.mem_started hp) rfl fun q => State.outbox_react s p q r
  rw [State.outbox_of_proc hp, List.length_nil] at hunsent
  have hwaiting : waiting g (s.react p r) = waiting g s := rfl
  rw [load, load, hwaiting]
  omega

theorem load_recv (hst : Standing g s) (hkey : Function.Injective g.key)
    (hp : s.proc p = some ⟨loc, []⟩) {m : M} {ms : List M}
    (hq : s.queue (g.key p) = some (m :: ms)) (r : Reaction K M L G O) :
    load g ((s.setQueue (g.key p) ms).react p r) + 1 = load g s + r.sends.length := by
  have hwaiting : waiting g ((s.setQueue (g.key p) ms).react p r) +
      (s.contents (g.key p)).length = waiting g s + ms.length :=
    waiting_replace hkey (hst.mem_started hp) rfl fun k => by simp
  have hunsent : unsent ((s.setQueue (g.key p) ms).react p r) + (s.outbox p).length =
      unsent s + r.sends.length :=
    unsent_replace (hst.mem_started hp) rfl fun q => by simp
  rw [State.outbox_of_proc hp, List.length_nil] at hunsent
  rw [State.contents_of_queue hq, List.length_cons] at hwaiting
  rw [load, load]
  omega

omit [DecidableEq K] in
theorem load_lost (hst : Standing g s) {x : K × M} {rest : List (K × M)}
    (hp : s.proc p = some ⟨loc, x :: rest⟩) :
    load g (s.setProc p ⟨loc, rest⟩) + 1 = load g s := by
  have hunsent : unsent (s.setProc p ⟨loc, rest⟩) + (s.outbox p).length =
      unsent s + rest.length :=
    unsent_replace (hst.mem_started hp) rfl fun q => by simp
  rw [State.outbox_of_proc hp, List.length_cons] at hunsent
  have hwaiting : waiting g (s.setProc p ⟨loc, rest⟩) = waiting g s := rfl
  rw [load, load, hwaiting]
  omega

theorem load_sent (hst : Standing g s) (hkey : Function.Injective g.key) {k : K} {m : M}
    {rest : List (K × M)} (hp : s.proc p = some ⟨loc, (k, m) :: rest⟩) {ms : List M}
    (hq : s.queue k = some ms) :
    load g ((s.setQueue k (ms ++ [m])).setProc p ⟨loc, rest⟩) = load g s := by
  obtain ⟨q, hqs, rfl⟩ := (hst.queue_iff k).mp (by simp [hq])
  have hwaiting : waiting g ((s.setQueue (g.key q) (ms ++ [m])).setProc p ⟨loc, rest⟩) +
      (s.contents (g.key q)).length = waiting g s + (ms ++ [m]).length :=
    waiting_replace hkey hqs rfl fun k => by simp
  have hunsent : unsent ((s.setQueue (g.key q) (ms ++ [m])).setProc p ⟨loc, rest⟩) +
      (s.outbox p).length = unsent s + rest.length :=
    unsent_replace (hst.mem_started hp) rfl fun q' => by simp
  rw [State.outbox_of_proc hp, List.length_cons] at hunsent
  rw [State.contents_of_queue hq, List.length_append, List.length_singleton] at hwaiting
  rw [load, load]
  omega

omit [DecidableEq P] [DecidableEq K] in
theorem Standing.started_of_outbox (hst : Standing g s) {x : K × M} {rest : List (K × M)}
    (h : s.outbox p = x :: rest) : p ∈ s.started := by
  refine (hst.up_iff p).mp fun hp => ?_
  rw [State.outbox_of_not_running hp] at h
  cases h

omit [DecidableEq K] in
/-- What waits for and with some processes that are up is part of the load. -/
theorem sum_le_load {S : Finset P} (hS : ∀ p ∈ S, p ∈ s.started) :
    ∑ p ∈ S, ((s.contents (g.key p)).length + (s.outbox p).length) ≤ load g s := by
  rw [load, waiting, unsent, ← Finset.sum_add_distrib]
  exact Finset.sum_le_sum_of_subset fun p hp => List.mem_toFinset.mpr (hS p hp)

end Steps

end Mailbox
