import Fleetcore.Downlink

/-!
Whether a command goes round in circles.

Locator computes the index of a termd from the number alone, and number 0 comes
out as its own index. What keeps it from passing such a command on to itself is
the lookup; but a free row is a row of number 0, so the lookup of 0 succeeds as
long as the table has one. Apart from that case every command is passed on at
most once, and to a termd.
-/

namespace Fleetcore.System

open ByteOrder StateMachine Mailbox

/-- Locator does not look up number 0 in a table with a free row. -/
def KeepsOut (e : Endian) (s : State) : Action → Prop
  | .recv .locator env => ∀ m ∈ (s.contents (key .locator)).head?,
      Locator.numberIn e m = some 0 → ¬(env.access = .granted ∧ s.shared.Listed 0)
  | _ => True

instance (e : Endian) (s : State) : DecidablePred (KeepsOut e s)
  | .recv .locator _ => inferInstanceAs (Decidable (∀ m ∈ _, _ → ¬(_ ∧ _)))
  | .recv .gateway _ => isTrue trivial
  | .recv (.termd _) _ => isTrue trivial
  | .start _ _ => isTrue trivial
  | .idle _ _ => isTrue trivial
  | .flush _ => isTrue trivial

/-- What gateway forwards makes its way once. -/
structure ForwardedOnce (e : Endian) (s : State) (tr : List Event) : Prop where
  /-- Locator dispatches what gateway has put on its queue, and nothing else. -/
  dispatched : tookBy .locator tr <+: (sentBy .gateway tr).map Prod.snd
  /-- Locator puts a command it has dispatched on a queue at most once. -/
  once : ((sentBy .locator tr).map fun x => wireIn e x.2).Sublist
    ((tookBy .locator tr).map (wireIn e))
  /-- That queue is the one of a termd. -/
  toTermd : ∀ x ∈ sentBy .locator tr, ∃ slot, .termd slot ∈ s.started ∧ x.1 = key (.termd slot)
  /-- A termd puts messages on gateway's queue only. -/
  toGateway : ∀ slot, ∀ x ∈ sentBy (.termd slot) tr, x.1 = key .gateway

variable {e : Endian} {cap : Option ℕ} {ok : State → Action → Prop} {table : Segment}
  {s : State} {tr : List Event}

/-- A command of number 0 comes back to locator as often as it is dispatched. -/
theorem onLockRequest_zero {env : Env} {data : List UInt8}
    (hlen : data.length = IpcLockRequest.size) (h0 : Locator.numberIn e data = some 0)
    (ha : env.access = .granted) (hfree : table.Listed 0) :
    (Locator.onLockRequest e env table data).sends =
      [(key .locator, Locator.relay e 0 data)] := by
  have hfind : (table.find env.access 0 .zero).1 = true := Segment.find_fst.mpr ⟨ha, hfree⟩
  simp only [Locator.onLockRequest_eq, hlen, h0, hfind, if_true,
    termdKey_eq_locator.mpr (rfl : (0 : UInt32) = 0)]

theorem locator_history_keepsOut : History (program e) (KeepsOut e) .locator
    fun _ _ _ posted => ∀ x ∈ posted, x.1 ≠ key .locator where
  start := fun s env r _ hr x hx => by
    rw [sends_start hr] at hx
    cases hx
  recv := by
    intro s env loc m rest r ms os xs hok hq h hr x hx
    rcases List.mem_append.mp hx with hold | hnew
    · exact h x hold
    · rcases sends_recv_locator hr with hnone | ⟨n, hn, hfound, hsends⟩
      · rw [hnone] at hnew
        cases hnew
      · rw [hsends, List.mem_singleton] at hnew
        rw [hnew]
        intro hkey
        obtain rfl := termdKey_eq_locator.mp hkey
        have hhead : (s.contents (key .locator)).head? = some m :=
          congrArg List.head? (State.contents_of_queue hq)
        exact hok m hhead hn hfound
  idle := fun s env loc r ms os xs _ h hr => by
    rw [sends_idle (by decide) hr, List.append_nil]
    exact h

section Runs

variable (h : Run (machine e cap) (KeepsOut e) (State.init table) tr s)

include h

theorem posted_by_locator_ne {x : ℤ × List UInt8} (hx : x ∈ postedBy .locator tr) :
    x.1 ≠ key .locator :=
  locator_history_keepsOut.of_run h (Q := fun _ _ posted => ∀ x ∈ posted, x.1 ≠ key .locator)
    (fun _ _ _ _ hR => hR) (by simp) x hx

theorem sentTo_locator : sentTo (key .locator) tr = (sentBy .gateway tr).map Prod.snd := by
  have hfrom := (ledger key_injective h).filterMap_sentTo (p := .gateway) (k := key .locator)
    (f := some) fun q m hq hm => by
      cases q with
      | gateway => exact absurd rfl hq
      | locator => exact absurd rfl (posted_by_locator_ne h hm)
      | termd slot => simpa using mem_postedBy_termd h hm
  rw [List.filterMap_some, List.filterMap_some] at hfrom
  rw [hfrom, ← List.filterMap_eq_map]
  refine List.filterMap_congr fun x hx => ?_
  have hkey : x.1 = key .locator := by
    have hposted := (sentBy_sublist_postedBy h .gateway).subset hx
    rw [postedBy_gateway h] at hposted
    obtain ⟨f, -, rfl⟩ := List.mem_map.mp hposted
    rfl
  simp [onKey, hkey]

end Runs

/-- As long as locator does not look up number 0 in a table with a free row,
every request that gateway forwards is dispatched at most once, and put on a
queue again at most once, which is the queue of a termd. -/
theorem forwarded_once (h : Run (machine e cap) (KeepsOut e) (State.init table) tr s) :
    ForwardedOnce e s tr where
  dispatched := sentTo_locator h ▸ tookBy_prefix_sentTo key_injective h .locator
  once := by
    have hsent := (sentBy_sublist_postedBy h .locator).map fun x => wireIn e x.2
    have hposted := (postedBy_locator_sublist h).map fun x => wireIn e x.2
    exact (hsent.trans hposted).trans (route_sublist (wireIn_relay e) _)
  toTermd := fun x hx => by
    obtain ⟨q, hq, hkey⟩ := started_of_sent h (mem_sentBy.mp hx)
    have hposted := (sentBy_sublist_postedBy h .locator).subset hx
    cases q with
    | gateway =>
        obtain ⟨n, -, hn⟩ := mem_postedBy_locator h hposted
        exact absurd (hn.symm.trans hkey.symm) (termdKey_ne_gateway n)
    | locator => exact absurd hkey.symm (posted_by_locator_ne h hposted)
    | termd slot => exact ⟨slot, hq, hkey.symm⟩
  toGateway := fun slot x hx => mem_postedBy_termd h ((sentBy_sublist_postedBy h _).subset hx)

/-- A request for a terminal that is there is forwarded once. -/
theorem forwarded_once_request : ∃ tr s,
    Run (machine .little none) (KeepsOut .little) init tr s ∧
      (tookBy .locator tr).length = 1 ∧ (sentBy .locator tr).length = 1 ∧
      ForwardedOnce .little s tr := by
  obtain ⟨tr, s, hrun, hcount⟩ := (machine .little none).exists_run_of_exec
    (KeepsOut .little) init
    [.start .gateway .quiet, .start .locator .quiet, .start (.termd slot1) .quiet,
      .idle .gateway { Env.quiet with
        accepted := some 5, received := .data (requestFrame 1001) },
      .flush .gateway, .recv .locator .quiet, .flush .locator]
    (fun r => decide ((tookBy .locator r.2).length = 1 ∧ (sentBy .locator r.2).length = 1))
    (by decide +kernel) (by decide +kernel)
  obtain ⟨htook, hsent⟩ := of_decide_eq_true hcount
  exact ⟨tr, s, hrun, htook, hsent, forwarded_once hrun⟩

/-- A single request for number 0, and locator dispatches it a second time. -/
theorem forwarded_to_itself : ∃ tr s,
    Run (machine .little none) Always init tr s ∧
      (sentBy .gateway tr).length < (tookBy .locator tr).length ∧
      (key .locator) ∈ (sentBy .locator tr).map Prod.fst ∧ ¬ForwardedOnce .little s tr := by
  obtain ⟨tr, s, hrun, hcount⟩ := (machine .little none).exists_run_of_exec Always init
    [.start .gateway .quiet, .start .locator .quiet,
      .idle .gateway { Env.quiet with
        accepted := some 5, received := .data (requestFrame 0) },
      .flush .gateway, .recv .locator .quiet, .flush .locator, .recv .locator .quiet]
    (fun r => decide ((sentBy .gateway r.2).length < (tookBy .locator r.2).length ∧
      (key .locator) ∈ (sentBy .locator r.2).map Prod.fst))
    (by decide +kernel) (by decide +kernel)
  obtain ⟨hmore, hself⟩ : (sentBy .gateway tr).length < (tookBy .locator tr).length ∧
    key .locator ∈ (sentBy .locator tr).map Prod.fst := of_decide_eq_true hcount
  refine ⟨tr, s, hrun, hmore, hself, fun honce => ?_⟩
  have hle := honce.dispatched.length_le
  rw [List.length_map] at hle
  omega

end Fleetcore.System
