import Fleetcore.Lib.Histories
import Fleetcore.System

/-!
What the steps of the system keep, whatever else they do: a process comes back
from its handlers unless a call of `send` holds it up, no row of the table
changes its number, and a queue holds no more than its capacity.
-/

namespace Fleetcore.System

open ByteOrder StateMachine Mailbox

/-! ### Processes that are not held up -/

/-- The answers bring a call of `send` on `len` bytes to an end. -/
def Ends (len : ℕ) (os : List SendOutcome) : Prop :=
  len ≤ deliverable os ∨ os.any SendOutcome.fatal = true

instance (len : ℕ) (os : List SendOutcome) : Decidable (Ends len os) :=
  inferInstanceAs (Decidable (_ ∨ _))

/-- The process is not held up in a call of `send`. -/
def Awake : ProcId → Loc → Prop
  | .gateway, .gateway w => w.tcp.spinning = false
  | .locator, .locator => True
  | .termd _, .termd t => t.tcp.spinning = false
  | _, _ => False

theorem spinning_send {t : TcpServer} {len : ℕ} {os : List SendOutcome} (h : Ends len os) :
    (t.send len os).2.spinning = t.spinning := by
  cases hc : t.clientFd with
  | none => rw [TcpServer.send_of_no_client hc]
  | some fd =>
      have hreturned : ∃ b, (t.send len os).1.returned = some b := by
        rw [TcpServer.send_of_client hc]
        by_cases hle : len ≤ deliverable os
        · exact ⟨true, (sendLoop_returned_true os).mpr hle⟩
        · rw [sendLoop_of_lt (by omega), h.resolve_left hle]
          exact ⟨false, rfl⟩
      obtain ⟨b, hb⟩ := hreturned
      rw [TcpServer.send_clientFd hb]
      cases b <;> rfl

theorem spinning_pollAccept (t : TcpServer) (accepted : Option ℕ) :
    (t.pollAccept accepted).2.spinning = t.spinning := by
  cases accepted <;> rfl

theorem spinning_pollRead (t : TcpServer) (cap : ℕ) (o : RecvOutcome) :
    (t.pollRead cap o).2.spinning = t.spinning := by
  rcases t.pollRead_cases cap o with h | h | ⟨d, h⟩ <;> simp [h, TcpServer.dropClient]

theorem spinning_onIdle_gateway (e : Endian) (env : Env) (w : Gateway) (table : Segment) :
    (w.onIdle e env table).loc.tcp.spinning = w.tcp.spinning := by
  have hread := spinning_pollRead (w.tcp.pollAccept env.accepted).2 1024 env.received
  rw [spinning_pollAccept] at hread
  simp only [Gateway.onIdle]
  split
  · next h => rwa [h] at hread
  · next h => rwa [h] at hread
  · next h =>
      rw [h] at hread
      split <;> exact hread

theorem spinning_drain (e : Endian) (fuel : ℕ) (t : Termd) :
    (t.drain e fuel).1.tcp.spinning = t.tcp.spinning := by
  induction fuel generalizing t with
  | zero => rfl
  | succ fuel ih =>
      cases hn : t.rx.next with
      | none => simp [Termd.drain, hn]
      | some msg =>
          have hfirst : (t.handleFromTerminal e msg).1.tcp.spinning = t.tcp.spinning := by
            simp only [Termd.handleFromTerminal]
            split <;> rfl
          simp only [Termd.drain, hn]
          exact (ih _).trans hfirst

theorem spinning_onIdle_termd (e : Endian) (env : Env) (t : Termd) (table : Segment) :
    (t.onIdle e env table).loc.tcp.spinning = t.tcp.spinning := by
  have haccept : (t.accept env table).loc.tcp.spinning = t.tcp.spinning := by
    have h := spinning_pollAccept t.tcp env.accepted
    simp only [Termd.accept]
    split <;> exact h
  have hread : ∀ t table, (Termd.read e env t table).loc.tcp.spinning = t.tcp.spinning := by
    intro t table
    have hpoll := spinning_pollRead t.tcp 1024 env.received
    unfold Termd.read
    split
    · next h => rwa [h] at hpoll
    · next h => rwa [h] at hpoll
    · next h =>
        rw [h] at hpoll
        exact (spinning_drain e _ _).trans hpoll
  exact (hread _ _).trans haccept

section Reactions

variable {e : Endian} {env : Env} {table : Segment} {loc : Loc} {data : List UInt8} {p : ProcId}
  {r : Mailbox.Reaction ℤ (List UInt8) Loc Segment Note}

theorem awake_start (hr : (program e).start p env table = some r) : Awake p r.loc := by
  cases p with
  | gateway => obtain rfl := Option.some.inj hr; rfl
  | locator => obtain rfl := Option.some.inj hr; trivial
  | termd slot =>
      simp only [program, start, Option.map_eq_some_iff, Termd.onInit,
        Option.ite_none_right_eq_some] at hr
      obtain ⟨_, ⟨-, hr⟩, rfl⟩ := hr
      obtain rfl := Option.some.inj hr
      rfl

theorem awake_idle (hr : (program e).idle p env loc table = some r) : Awake p r.loc := by
  cases p with
  | gateway =>
      cases loc with
      | gateway w =>
          simp only [program, idle, Option.ite_none_left_eq_some, Option.some.injEq] at hr
          obtain ⟨hsp, rfl⟩ := hr
          exact (spinning_onIdle_gateway e env w table).trans (by simpa using hsp)
      | locator => cases hr
      | termd t => cases hr
  | locator =>
      cases loc with
      | locator => obtain rfl := Option.some.inj hr; trivial
      | gateway w => cases hr
      | termd t => cases hr
  | termd slot =>
      cases loc with
      | termd t =>
          simp only [program, idle, Option.ite_none_left_eq_some, Option.some.injEq] at hr
          obtain ⟨hsp, rfl⟩ := hr
          exact (spinning_onIdle_termd e env t table).trans (by simpa using hsp)
      | gateway w => cases hr
      | locator => cases hr

def Returns : ProcId → List SendOutcome → Prop
  | .gateway, os => Ends LockResponse.size os
  | .locator, _ => True
  | .termd _, os => Ends LockRequest.size os

theorem spinning_onLockResponse {w : Gateway} (h : Ends LockResponse.size env.sends) :
    (w.onLockResponse e env table data).loc.tcp.spinning = w.tcp.spinning := by
  have hframe : ((packLockResponse e (IpcLockResponse.ofImage e data).msg outBuffer).2.take
      (packLockResponse e (IpcLockResponse.ofImage e data).msg outBuffer).1).length =
      LockResponse.size := by
    rw [packLockResponse_eq e _ (by simp [LockResponse.size, maxMessageLen])]
    simp
  simp only [Gateway.onLockResponse, hframe]
  split
  · rfl
  · split
    · rfl
    · split
      · rfl
      · exact spinning_send h

theorem spinning_onLockRequest {t : Termd} (h : Ends LockRequest.size env.sends) :
    (t.onLockRequest e env table data).loc.tcp.spinning = t.tcp.spinning := by
  by_cases hlen : data.length = IpcLockRequest.size
  · cases hc : t.tcp.hasClient with
    | false => rw [Termd.onLockRequest_of_no_client hlen hc]
    | true =>
        rw [Termd.onLockRequest_of_client hlen hc]
        exact spinning_send h
  · rw [Termd.onLockRequest, if_pos hlen]

/-- A message leaves its receiver awake, unless a call of `send` holds it up. -/
theorem awake_recv (hends : Returns p env.sends)
    (hr : (program e).recv p env loc table data = some r) : Awake p r.loc := by
  cases p with
  | gateway =>
      cases loc with
      | gateway w =>
          simp only [program, recv_gateway, Option.ite_none_left_eq_some, Option.some.injEq] at hr
          obtain ⟨hsp, rfl⟩ := hr
          have hw : w.tcp.spinning = false := by simpa using hsp
          split
          · exact (spinning_onLockResponse hends).trans hw
          · exact hw
      | locator => cases hr
      | termd t => cases hr
  | locator =>
      cases loc with
      | locator =>
          obtain rfl := Option.some.inj ((recv_locator e env table data).symm.trans hr)
          trivial
      | gateway w => cases hr
      | termd t => cases hr
  | termd slot =>
      cases loc with
      | termd t =>
          simp only [program, recv_termd, Option.ite_none_left_eq_some, Option.some.injEq] at hr
          obtain ⟨hsp, rfl⟩ := hr
          have ht : t.tcp.spinning = false := by simpa using hsp
          split
          · exact (spinning_onLockRequest hends).trans ht
          · exact ht
      | gateway w => cases hr
      | locator => cases hr

theorem Awake.exists_recv (h : Awake p loc) (e : Endian) (env : Env) (table : Segment)
    (data : List UInt8) : ∃ r, (program e).recv p env loc table data = some r := by
  cases p <;> cases loc <;> simp_all [Awake, program, recv_gateway, recv_locator, recv_termd]

/-! ### The table -/

theorem extends_start (hr : (program e).start p env table = some r) :
    table.Extends r.shared := by
  cases p with
  | gateway => obtain rfl := Option.some.inj hr; exact .refl table
  | locator => obtain rfl := Option.some.inj hr; exact .refl table
  | termd slot =>
      simp only [program, start, Option.map_eq_some_iff, Termd.onInit,
        Option.ite_none_right_eq_some] at hr
      obtain ⟨_, ⟨-, hr⟩, rfl⟩ := hr
      obtain rfl := Option.some.inj hr
      exact table.extends_registerTerminal _ _

theorem listed_start {slot : Slot} (hr : (program e).start (.termd slot) env table = some r) :
    r.shared.Listed (1000 + slot.val.toUInt32) := by
  simp only [program, start, Option.map_eq_some_iff, Termd.onInit,
    Option.ite_none_right_eq_some] at hr
  obtain ⟨_, ⟨hok, hr⟩, rfl⟩ := hr
  obtain rfl := Option.some.inj hr
  exact Segment.listed_of_registerTerminal hok

theorem shared_recv (hr : (program e).recv p env loc table data = some r) :
    r.shared = table := by
  cases p with
  | gateway =>
      cases loc with
      | gateway w =>
          simp only [program, recv_gateway, Option.ite_none_left_eq_some, Option.some.injEq] at hr
          obtain ⟨-, rfl⟩ := hr
          simp only [lift, Gateway.onLockResponse]
          split_ifs <;> rfl
      | locator => cases hr
      | termd t => cases hr
  | locator =>
      cases loc with
      | locator =>
          obtain rfl := Option.some.inj ((recv_locator e env table data).symm.trans hr)
          simp only [lift, Locator.onLockRequest_eq]
          split <;> rfl
      | gateway w => cases hr
      | termd t => cases hr
  | termd slot =>
      cases loc with
      | termd t =>
          simp only [program, recv_termd, Option.ite_none_left_eq_some, Option.some.injEq] at hr
          obtain ⟨-, rfl⟩ := hr
          simp only [lift, Termd.onLockRequest]
          split_ifs <;> rfl
      | gateway w => cases hr
      | locator => cases hr

theorem extends_onIdle (e : Endian) (env : Env) (t : Termd) (table : Segment) :
    table.Extends (t.onIdle e env table).shared := by
  have haccept : table.Extends (t.accept env table).shared := by
    simp only [Termd.accept]
    split
    · exact table.extends_setState _ _ _ _ _
    · exact .refl table
  have hread : ∀ t table, Segment.Extends table (Termd.read e env t table).shared := by
    intro t table
    unfold Termd.read
    split
    · exact table.extends_setState _ _ _ _ _
    · exact .refl table
    · exact .refl table
  exact haccept.trans (hread _ _)

theorem extends_idle (hr : (program e).idle p env loc table = some r) :
    table.Extends r.shared := by
  cases p with
  | gateway =>
      cases loc with
      | gateway w =>
          simp only [program, idle, Option.ite_none_left_eq_some, Option.some.injEq] at hr
          obtain ⟨-, rfl⟩ := hr
          have hshared : (w.onIdle e env table).shared = table := by
            simp only [Gateway.onIdle]
            split
            · rfl
            · rfl
            · split <;> rfl
          rw [lift, hshared]
          exact .refl table
      | locator => cases hr
      | termd t => cases hr
  | locator =>
      cases loc with
      | locator => obtain rfl := Option.some.inj hr; exact .refl table
      | gateway w => cases hr
      | termd t => cases hr
  | termd slot =>
      cases loc with
      | termd t =>
          simp only [program, idle, Option.ite_none_left_eq_some, Option.some.injEq] at hr
          obtain ⟨-, rfl⟩ := hr
          exact extends_onIdle e env t table
      | gateway w => cases hr
      | locator => cases hr

end Reactions

/-! ### The numbers of the slots -/

theorem slotNumber_ne_zero (slot : Slot) : (1000 + slot.val.toUInt32 : UInt32) ≠ 0 := by
  intro h
  have hpos := slot.pos
  have hbits : slot.val.toInt = (slot.val.toUInt32.toNat : ℤ).bmod (2 ^ 32) :=
    BitVec.toInt_eq_toNat_bmod _
  have hsum := congrArg UInt32.toNat h
  have hlt := slot.val.toUInt32.toNat_lt
  rw [UInt32.toNat_add, show (1000 : UInt32).toNat = 1000 from rfl,
    show (0 : UInt32).toNat = 0 from rfl] at hsum
  rw [Int.bmod_eq_emod] at hbits
  split at hbits <;> omega

/-- A number that leads to the queue of a slot is the one the slot registers. -/
theorem eq_slotNumber {n : UInt32} {slot : Slot} (h : Locator.termdKey n = key (.termd slot)) :
    n = 1000 + slot.val.toUInt32 := by
  have hn := termdKey_eq_key.mp h
  have hlt := n.toNat_lt
  have hbits : slot.val.toInt = (slot.val.toUInt32.toNat : ℤ).bmod (2 ^ 32) :=
    BitVec.toInt_eq_toNat_bmod _
  have hslot := slot.val.toUInt32.toNat_lt
  apply UInt32.toNat_inj.mp
  rw [UInt32.toNat_add, show (1000 : UInt32).toNat = 1000 from rfl]
  rw [Int.bmod_eq_emod] at hbits
  split at hbits <;> omega

section Runs

variable {e : Endian} {c : Option ℕ} {cap : ℕ} {ok : State → Action → Prop} {table : Segment}
  {s s' : State} {tr es : List Event} {a : Action}

theorem extends_step (hs : (machine e c).step s a = some (s', es)) :
    s.shared.Extends s'.shared := by
  cases step_cases hs with
  | start hp hr => exact extends_start hr
  | recv hp hq hr => exact shared_recv hr ▸ .refl _
  | idle hp hq hr => exact extends_idle hr
  | lost hp hq => exact .refl _
  | sent hp hq hroom => exact .refl _

theorem listed_step
    (h : ∀ slot, .termd slot ∈ s.started → s.shared.Listed (1000 + slot.val.toUInt32))
    (hs : (machine e c).step s a = some (s', es)) :
    ∀ slot, .termd slot ∈ s'.started → s'.shared.Listed (1000 + slot.val.toUInt32) := by
  intro slot hslot
  have hext := extends_step hs
  have hold : .termd slot ∈ s.started → s'.shared.Listed (1000 + slot.val.toUInt32) :=
    fun hmem => hext.listed (slotNumber_ne_zero slot) (h slot hmem)
  cases step_cases hs with
  | @start p i r hp hr =>
      rcases List.mem_append.mp hslot with hmem | hnew
      · exact hold hmem
      · obtain rfl := List.mem_singleton.mp hnew
        exact listed_start hr
  | recv hp hq hr => exact hold hslot
  | idle hp hq hr => exact hold hslot
  | lost hp hq => exact hold hslot
  | sent hp hq hroom => exact hold hslot

theorem bounded_step (h : ∀ k, (s.contents k).length ≤ cap)
    (hs : (machine e (some cap)).step s a = some (s', es)) :
    ∀ k, (s'.contents k).length ≤ cap := by
  intro k'
  cases step_cases hs with
  | start hp hr => simpa using h k'
  | @recv p i loc m ms r hp hq hr =>
      have hcont := h ((program e).key p)
      rw [State.contents_of_queue hq, List.length_cons] at hcont
      rw [State.contents_react, State.contents_setQueue]
      split
      · omega
      · exact h k'
  | idle hp hq hr => exact h k'
  | lost hp hq => exact h k'
  | @sent p loc k m rest ms hp hq hroom =>
      have hlt : ms.length < cap := of_decide_eq_true hroom
      rw [State.contents_setProc, State.contents_setQueue]
      split
      · rw [List.length_append, List.length_singleton]
        omega
      · exact h k'

theorem bounded_run (h : Run (machine e (some cap)) ok (State.init table) tr s) (k : ℤ) :
    (s.contents k).length ≤ cap :=
  h.invariant_state (fun s => ∀ k, (s.contents k).length ≤ cap) (fun _ => Nat.zero_le cap)
    (fun _ _ _ _ hI _ hs => bounded_step hI hs) k

theorem running (h : Run (machine e c) ok (State.init table) tr s) {k : ℤ} (hk : s.queue k ≠ none) :
    ∃ p q, key p = k ∧ p ∈ s.started ∧ s.proc p = some q := by
  have hst := standing h
  obtain ⟨p, hp, hkey⟩ := (hst.queue_iff k).mp hk
  obtain ⟨q, hq⟩ := Option.ne_none_iff_exists'.mp ((hst.up_iff p).mpr hp)
  exact ⟨p, q, hkey, hp, hq⟩

end Runs

end Fleetcore.System
