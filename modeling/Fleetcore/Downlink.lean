import Fleetcore.Lib.Histories
import Fleetcore.Receive
import Fleetcore.System
import Mathlib.Data.List.Flatten

/-!
The way of a command from the maintenance terminal to a vehicle, over any run
of gateway, locator and the termds.

Each process has a law on its own history: gateway posts the requests it has
cut (`gateway_history`), locator posts each command it takes at most once and
to the queue its number says (`locator_history`), a termd hands on the commands
it takes and posts acknowledgements only (`termd_history`). The laws of the
queues join them.
-/

namespace Fleetcore

open ByteOrder StateMachine Mailbox

namespace System

variable {e : Endian} {cap : Option ℕ} {ok : State → Action → Prop} {table : Segment}
  {s : State} {tr : List Event}

/-! ### Histories -/

def wireIn (e : Endian) (data : List UInt8) : List UInt8 :=
  (IpcLockRequest.ofImage e data).msg.wire

/-- Where locator passes a command on to, if its number is listed. -/
def route (e : Endian) (data : List UInt8) : List (ℤ × List UInt8) :=
  match Locator.numberIn e data with
  | none => []
  | some n => [(Locator.termdKey n, Locator.relay e n data)]

def handed (notes : List Note) : List (List UInt8) :=
  notes.filterMap fun
    | .handed frame _ => some frame
    | _ => none

def command (e : Endian) (frame : List UInt8) : List UInt8 := (Gateway.forward frame).image e

theorem numberIn_relay (e : Endian) (n : UInt32) (data : List UInt8) :
    Locator.numberIn e (Locator.relay e n data) = Locator.numberIn e data := by
  rw [Locator.numberIn, Locator.msg_relay, ← Locator.numberIn]

theorem wireIn_relay (e : Endian) (n : UInt32) (data : List UInt8) :
    wireIn e (Locator.relay e n data) = wireIn e data := by
  rw [wireIn, Locator.msg_relay, ← wireIn]

theorem wireIn_command {frame : List UInt8} (h : Gateway.Accepts e frame) :
    wireIn e (command e frame) = frame := by
  rw [wireIn, command, IpcLockRequest.ofImage_image, Gateway.wire_forward e h]

theorem numberIn_command (e : Endian) (frame : List UInt8) :
    Locator.numberIn e (command e frame) =
      Locator.number (LockRequest.ofWire frame).termNo := by
  rw [Locator.numberIn, command, IpcLockRequest.ofImage_image, Gateway.forward]

theorem handed_append (notes notes' : List Note) :
    handed (notes ++ notes') = handed notes ++ handed notes' := List.filterMap_append

theorem handed_drain (e : Endian) (fuel : ℕ) (t : Termd) : handed (t.drain e fuel).2 = [] := by
  induction fuel generalizing t with
  | zero => rfl
  | succ fuel ih =>
      cases hn : t.rx.next with
      | none => simp [Termd.drain, hn, handed]
      | some msg =>
          have hfirst : handed (t.handleFromTerminal e msg).2 = [] := by
            unfold Termd.handleFromTerminal
            simp only
            split <;> rfl
          simp only [Termd.drain, hn]
          rw [handed_append, hfirst]
          exact ih _

theorem handed_onIdle (e : Endian) (env : Env) (t : Termd) (table : Segment) :
    handed (t.onIdle e env table).obs = [] := by
  have haccept : handed (t.accept env table).obs = [] := by
    simp only [Termd.accept]
    split <;> rfl
  have hread : ∀ t table, handed (Termd.read e env t table).obs = [] := fun t table => by
    unfold Termd.read
    split
    · rfl
    · rfl
    · exact handed_drain e _ _
  rw [Termd.onIdle, handed_append, haccept]
  exact hread _ _

theorem handed_onLockRequest (e : Endian) (env : Env) (t : Termd) (table : Segment)
    (data : List UInt8) :
    (handed (t.onLockRequest e env table data).obs).Sublist [wireIn e data] := by
  by_cases hlen : data.length = IpcLockRequest.size
  · cases hc : t.tcp.hasClient with
    | false =>
        rw [Termd.onLockRequest_of_no_client hlen hc]
        exact List.nil_sublist _
    | true =>
        rw [Termd.onLockRequest_of_client hlen hc, Termd.frameOf_eq]
        exact List.Sublist.refl _
  · rw [Termd.onLockRequest, if_pos hlen]
    exact List.nil_sublist _

/-! ### What a reaction sends -/

section Reactions

variable {env : Env} {loc : Loc} {data : List UInt8}
  {r : Mailbox.Reaction ℤ (List UInt8) Loc Segment Note}

theorem sends_start {p : ProcId} (hr : (program e).start p env table = some r) : r.sends = [] := by
  cases p with
  | gateway => obtain rfl := Option.some.inj hr; rfl
  | locator => obtain rfl := Option.some.inj hr; rfl
  | termd slot =>
      simp only [program, start, Option.map_eq_some_iff, Termd.onInit,
        Option.ite_none_right_eq_some] at hr
      obtain ⟨_, ⟨-, hr⟩, rfl⟩ := hr
      obtain rfl := Option.some.inj hr
      rfl

theorem sends_recv_gateway (hr : (program e).recv .gateway env loc table data = some r) :
    r.sends = [] := by
  cases loc with
  | gateway w =>
      simp only [program, recv_gateway, Option.ite_none_left_eq_some, Option.some.injEq] at hr
      obtain ⟨-, rfl⟩ := hr
      split
      · exact (Gateway.onLockResponse_silent e env w table data).1
      · rfl
  | locator => cases hr
  | termd t => cases hr

theorem sends_recv_locator (hr : (program e).recv .locator env loc table data = some r) :
    r.sends = [] ∨ ∃ n, Locator.numberIn e data = some n ∧
      (env.access = .granted ∧ table.Listed n) ∧
      r.sends = [(Locator.termdKey n, Locator.relay e n data)] := by
  cases loc with
  | locator =>
      obtain rfl := Option.some.inj ((recv_locator e env table data).symm.trans hr)
      split
      · simp only [lift, Locator.onLockRequest_eq]
        split
        · cases hn : Locator.numberIn e data with
          | none => exact .inl rfl
          | some n =>
              cases hfind : (table.find env.access n .zero).1 with
              | false => exact .inl (by simp [hfind])
              | true => exact .inr ⟨n, rfl, Segment.find_fst.mp hfind, by simp [hfind]⟩
        · exact .inl rfl
      · exact .inl rfl
  | gateway w => cases hr
  | termd t => cases hr

theorem sends_recv_termd {slot : Slot}
    (hr : (program e).recv (.termd slot) env loc table data = some r) :
    r.sends = [] ∨ r.sends = [(key .gateway,
      (Termd.ackOf (IpcLockRequest.ofImage e data).msg env.now).image e)] := by
  cases loc with
  | termd t =>
      simp only [program, recv_termd, Option.ite_none_left_eq_some, Option.some.injEq] at hr
      obtain ⟨-, rfl⟩ := hr
      split
      · simp only [lift, Termd.onLockRequest]
        split
        · exact .inl rfl
        · split
          · split
            · exact .inr (sendTo_image_response _ _ _)
            · split
              · exact .inr (sendTo_image_response _ _ _)
              · exact .inl rfl
          · exact .inr (sendTo_image_response _ _ _)
      · exact .inl rfl
  | gateway w => cases hr
  | locator => cases hr

theorem sends_idle {p : ProcId} (hp : p ≠ .gateway)
    (hr : (program e).idle p env loc table = some r) :
    r.sends = [] := by
  cases p with
  | gateway => exact absurd rfl hp
  | locator =>
      cases loc with
      | locator => obtain rfl := Option.some.inj hr; rfl
      | gateway w => cases hr
      | termd t => cases hr
  | termd slot =>
      cases loc with
      | termd t =>
          simp only [program, idle, Option.ite_none_left_eq_some, Option.some.injEq] at hr
          obtain ⟨-, rfl⟩ := hr
          rfl
      | gateway w => cases hr
      | locator => cases hr

theorem sends_idle_gateway (hr : (program e).idle .gateway env loc table = some r) :
    ∃ w, loc = .gateway w ∧
      r.sends = (w.batch e env).map fun f => (key .locator, command e f) := by
  cases loc with
  | gateway w =>
      simp only [program, idle, Option.ite_none_left_eq_some, Option.some.injEq] at hr
      obtain ⟨-, rfl⟩ := hr
      refine ⟨w, rfl, ?_⟩
      rw [← Gateway.cuts_onIdle e env w table]
      exact Gateway.onIdle_sends e env w table
  | locator => cases hr
  | termd t => cases hr

end Reactions

/-- Gateway posts the requests in what it received, each once and to locator. -/
theorem gateway_history : History (program e) ok .gateway fun loc _ notes posted =>
    (∃ w, loc = .gateway w ∧ Gateway.Abreast e w notes) ∧
      posted = (Gateway.cuts notes).map fun f => (key .locator, command e f) where
  start := by
    intro s env r _ hr
    obtain rfl := Option.some.inj hr
    exact ⟨⟨.init, rfl, .init⟩, rfl⟩
  recv := by
    rintro s env loc m rest r ms os xs _ _ ⟨⟨w, rfl, hw⟩, rfl⟩ hr
    rw [sends_recv_gateway hr, List.append_nil]
    simp only [program, recv_gateway, Option.ite_none_left_eq_some, Option.some.injEq] at hr
    obtain ⟨-, rfl⟩ := hr
    split
    · refine ⟨⟨_, rfl, hw.onLockResponse env s.shared m⟩, ?_⟩
      rw [Gateway.cuts_append, lift, (Gateway.onLockResponse_silent e env w s.shared m).2,
        List.append_nil]
    · exact ⟨⟨w, rfl, by simpa [lift] using hw⟩, by simp [lift]⟩
  idle := by
    rintro s env loc r ms os xs _ ⟨⟨w, rfl, hw⟩, rfl⟩ hr
    simp only [program, idle, Option.ite_none_left_eq_some, Option.some.injEq] at hr
    obtain ⟨-, rfl⟩ := hr
    refine ⟨⟨_, rfl, hw.onIdle env s.shared⟩, ?_⟩
    rw [Gateway.cuts_append, List.map_append]
    exact congrArg _ (Gateway.onIdle_sends e env w s.shared)

/-- Locator posts a command it takes at most once, and as its number says. -/
theorem locator_history : History (program e) ok .locator fun _ taken _ posted =>
    posted.Sublist (taken.flatMap (route e)) where
  start := fun s env r _ hr => by
    rw [sends_start hr]
    exact List.nil_sublist _
  recv := by
    intro s env loc m rest r ms os xs _ _ h hr
    rw [List.flatMap_append, List.flatMap_singleton, route]
    refine h.append ?_
    rcases sends_recv_locator hr with hnone | ⟨n, hn, -, hsends⟩
    · rw [hnone]
      exact List.nil_sublist _
    · rw [hsends, hn]
  idle := fun s env loc r ms os xs _ h hr => by
    rw [sends_idle (by decide) hr, List.append_nil]
    exact h

theorem termd_history (slot : Slot) : History (program e) ok (.termd slot)
    fun loc taken notes _ => (∃ t, loc = .termd t) ∧
      (handed notes).Sublist (taken.map (wireIn e)) where
  start := by
    intro s env r _ hr
    simp only [program, System.start, Option.map_eq_some_iff, Termd.onInit,
      Option.ite_none_right_eq_some] at hr
    obtain ⟨_, ⟨-, hr⟩, rfl⟩ := hr
    obtain rfl := Option.some.inj hr
    exact ⟨⟨_, rfl⟩, List.Sublist.refl _⟩
  recv := by
    rintro s env loc m rest r ms os xs _ _ ⟨⟨t, rfl⟩, h⟩ hr
    simp only [program, recv_termd, Option.ite_none_left_eq_some, Option.some.injEq] at hr
    obtain ⟨-, rfl⟩ := hr
    refine ⟨⟨_, rfl⟩, ?_⟩
    rw [lift, handed_append, List.map_append]
    refine h.append ?_
    split
    · exact handed_onLockRequest e env t s.shared m
    · exact List.nil_sublist _
  idle := by
    rintro s env loc r ms os xs _ ⟨⟨t, rfl⟩, h⟩ hr
    simp only [program, idle, Option.ite_none_left_eq_some, Option.some.injEq] at hr
    obtain ⟨-, rfl⟩ := hr
    refine ⟨⟨_, rfl⟩, ?_⟩
    rw [lift, handed_append, handed_onIdle, List.append_nil]
    exact h

theorem termd_posts (slot : Slot) : History (program e) ok (.termd slot)
    fun _ _ _ posted => ∀ x ∈ posted, x.1 = key .gateway where
  start := fun s env r _ hr x hx => by
    rw [sends_start hr] at hx
    cases hx
  recv := by
    intro s env loc m rest r ms os xs _ _ h hr x hx
    rcases List.mem_append.mp hx with hold | hnew
    · exact h x hold
    · rcases sends_recv_termd hr with hnone | hsends
      · rw [hnone] at hnew
        cases hnew
      · rw [hsends, List.mem_singleton] at hnew
        rw [hnew]
  idle := fun s env loc r ms os xs _ h hr => by
    rw [sends_idle (by simp) hr, List.append_nil]
    exact h

/-! ### From one process to the next -/

/-- The frame in a command, if it is for the terminal of `slot`. -/
def frameFor (e : Endian) (slot : Slot) (data : List UInt8) : Option (List UInt8) :=
  match Locator.numberIn e data with
  | none => none
  | some n => if (n.toNat : ℤ) = 1000 + slot.val.toInt then some (wireIn e data) else none

/-- What locator passes on to a termd are the commands for its terminal. -/
theorem filterMap_route (e : Endian) (slot : Slot) (data : List UInt8) :
    ((route e data).filterMap (onKey (key (.termd slot)))).map (wireIn e) =
      (frameFor e slot data).toList := by
  unfold route frameFor
  cases Locator.numberIn e data with
  | none => rfl
  | some n =>
      by_cases hn : Locator.termdKey n = key (.termd slot)
      · simp [onKey, hn, termdKey_eq_key.mp hn, wireIn_relay]
      · simp [onKey, hn, mt termdKey_eq_key.mpr hn]

/-- What locator does not change occurs in what it passes on as often as in
what it takes, at most. -/
theorem route_sublist {β : Type} {f : List UInt8 → β}
    (hf : ∀ n data, f (Locator.relay e n data) = f data) (taken : List (List UInt8)) :
    ((taken.flatMap (route e)).map fun x => f x.2).Sublist (taken.map f) := by
  rw [List.map_flatMap, List.map_eq_flatMap (f := f)]
  apply List.Sublist.flatMap_right
  intro data _
  unfold route
  split
  · exact List.nil_sublist _
  · simp [hf]

/-- What the processes have done to the commands, over all their histories: each
has a law of its own, and the queues are between them. -/
structure Books (e : Endian) (tr : List Event) : Prop extends Ledger key tr where
  posted : (postedBy .gateway tr).Sublist
    ((Gateway.accepted e (sawBy .gateway tr)).map fun f => (key .locator, command e f))
  routed : (postedBy .locator tr).Sublist ((tookBy .locator tr).flatMap (route e))
  delivered : ∀ slot, (handed (sawBy (.termd slot) tr)).Sublist
    ((tookBy (.termd slot) tr).map (wireIn e))
  uplink : ∀ slot, ∀ x ∈ postedBy (.termd slot) tr, x.1 = key .gateway

namespace Books

variable (h : Books e tr)

include h

theorem posted_by_gateway {x : ℤ × List UInt8} (hx : x ∈ postedBy .gateway tr) :
    x.1 = key .locator := by
  obtain ⟨f, -, rfl⟩ := List.mem_map.mp (h.posted.subset hx)
  rfl

theorem posted_by_locator {x : ℤ × List UInt8} (hx : x ∈ postedBy .locator tr) :
    ∃ n, Locator.numberIn e x.2 = some n ∧ x.1 = Locator.termdKey n := by
  obtain ⟨data, -, hdata⟩ := List.mem_flatMap.mp (h.routed.subset hx)
  unfold route at hdata
  cases hn : Locator.numberIn e data with
  | none => simp [hn] at hdata
  | some n =>
      obtain rfl : x = (Locator.termdKey n, Locator.relay e n data) := by simpa [hn] using hdata
      exact ⟨n, by rw [numberIn_relay, hn], rfl⟩

theorem posted_to_termd {slot : Slot} {p : ProcId} {m : List UInt8}
    (hm : (key (.termd slot), m) ∈ postedBy p tr) : p = .locator := by
  cases p with
  | gateway => simpa using h.posted_by_gateway hm
  | locator => rfl
  | termd slot' => simpa using h.uplink slot' _ hm

/-- What is posted to locator by anyone but gateway is for no terminal. -/
theorem posted_to_locator {slot : Slot} {p : ProcId} {m : List UInt8} (hp : p ≠ .gateway)
    (hm : (key .locator, m) ∈ postedBy p tr) : frameFor e slot m = none := by
  cases p with
  | gateway => exact absurd rfl hp
  | locator =>
      obtain ⟨n, hn, hkey⟩ := h.posted_by_locator hm
      obtain rfl := termdKey_eq_locator.mp hkey.symm
      have hpos := slot.pos
      simp only [frameFor, hn, UInt32.toNat_zero]
      rw [if_neg (by omega)]
  | termd slot' => simpa using h.uplink slot' _ hm

theorem handed_sublist_taken (slot : Slot) : (handed (sawBy (.termd slot) tr)).Sublist
    ((tookBy .locator tr).filterMap (frameFor e slot)) := by
  have hmap : ∀ ms : List (List UInt8),
      ms.filterMap (fun m => some (wireIn e m)) = ms.map (wireIn e) := fun ms =>
    congrFun (List.filterMap_eq_map (f := wireIn e)) ms
  have htaken : ((tookBy (.termd slot) tr).map (wireIn e)).Sublist
      ((sentTo (key (.termd slot)) tr).map (wireIn e)) :=
    (h.taken (.termd slot)).map (wireIn e)
  have hposted : ((sentTo (key (.termd slot)) tr).map (wireIn e)).Sublist
      (((postedBy .locator tr).filterMap (onKey (key (.termd slot)))).map (wireIn e)) := by
    rw [← hmap, ← hmap]
    exact h.sentTo_sublist_postedBy fun q m hq hm => absurd (h.posted_to_termd hm) hq
  have hroute : ((((tookBy .locator tr).flatMap (route e)).filterMap
      (onKey (key (.termd slot)))).map (wireIn e)) =
      (tookBy .locator tr).filterMap (frameFor e slot) := by
    rw [List.filterMap_flatMap, List.map_flatMap, List.filterMap_eq_flatMap_toList]
    exact congrArg (fun f => (tookBy .locator tr).flatMap f)
      (funext fun data => filterMap_route e slot data)
  refine (h.delivered slot).trans (htaken.trans (hposted.trans ?_))
  rw [← hroute]
  exact (h.routed.filterMap _).map (wireIn e)

theorem taken_sublist_cut (slot : Slot) :
    ((tookBy .locator tr).filterMap (frameFor e slot)).Sublist
      ((Gateway.accepted e (sawBy .gateway tr)).filterMap fun f =>
        frameFor e slot (command e f)) := by
  have htaken : ((tookBy .locator tr).filterMap (frameFor e slot)).Sublist
      ((sentTo (key .locator) tr).filterMap (frameFor e slot)) :=
    (h.taken .locator).filterMap _
  have hsent := h.sentTo_sublist_postedBy (p := .gateway) (f := frameFor e slot)
    fun q m hq hm => h.posted_to_locator hq hm
  have hcut := (h.posted.filterMap (onKey (key .locator))).filterMap (frameFor e slot)
  refine htaken.trans (hsent.trans (hcut.trans ?_))
  rw [List.filterMap_map, List.filterMap_filterMap]
  simp [onKey]

end Books

section Runs

variable (h : Run (machine e cap) ok (State.init table) tr s)

include h

theorem postedBy_gateway : postedBy .gateway tr =
    (Gateway.accepted e (sawBy .gateway tr)).map fun f => (key .locator, command e f) :=
  gateway_history.of_run h (Q := fun _ notes posted => posted =
      (Gateway.accepted e notes).map fun f => (key .locator, command e f))
    (fun _ _ _ _ ⟨⟨_, _, hw⟩, hp⟩ => hw.cuts ▸ hp) (by simp)

theorem cuts_eq_accepted :
    Gateway.cuts (sawBy .gateway tr) = Gateway.accepted e (sawBy .gateway tr) :=
  gateway_history.of_run h (Q := fun _ notes _ => Gateway.cuts notes = Gateway.accepted e notes)
    (fun _ _ _ _ ⟨⟨_, _, hw⟩, _⟩ => hw.cuts) Gateway.Abreast.init.cuts

theorem books : Books e tr where
  toLedger := ledger key_injective h
  posted := by rw [postedBy_gateway h]
  routed := locator_history.of_run h
    (Q := fun taken _ posted => posted.Sublist (taken.flatMap (route e)))
    (fun _ _ _ _ hR => hR) (List.Sublist.refl _)
  delivered := fun slot => (termd_history slot).of_run h
    (Q := fun taken notes _ => (handed notes).Sublist (taken.map (wireIn e)))
    (fun _ _ _ _ hR => hR.2) (List.Sublist.refl _)
  uplink := fun slot => (termd_posts slot).of_run h
    (Q := fun _ _ posted => ∀ x ∈ posted, x.1 = key .gateway)
    (fun _ _ _ _ hR => hR) (by simp)

theorem postedBy_locator_sublist :
    (postedBy .locator tr).Sublist ((tookBy .locator tr).flatMap (route e)) :=
  (books h).routed

theorem mem_postedBy_locator {x : ℤ × List UInt8} (hx : x ∈ postedBy .locator tr) :
    ∃ n, Locator.numberIn e x.2 = some n ∧ x.1 = Locator.termdKey n :=
  (books h).posted_by_locator hx

theorem mem_postedBy_termd {slot : Slot} {x : ℤ × List UInt8}
    (hx : x ∈ postedBy (.termd slot) tr) : x.1 = key .gateway :=
  (books h).uplink slot x hx

theorem handed_sublist_taken (slot : Slot) : (handed (sawBy (.termd slot) tr)).Sublist
    ((tookBy .locator tr).filterMap (frameFor e slot)) :=
  (books h).handed_sublist_taken slot

theorem taken_sublist_cut (slot : Slot) :
    ((tookBy .locator tr).filterMap (frameFor e slot)).Sublist
      ((Gateway.accepted e (sawBy .gateway tr)).filterMap fun f =>
        frameFor e slot (command e f)) :=
  (books h).taken_sublist_cut slot

end Runs

theorem frameFor_command {slot : Slot} {frame f : List UInt8} (hacc : Gateway.Accepts e frame)
    (hf : frameFor e slot (command e frame) = some f) :
    f = frame ∧ (LockRequest.ofWire frame).termNo =
      Locator.digits (1000 + slot.val.toInt).toNat := by
  rw [frameFor, numberIn_command] at hf
  cases hn : Locator.number (LockRequest.ofWire frame).termNo with
  | none => simp [hn] at hf
  | some n =>
      simp only [hn, Option.ite_none_right_eq_some, Option.some.injEq] at hf
      obtain ⟨hslot, rfl⟩ := hf
      have hnat : (1000 + slot.val.toInt).toNat = n.toNat := by omega
      exact ⟨wireIn_command hacc, by rw [hnat, Locator.digits_number hn]⟩

/-- The frames a termd hands on are, in order, among the requests for its terminal
that gateway has received. -/
theorem Books.handed_sublist_accepted (h : Books e tr) (slot : Slot) :
    (handed (sawBy (.termd slot) tr)).Sublist
      ((Gateway.accepted e (sawBy .gateway tr)).filter fun f =>
        decide ((LockRequest.ofWire f).termNo =
          Locator.digits (1000 + slot.val.toInt).toNat)) := by
  refine ((h.handed_sublist_taken slot).trans (h.taken_sublist_cut slot)).trans ?_
  rw [← List.filterMap_eq_filter]
  refine filterMap_sublist fun frame hmem f hf => ?_
  obtain ⟨rfl, hnumber⟩ := frameFor_command (Gateway.accepts_of_mem_accepted e hmem) hf
  exact Option.guard_eq_some_iff.mpr ⟨rfl, decide_eq_true hnumber⟩

/-- In every run the frames a termd hands to `TcpServer::send` are, in order
and each used at most once, among the frames gateway has cut from its streams;
they are the bytes gateway received, `unpack_lock_request` accepts them, and
their terminal number is the one of the termd. -/
theorem downlink_integrity {e : Endian} {cap : Option ℕ} {table : Segment} {s : State}
    {tr : List Event} (h : Run (machine e cap) Always (State.init table) tr s) (slot : Slot) :
    Gateway.cuts (sawBy .gateway tr) = Gateway.accepted e (sawBy .gateway tr) ∧
      (handed (sawBy (.termd slot) tr)).Sublist (Gateway.cuts (sawBy .gateway tr)) ∧
      ∀ frame ∈ handed (sawBy (.termd slot) tr),
        frame.length = LockRequest.size ∧
          unpackLockRequest e frame default = (.ok, LockRequest.ofWire frame) ∧
          (LockRequest.ofWire frame).termNo = Locator.digits (1000 + slot.val.toInt).toNat := by
  have hsub := (handed_sublist_taken h slot).trans (taken_sublist_cut h slot)
  have hback : ∀ frame ∈ Gateway.accepted e (sawBy .gateway tr), ∀ f,
      frameFor e slot (command e frame) = some f → some frame = some f := fun frame hmem f hf =>
    congrArg some (frameFor_command (Gateway.accepts_of_mem_accepted e hmem) hf).1.symm
  have hcut : (((Gateway.accepted e (sawBy .gateway tr)).filterMap fun f =>
      frameFor e slot (command e f))).Sublist (Gateway.accepted e (sawBy .gateway tr)) := by
    simpa using filterMap_sublist hback
  refine ⟨cuts_eq_accepted h, cuts_eq_accepted h ▸ hsub.trans hcut, fun frame hframe => ?_⟩
  obtain ⟨f, hmem, hf⟩ := List.mem_filterMap.mp (hsub.subset hframe)
  have hacc := Gateway.accepts_of_mem_accepted e hmem
  obtain ⟨rfl, hterm⟩ := frameFor_command hacc hf
  exact ⟨hacc.1, hacc.2, hterm⟩

/-- A lock request of an older protocol version with a non-zero reserved field. -/
def requestFrame (number : ℕ) : List UInt8 :=
  [0x46, 0x43, 0, 0x10, 0, 24, 0, 7] ++ List.replicate 8 0 ++ [0, 0, 0, 9] ++
    (Locator.digits number).bytes

def slot1 : Slot := ⟨1, by decide⟩

/-- A request arrives in two chunks and is delivered to the terminal it is for. -/
theorem downlink_integrity_delivered :
    ∃ tr s, Run (machine .little none) Always init tr s ∧
      handed (sawBy (.termd slot1) tr) = [requestFrame 1001] ∧
      (handed (sawBy (.termd slot1) tr)).Sublist (Gateway.cuts (sawBy .gateway tr)) := by
  obtain ⟨tr, s, hrun, hhanded⟩ := (machine .little none).exists_run_of_exec Always init
    [.start .gateway .quiet, .start .locator .quiet, .start (.termd slot1) .quiet,
      .idle (.termd slot1) { Env.quiet with accepted := some 6 },
      .idle .gateway { Env.quiet with
        accepted := some 5, received := .data ((requestFrame 1001).take 10) },
      .idle .gateway { Env.quiet with received := .data ((requestFrame 1001).drop 10) },
      .flush .gateway, .recv .locator .quiet, .flush .locator,
      .recv (.termd slot1) { Env.quiet with sends := [.ret 24] }]
    (fun r => decide (handed (sawBy (.termd slot1) r.2) = [requestFrame 1001]))
    (by decide +kernel) (by decide +kernel)
  exact ⟨tr, s, hrun, of_decide_eq_true hhanded, (downlink_integrity hrun slot1).2.1⟩

end System

end Fleetcore
