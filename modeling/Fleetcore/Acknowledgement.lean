import Fleetcore.Delivery
import Fleetcore.Downlink
import Fleetcore.Lib.Matching
import Fleetcore.WholeFrames

/-!
Every acknowledgement answers a command, once.

An acknowledgement is built by termd from what it has taken off its queue, goes
to gateway past locator and is encoded there. What ties it to its command is
the sequence number and the terminal number, and the terminal number says which
termd it has been at. So it is enough to follow one such ticket at a time: on
every stage of its way there are at most as many messages that carry it as on
the stage before.
-/

namespace Fleetcore.System

open ByteOrder StateMachine Mailbox Matching

/-! ### Tickets -/

structure Ticket where
  seq : UInt16
  termNo : TermNo
  deriving DecidableEq

def ticketIn (e : Endian) (data : List UInt8) : Ticket :=
  ⟨(IpcLockRequest.ofImage e data).msg.header.seq, (IpcLockRequest.ofImage e data).msg.termNo⟩

def ackIn (e : Endian) (data : List UInt8) : LockResponse := (IpcLockResponse.ofImage e data).msg

def ticketOf (m : LockResponse) : Ticket := ⟨m.header.seq, m.termNo⟩

/-- The ticket of a frame that is handed to the maintenance terminal. -/
def answer? : Event → Option Ticket
  | .saw .gateway (.handed frame _) => some (ticketOf (LockResponse.ofWire frame))
  | _ => none

/-- The ticket of a request that gateway forwards. -/
def request? (e : Endian) : Event → Option Ticket
  | .sent .gateway k data => if k = key .locator then some (ticketIn e data) else none
  | _ => none

theorem ackIn_image (e : Endian) (m : IpcLockResponse) : ackIn e (m.image e) = m.msg := by
  rw [ackIn, IpcLockResponse.ofImage_image]

theorem ticketIn_relay (e : Endian) (n : UInt32) (data : List UInt8) :
    ticketIn e (Locator.relay e n data) = ticketIn e data := by
  rw [ticketIn, Locator.msg_relay, ← ticketIn]

theorem ofWire_wire (m : LockResponse) : LockResponse.ofWire m.wire = m :=
  responseLayout.ofWire_wire_self m

theorem unpackLockResponse_made (e : Endian) (termNo : TermNo) (seq : UInt16) (result : UInt8)
    (now : UInt64) (out : LockResponse) :
    unpackLockResponse e (makeLockResponse termNo seq result now).wire out =
      (.ok, makeLockResponse termNo seq result now) := by
  have hbytes : (responseFrame termNo seq result now).bytes =
      (makeLockResponse termNo seq result now).wire := rfl
  have his : (responseFrame termNo seq result now).Is codeLockResponse responseLayout.size :=
    responseLayout.is_frame rfl
  have hok := Frame.verdict_eq_ok _ (by decide) (by decide) his
  rw [hbytes] at hok
  rw [unpackLockResponse_eq, responseLayout.decode_of_ok out hok]
  exact congrArg (Prod.mk WireError.ok) (ofWire_wire _)

/-! ### What the processes do with acknowledgements -/

section Histories

variable {e : Endian} {ok : State → Action → Prop}

theorem handed_onIdle_gateway (e : Endian) (env : Env) (w : Gateway) (table : Segment) :
    handed (w.onIdle e env table).obs = [] := by
  have hread := (Connections.read_hands_nothing e env (Connections.accept env w) table).1
  refine List.filterMap_eq_nil_iff.mpr fun n hn => ?_
  rw [Connections.onIdle_eq] at hn
  cases n with
  | handed frame call =>
      rcases List.mem_append.mp hn with hconnected | hnote
      · split at hconnected <;> simp at hconnected
      · exact absurd hnote (hread frame call)
  | _ => rfl

theorem handed_onLockResponse (e : Endian) (env : Env) (w : Gateway) (table : Segment)
    (data : List UInt8) :
    (handed (w.onLockResponse e env table data).obs).Sublist [(ackIn e data).wire] := by
  have hroom : LockResponse.size ≤ outBuffer.length := by simp [LockResponse.size, maxMessageLen]
  have hout := written_packLockResponse e (ackIn e data) hroom
  simp only [Gateway.onLockResponse]
  split
  · exact List.nil_sublist _
  · split
    · exact List.nil_sublist _
    · split
      · exact List.nil_sublist _
      · rw [← hout]
        exact List.Sublist.refl _

theorem gateway_hands : History (program e) ok .gateway fun loc taken notes _ =>
    (∃ w, loc = .gateway w) ∧
      (handed notes).Sublist (taken.map fun data => (ackIn e data).wire) where
  start := by
    intro s env r _ hr
    obtain rfl := Option.some.inj hr
    exact ⟨⟨_, rfl⟩, List.Sublist.refl _⟩
  recv := by
    rintro s env loc m rest r ms os xs _ _ ⟨⟨w, rfl⟩, h⟩ hr
    simp only [program, recv_gateway, Option.ite_none_left_eq_some, Option.some.injEq] at hr
    obtain ⟨-, rfl⟩ := hr
    refine ⟨⟨_, rfl⟩, ?_⟩
    rw [lift, handed_append, List.map_append]
    refine h.append ?_
    split
    · exact handed_onLockResponse e env w s.shared m
    · exact List.nil_sublist _
  idle := by
    rintro s env loc r ms os xs _ ⟨⟨w, rfl⟩, h⟩ hr
    simp only [program, idle, Option.ite_none_left_eq_some, Option.some.injEq] at hr
    obtain ⟨-, rfl⟩ := hr
    refine ⟨⟨_, rfl⟩, ?_⟩
    rw [lift, handed_append, handed_onIdle_gateway, List.append_nil]
    exact h

theorem termd_acks (slot : Slot) : History (program e) ok (.termd slot) fun _ taken _ posted =>
    (posted.map fun x => ticketOf (ackIn e x.2)).Sublist (taken.map (ticketIn e)) ∧
      ∀ x ∈ posted, ∃ m now, x.2 = (Termd.ackOf m now).image e where
  start := fun s env r _ hr => by
    rw [sends_start hr]
    exact ⟨List.Sublist.refl _, by simp⟩
  recv := by
    rintro s env loc m rest r ms os xs _ _ ⟨hsub, hbuilt⟩ hr
    rw [List.map_append, List.map_append]
    rcases sends_recv_termd hr with hnone | hsends
    · rw [hnone, List.append_nil]
      exact ⟨hsub.append (List.nil_sublist _), hbuilt⟩
    · rw [hsends]
      refine ⟨hsub.append ?_, fun x hx => ?_⟩
      · rw [List.map_singleton, List.map_singleton, ackIn_image]
        exact List.Sublist.refl _
      · rcases List.mem_append.mp hx with hold | hnew
        · exact hbuilt x hold
        · exact ⟨_, _, congrArg Prod.snd (List.mem_singleton.mp hnew)⟩
  idle := fun s env loc r ms os xs _ h hr => by
    rw [sends_idle (by simp) hr, List.append_nil]
    exact h

end Histories

/-! ### The way of a ticket -/

def Serves (slot : Slot) (c : Ticket) : Prop :=
  ∃ n, Locator.number c.termNo = some n ∧ Locator.termdKey n = key (.termd slot)

theorem Serves.unique {slot slot' : Slot} {c : Ticket} (h : Serves slot c) (h' : Serves slot' c) :
    slot = slot' := by
  obtain ⟨n, hn, hkey⟩ := h
  obtain ⟨n', hn', hkey'⟩ := h'
  obtain rfl : n = n' := Option.some.inj (hn.symm.trans hn')
  exact ProcId.termd.inj (key_inj.mp (hkey.symm.trans hkey'))

structure AckBooks (e : Endian) (tr : List Event) : Prop extends Books e tr where
  acked : ∀ slot, ((postedBy (.termd slot) tr).map fun x => ticketOf (ackIn e x.2)).Sublist
    ((tookBy (.termd slot) tr).map (ticketIn e))
  built : ∀ slot, ∀ x ∈ postedBy (.termd slot) tr, ∃ m now, x.2 = (Termd.ackOf m now).image e
  answered : (handed (sawBy .gateway tr)).Sublist
    ((tookBy .gateway tr).map fun data => (ackIn e data).wire)

theorem filterMap_answer? (tr : List Event) : tr.filterMap answer? =
    (handed (sawBy .gateway tr)).map fun f => ticketOf (LockResponse.ofWire f) := by
  rw [handed, List.filterMap_filterMap, List.map_filterMap]
  refine List.filterMap_congr fun ev _ => ?_
  cases ev with
  | saw p o =>
      cases p with
      | gateway => cases o <;> simp [answer?, Event.sawBy?]
      | _ => simp [answer?, Event.sawBy?]
  | _ => rfl

theorem filterMap_request? (e : Endian) (tr : List Event) : tr.filterMap (request? e) =
    ((sentBy .gateway tr).filterMap (onKey (key .locator))).map (ticketIn e) := by
  rw [List.filterMap_filterMap, List.map_filterMap]
  refine List.filterMap_congr fun ev _ => ?_
  cases ev with
  | sent p k m =>
      cases p with
      | gateway =>
          by_cases hk : k = key .locator
          · simp [request?, Event.sentBy?, onKey, hk]
          · simp [request?, Event.sentBy?, onKey, hk]
      | _ => simp [request?, Event.sentBy?]
  | _ => rfl

namespace AckBooks

variable {e : Endian} {tr : List Event} (h : AckBooks e tr)

include h

/-- What a termd acknowledges it has taken off its queue, where locator put it
because of its number. -/
theorem serves_of_acked {slot : Slot} {x : ℤ × List UInt8} (hx : x ∈ postedBy (.termd slot) tr) :
    Serves slot (ticketOf (ackIn e x.2)) := by
  obtain ⟨data, hdata, hticket⟩ :=
    List.mem_map.mp ((h.acked slot).subset (List.mem_map_of_mem hx))
  obtain ⟨p, hposted⟩ := h.posted_of_took hdata
  obtain rfl := h.posted_to_termd hposted
  obtain ⟨n, hn, hkey⟩ := h.posted_by_locator hposted
  exact ⟨n, by rw [← hticket]; exact hn, hkey.symm⟩

theorem posted_to_gateway {p : ProcId} {m : List UInt8}
    (hm : (key .gateway, m) ∈ postedBy p tr) : ∃ slot, p = .termd slot := by
  cases p with
  | gateway => simpa using h.posted_by_gateway hm
  | locator =>
      obtain ⟨n, -, hkey⟩ := h.posted_by_locator hm
      exact absurd hkey.symm (termdKey_ne_gateway n)
  | termd slot => exact ⟨slot, rfl⟩

theorem acked_of_taken {data : List UInt8} (hdata : data ∈ tookBy .gateway tr) :
    ∃ slot, (key .gateway, data) ∈ postedBy (.termd slot) tr := by
  obtain ⟨p, hposted⟩ := h.posted_of_took hdata
  obtain ⟨slot, rfl⟩ := h.posted_to_gateway hposted
  exact ⟨slot, hposted⟩

theorem count_handed_le {slot : Slot} {c : Ticket} (hc : Serves slot c) :
    ((handed (sawBy .gateway tr)).map fun f => ticketOf (LockResponse.ofWire f)).count c ≤
      ((tookBy (.termd slot) tr).map (ticketIn e)).count c := by
  have hback := h.answered.map fun f => ticketOf (LockResponse.ofWire f)
  simp only [List.map_map, Function.comp_def, ofWire_wire] at hback
  have hother : ∀ q m, q ≠ .termd slot → (key .gateway, m) ∈ postedBy q tr →
      ticketOf (ackIn e m) ≠ c := by
    rintro q m hq hm rfl
    obtain ⟨slot', rfl⟩ := h.posted_to_gateway hm
    exact hq (congrArg ProcId.termd ((h.serves_of_acked hm).unique hc))
  calc ((handed (sawBy .gateway tr)).map fun f => ticketOf (LockResponse.ofWire f)).count c
      ≤ ((tookBy .gateway tr).map fun d => ticketOf (ackIn e d)).count c := hback.count_le c
    _ ≤ ((sentTo (key .gateway) tr).map fun d => ticketOf (ackIn e d)).count c :=
        h.count_tookBy_le .gateway _ c
    _ ≤ ((postedBy (.termd slot) tr).map fun x => ticketOf (ackIn e x.2)).count c :=
        h.count_sentTo_le hother
    _ ≤ ((tookBy (.termd slot) tr).map (ticketIn e)).count c := (h.acked slot).count_le c

theorem count_taken_le {slot : Slot} {c : Ticket} (hc : Serves slot c) :
    ((tookBy (.termd slot) tr).map (ticketIn e)).count c ≤
      (((sentBy .gateway tr).filterMap (onKey (key .locator))).map (ticketIn e)).count c := by
  -- a command that locator sends back to itself is for no terminal
  have hother : ∀ q m, q ≠ .gateway → (key .locator, m) ∈ postedBy q tr → ticketIn e m ≠ c := by
    rintro q m hq hm rfl
    cases q with
    | gateway => exact hq rfl
    | locator =>
        obtain ⟨n, hn, hkey⟩ := h.posted_by_locator hm
        obtain ⟨n', hn', hkey'⟩ := hc
        obtain rfl : n = n' := Option.some.inj (hn.symm.trans hn')
        simpa using hkey.trans hkey'
    | termd slot' => simpa using h.uplink slot' _ hm
  calc ((tookBy (.termd slot) tr).map (ticketIn e)).count c
      ≤ ((sentTo (key (.termd slot)) tr).map (ticketIn e)).count c :=
        h.count_tookBy_le (.termd slot) _ c
    _ ≤ ((postedBy .locator tr).map fun x => ticketIn e x.2).count c :=
        h.count_sentTo_le fun q m hq hm => absurd (h.posted_to_termd hm) hq
    _ ≤ (((tookBy .locator tr).flatMap (route e)).map fun x => ticketIn e x.2).count c :=
        (h.routed.map _).count_le c
    _ ≤ ((tookBy .locator tr).map (ticketIn e)).count c :=
        (route_sublist (ticketIn_relay e) _).count_le c
    _ ≤ ((sentTo (key .locator) tr).map (ticketIn e)).count c :=
        h.count_tookBy_le .locator _ c
    _ = (((sentBy .gateway tr).filterMap (onKey (key .locator))).map (ticketIn e)).count c :=
        h.count_sentTo hother

theorem covered : Covered answer? (request? e) tr := by
  intro c
  rw [filterMap_answer?, filterMap_request?]
  rcases Nat.eq_zero_or_pos (((handed (sawBy .gateway tr)).map
    fun f => ticketOf (LockResponse.ofWire f)).count c) with hzero | hpos
  · rw [hzero]
    exact Nat.zero_le _
  · -- some acknowledgement carries the ticket, so that it is the ticket of a slot
    obtain ⟨frame, hframe, hticket⟩ := List.mem_map.mp (List.count_pos_iff.mp hpos)
    obtain ⟨data, hdata, rfl⟩ := List.mem_map.mp (h.answered.subset hframe)
    obtain ⟨slot, hposted⟩ := h.acked_of_taken hdata
    have hserves := h.serves_of_acked hposted
    rw [ofWire_wire] at hticket
    rw [hticket] at hserves
    exact (h.count_handed_le hserves).trans (h.count_taken_le hserves)

theorem made_of_handed {frame : List UInt8} (hframe : frame ∈ handed (sawBy .gateway tr)) :
    ∃ termNo seq now, frame = (makeLockResponse termNo seq resultOk now).wire := by
  obtain ⟨data, hdata, rfl⟩ := List.mem_map.mp (h.answered.subset hframe)
  obtain ⟨slot, hposted⟩ := h.acked_of_taken hdata
  obtain ⟨m, now, hack⟩ := h.built slot _ hposted
  obtain rfl : data = (Termd.ackOf m now).image e := hack
  exact ⟨m.termNo, m.header.seq, now, congrArg LockResponse.wire (ackIn_image e _)⟩

end AckBooks

section Runs

variable {e : Endian} {cap : Option ℕ} {ok : State → Action → Prop} {table : Segment}
  {s : State} {tr : List Event} (h : Run (machine e cap) ok (State.init table) tr s)

include h

theorem ackBooks : AckBooks e tr where
  toBooks := books h
  acked := fun slot => (termd_acks slot).of_run h
    (Q := fun taken _ posted =>
      (posted.map fun x => ticketOf (ackIn e x.2)).Sublist (taken.map (ticketIn e)))
    (fun _ _ _ _ hR => hR.1) (List.Sublist.refl _)
  built := fun slot => (termd_acks slot).of_run h
    (Q := fun _ _ posted => ∀ x ∈ posted, ∃ m now, x.2 = (Termd.ackOf m now).image e)
    (fun _ _ _ _ hR => hR.2) (by simp)
  answered := gateway_hands.of_run h
    (Q := fun taken notes _ => (handed notes).Sublist (taken.map fun d => (ackIn e d).wire))
    (fun _ _ _ _ hR => hR.2) (List.Sublist.refl _)

theorem covered : Covered answer? (request? e) tr := (ackBooks h).covered

theorem made_of_handed {frame : List UInt8} (hframe : frame ∈ handed (sawBy .gateway tr)) :
    ∃ termNo seq now, frame = (makeLockResponse termNo seq resultOk now).wire :=
  (ackBooks h).made_of_handed hframe

end Runs

/-- No step both forwards requests and hands acknowledgements over. -/
theorem answer_or_request {e : Endian}
    {g : Mailbox.Program ProcId ℤ (List UInt8) Loc Segment Env Note} {cap : Option ℕ}
    {s s' : State} {a : Action} {es : List Event} (hs : g.step cap s a = some (s', es)) :
    es.filterMap answer? = [] ∨ es.filterMap (request? e) = [] := by
  have hreaction : ∀ (p : ProcId) (r : Mailbox.Reaction ℤ (List UInt8) Loc Segment Note),
      (r.events p).filterMap (request? e) = [] := by
    intro p r
    refine List.filterMap_eq_nil_iff.mpr fun ev hev => ?_
    rcases List.mem_append.mp hev with hsaw | hposted
    · obtain ⟨o, -, rfl⟩ := List.mem_map.mp hsaw
      rfl
    · obtain ⟨x, -, rfl⟩ := List.mem_map.mp hposted
      rfl
  cases step_cases hs with
  | start hp hr => exact .inr (hreaction _ _)
  | recv hp hq hr => exact .inr (hreaction _ _)
  | idle hp hq hr => exact .inr (hreaction _ _)
  | lost hp hq => exact .inl rfl
  | sent hp hq hroom => exact .inl rfl

/-- What an acknowledgement that is handed over has to be, for the request `data`. -/
structure Acknowledges (e : Endian) (frame data : List UInt8) : Prop where
  seq : (LockResponse.ofWire frame).header.seq = (IpcLockRequest.ofImage e data).msg.header.seq
  termNo : (LockResponse.ofWire frame).termNo = (IpcLockRequest.ofImage e data).msg.termNo
  accepted : ∀ e' out, unpackLockResponse e' frame out = (.ok, LockResponse.ofWire frame)
  size : frame.length = 28 ∧ (LockResponse.ofWire frame).header.length = 28
  code : (LockResponse.ofWire frame).header.code = 0x20
  version : (LockResponse.ofWire frame).header.version = 1
  reserved : (LockResponse.ofWire frame).header.reserved = 0 ∧
    (LockResponse.ofWire frame).reserved = (0, 0, 0)

theorem acknowledges_made {e : Endian} {termNo : TermNo} {seq : UInt16} {now : UInt64}
    {data : List UInt8} (h : ticketIn e data =
      ticketOf (LockResponse.ofWire (makeLockResponse termNo seq resultOk now).wire)) :
    Acknowledges e (makeLockResponse termNo seq resultOk now).wire data where
  seq := (congrArg Ticket.seq h).symm
  termNo := (congrArg Ticket.termNo h).symm
  accepted := fun e' out => by rw [unpackLockResponse_made, ofWire_wire]
  size := by
    rw [ofWire_wire]
    exact ⟨LockResponse.length_wire _, rfl⟩
  code := by rw [ofWire_wire]; rfl
  version := by rw [ofWire_wire]; rfl
  reserved := by
    rw [ofWire_wire]
    exact ⟨rfl, rfl⟩

theorem request?_eq_some {e : Endian} {ev : Event} {c : Ticket} (h : request? e ev = some c) :
    ∃ data, ev = .sent .gateway (key .locator) data ∧ ticketIn e data = c := by
  cases ev with
  | sent p k data =>
      cases p with
      | gateway =>
          simp only [request?, Option.ite_none_right_eq_some, Option.some.injEq] at h
          obtain ⟨rfl, hc⟩ := h
          exact ⟨data, rfl, hc⟩
      | _ => simp [request?] at h
  | _ => simp [request?] at h

/-- In every run each frame that gateway hands to `TcpServer::send` acknowledges
a request of its own: one that gateway forwarded before, with the same sequence
number and terminal number, and that no other frame acknowledges. -/
theorem acks_answer_requests {e : Endian} {cap : Option ℕ} {table : Segment} {s : State}
    {tr : List Event} (h : Run (machine e cap) Always (State.init table) tr s) :
    ∃ f : ℕ → ℕ,
      (∀ i frame call, tr[i]? = some (.saw .gateway (.handed frame call)) → f i < i ∧
        ∃ data, tr[f i]? = some (.sent .gateway (key .locator) data) ∧
          Acknowledges e frame data) ∧
      ∀ i frame call i' frame' call', tr[i]? = some (.saw .gateway (.handed frame call)) →
        tr[i']? = some (.saw .gateway (.handed frame' call')) → f i = f i' → i = i' := by
  -- an answer is seen at a socket, a request at a queue
  have hone : ∀ ev, answer? ev = none ∨ request? e ev = none := fun ev => by
    cases ev with
    | saw p o => exact .inr rfl
    | _ => exact .inl rfl
  obtain ⟨f, hf⟩ := exists_matching hone
    (Run.throughout h (fun _ _ hrun => covered hrun) fun _ _ _ _ hs => answer_or_request hs)
  have hanswer : ∀ i frame call, tr[i]? = some (.saw .gateway (.handed frame call)) →
      keyAt answer? tr i = some (ticketOf (LockResponse.ofWire frame)) := by
    intro i frame call hi
    rw [keyAt, hi]
    rfl
  refine ⟨f, fun i frame call hi => ?_, fun i frame call i' frame' call' hi hi' heq => ?_⟩
  · obtain ⟨hlt, hreq⟩ := hf.earlier i _ (hanswer i frame call hi)
    refine ⟨hlt, ?_⟩
    obtain ⟨ev, hev, hkey⟩ := Option.bind_eq_some_iff.mp hreq
    have hframe : frame ∈ handed (sawBy .gateway tr) :=
      List.mem_filterMap.mpr ⟨.handed frame call, List.mem_filterMap.mpr
        ⟨_, List.mem_of_getElem? hi, by simp [Event.sawBy?]⟩, rfl⟩
    obtain ⟨termNo, seq, now, rfl⟩ := made_of_handed h hframe
    obtain ⟨data, rfl, hticket⟩ := request?_eq_some hkey
    exact ⟨data, hev, acknowledges_made hticket⟩
  · apply hf.own i i'
    · simp [hanswer i frame call hi]
    · simp [hanswer i' frame' call' hi']
    · exact heq

/-- A request goes down, and its acknowledgement comes back. -/
theorem acks_answer_requests_round_trip : ∃ tr s,
    Run (machine .little none) Always init tr s ∧
      (handed (sawBy .gateway tr)).length = 1 ∧
      ∃ f : ℕ → ℕ,
        (∀ i frame call, tr[i]? = some (.saw .gateway (.handed frame call)) → f i < i ∧
          ∃ data, tr[f i]? = some (.sent .gateway (key .locator) data) ∧
            Acknowledges .little frame data) ∧
        ∀ i frame call i' frame' call', tr[i]? = some (.saw .gateway (.handed frame call)) →
          tr[i']? = some (.saw .gateway (.handed frame' call')) → f i = f i' → i = i' := by
  obtain ⟨tr, s, hrun, hcount⟩ := (machine .little none).exists_run_of_exec Always init
    [.start .gateway .quiet, .start .locator .quiet, .start (.termd slot1) .quiet,
      .idle (.termd slot1) { Env.quiet with accepted := some 6 },
      .idle .gateway { Env.quiet with
        accepted := some 5, received := .data (requestFrame 1001) },
      .flush .gateway, .recv .locator .quiet, .flush .locator,
      .recv (.termd slot1) { Env.quiet with sends := [.ret 24] }, .flush (.termd slot1),
      .recv .gateway { Env.quiet with sends := [.ret 28] }]
    (fun r => decide ((handed (sawBy .gateway r.2)).length = 1))
    (by decide +kernel) (by decide +kernel)
  exact ⟨tr, s, hrun, of_decide_eq_true hcount, acks_answer_requests hrun⟩

end Fleetcore.System
