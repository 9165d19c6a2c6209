import Fleetcore.Acknowledgement
import Fleetcore.EndToEnd

/-!
The acknowledgements in the log of the maintenance screen.

An acknowledgement has come all the way down and back up again. On every stage of
this way there are at most as many messages with a ticket as on the one before, so
that the lines of the log can be counted against each other: at no time does it
have more acknowledgements with a ticket than commands with it.
-/

namespace Fleetcore

open ByteOrder Framing StateMachine Sessions Links Threads Mailbox Matching

/-! ### Tickets in the log -/

def LogLine.acked? : LogLine → Option System.Ticket
  | .ack termNo seq _ => some ⟨seq, termNo⟩
  | _ => none

def LogLine.commanded? (line : LogLine) : Option System.Ticket :=
  line.lockSent?.map fun x => ⟨x.2, TermNo.ofBytes x.1⟩

def LockRequest.ticket (req : LockRequest) : System.Ticket := ⟨req.header.seq, req.termNo⟩

theorem filterMap_commanded (lines : List LogLine) : lines.filterMap LogLine.commanded? =
    (lines.filterMap LogLine.lockSent?).map fun x => ⟨x.2, TermNo.ofBytes x.1⟩ := by
  rw [List.map_filterMap]
  rfl

theorem commanded_of_linesOf {lines : List LogLine} {cs : List Sent}
    (h : lines.filterMap LogLine.lockSent? = linesOf cs) :
    lines.filterMap LogLine.commanded? = (requestsFor cs).map LockRequest.ticket := by
  rw [filterMap_commanded, h, linesOf, requestsFor]
  refine List.ext_getElem? fun i => ?_
  simp only [List.getElem?_map, List.getElem?_mapIdx, Option.map_map]
  rfl

theorem ticketIn_command (e : Endian) (frame : List UInt8) :
    System.ticketIn e (System.command e frame) = (LockRequest.ofWire frame).ticket := by
  rw [System.ticketIn, System.command, IpcLockRequest.ofImage_image, Gateway.forward,
    LockRequest.ticket]

theorem LogLine.commanded?_eq_some {line : LogLine} {c : System.Ticket}
    (h : line.commanded? = some c) :
    ∃ raw, line = .lockSent raw c.seq ∧ TermNo.ofBytes raw = c.termNo := by
  cases line with
  | lockSent raw seq =>
      obtain rfl := Option.some.inj h
      exact ⟨raw, rfl, rfl⟩
  | _ => cases h

namespace MaintWorker

/-- An acknowledgement gets into the log because it has been received. -/
def Quotes : Out LockResponse → Prop
  | .signal (.logLine line) => line.acked? = none
  | _ => True

theorem quotes_of_ofLink {o : Out LockResponse} (h : o.ofLink = true) : Quotes o := by
  cases o with
  | signal x =>
      cases x with
      | logLine line =>
          cases line with
          | ack t n r => cases h
          | _ => exact rfl
      | _ => trivial
  | _ => trivial

theorem acked_lines {os : List (Out LockResponse)} (h : ∀ o ∈ os, Quotes o) :
    (lines os).filterMap LogLine.acked? = (Worker.received os).map System.ticketOf := by
  rw [lines, emitted_eq, List.filterMap_filterMap, List.filterMap_filterMap, Worker.received,
    List.map_filterMap]
  refine List.filterMap_congr fun o ho => ?_
  have hquotes := h o ho
  cases o with
  | signal x =>
      cases x with
      | logLine line => exact hquotes
      | _ => rfl
  | _ => rfl

theorem received_of_ack {os : List (Out LockResponse)} (h : ∀ o ∈ os, Quotes o) {termNo : TermNo}
    {seq : UInt16} {result : UInt8} (hack : .ack termNo seq result ∈ lines os) :
    ∃ rsp ∈ Worker.received os, rsp.result = result := by
  obtain ⟨x, hx, hline⟩ := List.mem_filterMap.mp hack
  obtain ⟨o, ho, hox⟩ := List.mem_filterMap.mp hx
  have hquotes := h o ho
  cases o with
  | signal y =>
      obtain rfl := Option.some.inj hox
      cases y with
      | logLine line =>
          obtain rfl := Option.some.inj hline
          cases hquotes
      | received rsp =>
          cases hline
          exact ⟨rsp, List.mem_filterMap.mpr ⟨_, ho, rfl⟩, rfl⟩
      | linkStateChanged b => cases hline
  | _ => cases hox

/-- No task both sends a command and receives an acknowledgement. -/
structure OneWay (es : List (Out LockResponse)) : Prop where
  quotes : ∀ o ∈ es, Quotes o
  either : Worker.received es = [] ∨ (lines es).filterMap LogLine.lockSent? = []

theorem OneWay.of_ofLink {es : List (Out LockResponse)} (h : ∀ o ∈ es, o.ofLink = true) :
    OneWay es where
  quotes := fun o ho => quotes_of_ofLink (h o ho)
  either := .inr (lockSent?_of_ofLink h)

theorem OneWay.tickets {es : List (Out LockResponse)} (h : OneWay es) :
    (lines es).filterMap LogLine.acked? = [] ∨ (lines es).filterMap LogLine.commanded? = [] := by
  rw [acked_lines h.quotes, filterMap_commanded]
  rcases h.either with hnone | hnone
  · exact .inl (by rw [hnone, List.map_nil])
  · exact .inr (by rw [hnone, List.map_nil])

theorem Serves.oneWay {e : Endian} {w w' : MaintWorker} {t : Task Happening Call Moment}
    {es : List (Out LockResponse)} (h : Serves e w t w' es) : OneWay es := by
  cases h with
  | reacts hr => exact .of_ofLink hr.quiet
  | stops hr => exact .of_ofLink hr.quiet
  | sends hr =>
      refine ⟨?_, .inl hr.outs.2.2.1⟩
      cases hr <;> simp [Quotes, log, LogLine.acked?]

end MaintWorker

namespace Deployment

/-! ### Up the way of the acknowledgements -/

theorem look_of_made (termNo : TermNo) (seq : UInt16) (now : UInt64) :
    headerFramer.look (makeLockResponse termNo seq resultOk now).wire =
      .frame (makeLockResponse termNo seq resultOk now).wire.length
        (makeLockResponse termNo seq resultOk now).wire :=
  (responseFrame termNo seq resultOk now).look_eq

theorem emitted_of_made (e : Endian) (termNo : TermNo) (seq : UInt16) (now : UInt64) :
    (MaintWorker.handleMessage e (makeLockResponse termNo seq resultOk now).wire).emitted? =
      some (LockResponse.ofWire (makeLockResponse termNo seq resultOk now).wire) := by
  have his : (responseFrame termNo seq resultOk now).Is codeLockResponse responseLayout.size :=
    responseLayout.is_frame rfl
  have htaken := emitted?_frame responseLayout e (by decide) (by decide)
    (fun buf => unpackLockResponse_eq e buf default) (responseFrame termNo seq resultOk now)
  rw [if_pos his] at htaken
  exact htaken

variable {o : Hosts} {cap : Option ℕ} {w : World} {tr : List Event}

section Runs

variable (h : Run (machine o cap) Usual World.init tr w)

include h

/-- What the maintenance screen takes are, in order, responses gateway has handed on. -/
theorem acks_sublist_handed : (Worker.received (maintOuts tr)).Sublist
    ((System.handed (sawBy .gateway (tr.filterMap serverEvent))).map LockResponse.ofWire) := by
  have hserver := server_run h
  have hbooks := System.mortal_books hserver
  have hmade : ∀ f ∈ (Connections.handed (served .gateway tr)).map Prod.fst,
      ∃ termNo seq now, f = (makeLockResponse termNo seq resultOk now).wire := fun f hf => by
    rw [served, System.handed_shows] at hf
    exact hbooks.made_of_handed hf
  rw [← System.handed_shows]
  refine received_sublist_of_reads
    (MaintWorker.received_of_run (output_run (worker_run_always (maint_run_always h))) rfl)
    (conn_mono h .gateway) (maint_reads h) (System.untorn_gateway hserver)
    (fun f hf => ?_) fun f hf => ?_
  · obtain ⟨termNo, seq, now, rfl⟩ := hmade f hf
    exact look_of_made termNo seq now
  · obtain ⟨termNo, seq, now, rfl⟩ := hmade f hf
    exact emitted_of_made o.maint termNo seq now

/-- The tickets on locator's queue that come from gateway are those of commands in
the log. -/
theorem count_forwarded_le (c : System.Ticket) :
    ((tr.filterMap serverEvent).filterMap (System.request? o.server)).count c ≤
      ((MaintWorker.lines (maintOuts tr)).filterMap LogLine.commanded?).count c := by
  have hbooks := System.mortal_books (server_run h)
  obtain ⟨cs, hcs⟩ := numbered_maintOuts h
  have hlines : (MaintWorker.lines (maintOuts tr)).filterMap LogLine.commanded? =
      (requestsFor cs).map LockRequest.ticket := commanded_of_linesOf hcs.lines
  have hsent : ((MaintWorker.sent (maintOuts tr)).map fun f => (LockRequest.ofWire f).ticket) =
      (requestsFor cs).map LockRequest.ticket := by
    rw [maintOuts, hcs.sent, ← map_ofWire_framesOf, List.map_map]
    rfl
  -- from the queue back to the socket of the maintenance screen
  have hqueued := (filterMap_onKey_sublist (System.key .locator)
    (sentBy .gateway (tr.filterMap serverEvent))).map (System.ticketIn o.server)
  have hposted := (((hbooks.sent .gateway).trans hbooks.posted).map Prod.snd).map
    (System.ticketIn o.server)
  have htickets : (((Gateway.accepted o.server (sawBy .gateway (tr.filterMap serverEvent))).map
      fun f => (System.key .locator, System.command o.server f)).map Prod.snd).map
        (System.ticketIn o.server) =
          (Gateway.accepted o.server (sawBy .gateway (tr.filterMap serverEvent))).map
            fun f => (LockRequest.ofWire f).ticket := by
    rw [List.map_map, List.map_map]
    exact List.map_congr_left fun f _ => ticketIn_command o.server f
  rw [htickets] at hposted
  rw [System.filterMap_request?, hlines, ← hsent]
  exact ((hqueued.trans hposted).trans ((accepted_sublist_sent h).map _)).count_le c

theorem quotes_maintOuts : ∀ o ∈ maintOuts tr, MaintWorker.Quotes o := by
  refine (output_run (maint_worker_run h)).invariant (fun os _ => ∀ o ∈ os, MaintWorker.Quotes o)
    (fun _ hmem => by cases hmem) fun os w t w' es ih _ hs => ?_
  exact List.forall_mem_append.mpr ⟨ih, (MaintWorker.serves hs).oneWay.quotes⟩

theorem result_of_ack {termNo : TermNo} {seq : UInt16} {result : UInt8}
    (hack : .ack termNo seq result ∈ MaintWorker.lines (maintOuts tr)) : result = resultOk := by
  obtain ⟨rsp, hrsp, rfl⟩ := MaintWorker.received_of_ack (quotes_maintOuts h) hack
  obtain ⟨frame, hframe, rfl⟩ := List.mem_map.mp ((acks_sublist_handed h).subset hrsp)
  obtain ⟨termNo, seq, now, rfl⟩ := (System.mortal_books (server_run h)).made_of_handed hframe
  rw [System.ofWire_wire]
  rfl

/-- There are never more acknowledgements with a ticket than commands with it. -/
theorem covered_lines :
    Covered LogLine.acked? LogLine.commanded? (MaintWorker.lines (maintOuts tr)) := by
  intro c
  have hacks := ((acks_sublist_handed h).map System.ticketOf).count_le c
  rw [List.map_map] at hacks
  have hcovered := (System.mortal_books (server_run h)).covered c
  rw [System.filterMap_answer?] at hcovered
  rw [MaintWorker.acked_lines (quotes_maintOuts h)]
  exact hacks.trans (hcovered.trans (count_forwarded_le h c))

end Runs

/-! ### In time -/

def logged (ev : Event) : Option LogLine :=
  (maintEvent ev).bind fun x => (outputIn x).bind fun out => out.signal?.bind Signal.line?

theorem lines_maintOuts (tr : List Event) :
    MaintWorker.lines (maintOuts tr) = tr.filterMap logged := by
  rw [MaintWorker.lines, emitted_eq, maintOuts, outputs_done, List.filterMap_filterMap,
    List.filterMap_filterMap, List.filterMap_filterMap]
  rfl

theorem oneWay_of_maint {p p' : MaintScreen} {a : MaintAction} {es : List MaintEvent}
    (h : (maintScreen o.maint).machine.step p a = some (p', es)) :
    MaintWorker.OneWay (outputs (done es)) := by
  cases step_cases h with
  | @work i w ds hw =>
      rw [done_map_worker]
      exact (MaintWorker.serves (serve_of_workerStep ds hw).1).oneWay
  | @call j c cs w ds hc hw =>
      rw [done_map_worker]
      exact (MaintWorker.serves (serve_of_workerStep ds hw).1).oneWay
  | display hx hv => exact .of_ofLink fun _ hmem => by cases hmem
  | use hu =>
      rw [done_window, done_map_issued]
      exact .of_ofLink fun _ hmem => by cases hmem

theorem acked_or_commanded {w w' : World} {a : Act} {es : List Event}
    (h : (machine o cap).step w a = some (w', es)) :
    es.filterMap (fun ev => (logged ev).bind LogLine.acked?) = [] ∨
      es.filterMap (fun ev => (logged ev).bind LogLine.commanded?) = [] := by
  have hway : MaintWorker.OneWay (maintOuts es) := by
    cases Net.step_cases h with
    | drop hq => exact .of_ofLink fun _ hmem => by cases hmem
    | of hparts hq =>
        cases partsStep_cases hparts with
        | server hs =>
            rw [maintOuts, view_map_none (fun _ => rfl)]
            exact .of_ofLink fun _ hmem => by cases hmem
        | maint hs =>
            rw [maintOuts, view_map_some Event.maint (fun _ => rfl)]
            exact oneWay_of_maint hs
        | terminal hs =>
            rw [maintOuts, view_map_none (fun _ => rfl)]
            exact .of_ofLink fun _ hmem => by cases hmem
  rw [← List.filterMap_filterMap, ← List.filterMap_filterMap, ← lines_maintOuts]
  exact hway.tickets

theorem throughout_log (h : Run (machine o cap) Usual World.init tr w) :
    Throughout LogLine.acked? LogLine.commanded? w.1.maint.window.log := by
  have hlines : Throughout LogLine.acked? LogLine.commanded? (tr.filterMap logged) :=
    throughout_filterMap logged (Run.throughout h (fun tr w hrun c => by
      have hcovered := covered_lines hrun c
      rwa [lines_maintOuts, List.filterMap_filterMap, List.filterMap_filterMap] at hcovered)
        fun _ _ _ _ hs => acked_or_commanded hs)
  refine throughout_of_prefix hlines ⟨w.1.maint.signals.filterMap Signal.line?, ?_⟩
  rw [← lines_maintOuts, lines_eq_log h]

/-- Every acknowledgement in the log of the maintenance screen has a command of its
own there: one with the same terminal number and the same sequence number, logged
before it, that no other acknowledgement has. And all of them say that the command
has been carried out. -/
theorem acks_in_log_answer_commands {o : Hosts} {cap : Option ℕ} {w : World} {tr : List Event}
    (h : Run (machine o cap) Usual World.init tr w) :
    ∃ f : ℕ → ℕ,
      (∀ i termNo seq result, w.1.maint.window.log[i]? = some (.ack termNo seq result) →
        result = resultOk ∧ f i < i ∧ ∃ raw,
          w.1.maint.window.log[f i]? = some (.lockSent raw seq) ∧ TermNo.ofBytes raw = termNo) ∧
      ∀ i termNo seq result i' termNo' seq' result',
        w.1.maint.window.log[i]? = some (.ack termNo seq result) →
        w.1.maint.window.log[i']? = some (.ack termNo' seq' result') → f i = f i' → i = i' := by
  have hone : ∀ line : LogLine, line.acked? = none ∨ line.commanded? = none := fun line => by
    cases line with
    | ack t n r => exact .inr rfl
    | _ => exact .inl rfl
  obtain ⟨f, hf⟩ := exists_matching hone (throughout_log h)
  have hanswer : ∀ i termNo seq result, w.1.maint.window.log[i]? = some (.ack termNo seq result) →
      keyAt LogLine.acked? w.1.maint.window.log i = some ⟨seq, termNo⟩ :=
    fun i termNo seq result hi => by
      rw [keyAt, hi]
      rfl
  refine ⟨f, fun i termNo seq result hi => ⟨?_, ?_⟩, ?_⟩
  · have hack : .ack termNo seq result ∈ MaintWorker.lines (maintOuts tr) := by
      rw [lines_eq_log h]
      exact List.mem_append_left _ (List.mem_of_getElem? hi)
    exact result_of_ack h hack
  · obtain ⟨hlt, hreq⟩ := hf.earlier i _ (hanswer i termNo seq result hi)
    obtain ⟨line, hline, hticket⟩ := Option.bind_eq_some_iff.mp hreq
    obtain ⟨raw, rfl, hraw⟩ := LogLine.commanded?_eq_some hticket
    exact ⟨hlt, raw, hline, hraw⟩
  · intro i termNo seq result i' termNo' seq' result' hi hi' heq
    exact hf.own i i' (by simp [hanswer i termNo seq result hi])
      (by simp [hanswer i' termNo' seq' result' hi']) heq

/-- A command goes down to terminal 1001, and the acknowledgement comes back in two
pieces, through a gateway and on a connection of which neither has seen the command. -/
theorem acks_in_log_answer_commands_round_trip : ∃ tr w,
    Run (machine ⟨.little, .little, fun _ => .little⟩ none) Usual World.init tr w ∧
      w.1.maint.window.log[6]? = some (.ack ⟨0x31, 0x30, 0x30, 0x31⟩ 1 resultOk) ∧
      ∃ f : ℕ → ℕ,
        ∀ i termNo seq result, w.1.maint.window.log[i]? = some (.ack termNo seq result) →
          result = resultOk ∧ f i < i ∧ ∃ raw,
            w.1.maint.window.log[f i]? = some (.lockSent raw seq) ∧
              TermNo.ofBytes raw = termNo := by
  let request := (makeLockRequest ⟨0x31, 0x30, 0x30, 0x31⟩ 1 7).wire
  let response := (makeLockResponse ⟨0x31, 0x30, 0x30, 0x31⟩ 1 resultOk 0).wire
  let server (a : System.Action) : Act := .of (.server (.step a))
  let maint (a : MaintAction) : Act := .of (.maint a)
  obtain ⟨tr, w, hrun, hlast⟩ :=
    (machine ⟨.little, .little, fun _ => .little⟩ none).exists_run_of_exec Usual World.init
    [server (.start .gateway .quiet), server (.start .locator .quiet),
      server (.start (.termd System.slot1) .quiet), maint (.work .started),
      .of (.terminal System.slot1 (.work .started)), maint (.work .connected),
      .of (.terminal System.slot1 (.work .connected)),
      server (.idle .gateway { Env.quiet with accepted := some 5 }),
      server (.idle (.termd System.slot1) { Env.quiet with accepted := some 6 }),
      maint .display, maint .display, maint .display, maint (.use .lockClicked),
      maint (.call ⟨7, 24⟩), maint .display,
      server (.idle .gateway { Env.quiet with received := .data request }),
      server (.flush .gateway), .of (.server (.down .gateway false)),
      server (.recv .locator .quiet), server (.flush .locator),
      server (.recv (.termd System.slot1) { Env.quiet with sends := [.ret 24] }),
      maint (.work .disconnected), maint .display, maint .display, server (.start .gateway .quiet),
      maint (.work .timeout), maint .display, maint (.work .connected), maint .display,
      maint .display, server (.idle .gateway { Env.quiet with accepted := some 5 }),
      server (.flush (.termd System.slot1)),
      server (.recv .gateway { Env.quiet with sends := [.ret 28] }),
      maint (.work (.readyRead (response.take 9))), maint (.work (.readyRead (response.drop 9))),
      maint .display]
    (fun r => decide (r.1.1.maint.window.log[6]? =
      some (LogLine.ack ⟨0x31, 0x30, 0x30, 0x31⟩ 1 resultOk)))
    (by decide +kernel) (by decide +kernel)
  obtain ⟨f, hf, -⟩ := acks_in_log_answer_commands hrun
  exact ⟨tr, w, hrun, of_decide_eq_true hlast, f, hf⟩

end Deployment

end Fleetcore
