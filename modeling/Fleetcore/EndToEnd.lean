import Fleetcore.Deployment

/-!
From the button of the maintenance screen to a terminal, and back to the log.

Every stage of the way has its own law: the screens number and read whole
messages, a connection hands on a beginning of what was written, gateway,
locator and termd pass on what they took, each message at most once. This module
puts them together.
-/

namespace Fleetcore.Deployment

open ByteOrder Framing StateMachine Sessions Links Threads Mailbox

/-! ### Frames -/

theorem header_of_accepts {e : Endian} {frame : List UInt8} (h : Gateway.Accepts e frame) :
    (Header.ofWire frame).check = .ok ∧ (Header.ofWire frame).code = codeLockRequest ∧
      (Header.ofWire frame).length.toNat = frame.length := by
  obtain ⟨hlen, hok⟩ := h
  obtain ⟨-, -, hcheck, hcode, hlength⟩ := unpackLockRequest_ok hok
  exact ⟨hcheck, hcode, hlength.trans hlen.symm⟩

theorem look_of_accepts {e : Endian} {frame : List UInt8} (h : Gateway.Accepts e frame) :
    headerFramer.look frame = .frame frame.length frame := by
  obtain ⟨hcheck, -, hlength⟩ := header_of_accepts h
  change lookHeader frame = _
  rw [lookHeader_whole (Header.inRange_of_check hcheck) hlength.le, if_pos hcheck, hlength,
    List.take_length]

theorem accepts_made (e : Endian) (termNo : TermNo) (seq : UInt16) (now : UInt64) :
    Gateway.Accepts e (makeLockRequest termNo seq now).wire := by
  have hheader : Header.ofWire (makeLockRequest termNo seq now).wire =
      (makeLockRequest termNo seq now).header := requestLayout.header_wire _
  refine ⟨LockRequest.length_wire _, unpackLockRequest_of_rules e default
    (LockRequest.length_wire _).ge ?_ ?_ ?_⟩
  · rw [hheader]
    rfl
  · rw [hheader]
    rfl
  · rw [hheader]
    rfl

theorem handleMessage_of_accepts {e : Endian} (e' : Endian) {frame : List UInt8}
    (h : Gateway.Accepts e frame) :
    CommWorker.handleMessage e' frame = .emitted (LockRequest.ofWire frame) := by
  obtain ⟨hcheck, hcode, hlength⟩ := header_of_accepts h
  have hmin : Header.size ≤ frame.length := h.1 ▸ by decide
  have hread := unpackLockRequest_of_rules e' default h.1.ge hcheck hcode (hlength.trans h.1)
  simp only [CommWorker.handleMessage, receiveMessage, unpackHeader_eq e' default hmin, hcheck,
    hcode, hread, ne_eq, not_true_eq_false, if_false]

/-- Of whole frames, what is read of their beginning is the first of them. -/
theorem cut_isPrefix {frames : List (List UInt8)} {bytes : List UInt8}
    (hframes : ∀ f ∈ frames, headerFramer.look f = .frame f.length f)
    (h : bytes <+: frames.flatten) : (cutStream bytes).1 <+: frames := by
  have hcut := Framer.parse_prefix_flatten (F := headerFramer) (g := id) hframes h
  rwa [List.map_id, ← cutStream_eq_parse] at hcut

theorem requestsOf_isPrefix {e : Endian} {frames : List (List UInt8)} {bytes : List UInt8}
    (hframes : ∀ f ∈ frames, Gateway.Accepts e f) (h : bytes <+: frames.flatten) :
    Gateway.requestsOf e bytes <+: frames := by
  have hall : frames.filter (fun f => decide (Gateway.Accepts e f)) = frames :=
    List.filter_eq_self.mpr fun f hf => decide_eq_true (hframes f hf)
  rw [Gateway.requestsOf, ← hall]
  exact (cut_isPrefix (fun f hf => look_of_accepts (hframes f hf)) h).filter _

/-- A worker that has read a beginning of what the server's socket took, on every
connection, has received messages of the frames handed on, in order. -/
theorem received_sublist_of_reads {M : Type} {os : List (Out M)} {es : List Connections.Event}
    {handle : List UInt8 → Received M} {g : List UInt8 → M}
    (hreceived : ∀ k, Worker.received (onLink k os) =
      (cutStream (Worker.bytesRead (onLink k os))).1.filterMap fun msg => (handle msg).emitted?)
    {c : ℕ → ℕ} (hc : StrictMono c)
    (hreads : ∀ j, Worker.bytesRead (onLink j os) = [] ∨ ∃ k, c k = j ∧
      Worker.bytesRead (onLink j os) <+:
        Connections.acceptedBytes (Connections.onConnection k es))
    (huntorn : ∀ k, Connections.Untorn (Connections.onConnection k es))
    (hlook : ∀ f ∈ (Connections.handed es).map Prod.fst, headerFramer.look f = .frame f.length f)
    (htaken : ∀ f ∈ (Connections.handed es).map Prod.fst, (handle f).emitted? = some (g f)) :
    (Worker.received os).Sublist (((Connections.handed es).map Prod.fst).map g) := by
  -- on every connection, whole frames and a beginning of the next
  have hlink : ∀ j, Worker.received (onLink j os) = [] ∨ ∃ k, c k = j ∧
      (Worker.received (onLink j os)).Sublist
        (((Connections.handed (Connections.onConnection k es)).map Prod.fst).map g) := fun j => by
    rcases hreads j with hnone | ⟨k, hk, hread⟩
    · left
      rw [hreceived, hnone]
      simp [cutStream, Header.size]
    · have hmem : ∀ f ∈ (Connections.handed (Connections.onConnection k es)).map Prod.fst,
          f ∈ (Connections.handed es).map Prod.fst := fun f hf =>
        (((session_sublist k es).filterMap _).map _).subset hf
      have hcut := cut_isPrefix (fun f hf => hlook f (hmem f hf))
        (hread.trans (System.acceptedBytes_prefix (huntorn k)))
      have hall : ((Connections.handed (Connections.onConnection k es)).map Prod.fst).filterMap
          (fun msg => (handle msg).emitted?) =
            ((Connections.handed (Connections.onConnection k es)).map Prod.fst).map g :=
        (List.filterMap_congr fun f hf => htaken f (hmem f hf)).trans
          (congrFun List.filterMap_eq_map _)
      refine .inr ⟨k, hk, ?_⟩
      rw [hreceived, ← hall]
      exact hcut.sublist.filterMap _
  rw [Connections.handed, List.map_map, List.map_filterMap]
  refine sublist_of_sessions (fun x (hx : Worker.opens x = true) => ?_)
    (fun ev (hev : Connections.opens ev = true) => ?_) hc fun j => ?_
  · cases x with
    | signal y => cases hx
    | _ => rfl
  · cases ev with
    | saw n =>
        cases n with
        | handed frame call => cases hev
        | _ => rfl
    | sent key m => cases hev
  · simp only [← List.map_filterMap, ← List.map_map]
    exact hlink j

/-! ### From the maintenance screen to gateway -/

def Whole (os : List (Out LockResponse)) : Prop :=
  ∀ frame taken, .wrote frame taken ∈ os → taken = frame.length ∨ taken = -1

theorem bytesWritten_of_whole {os : List (Out LockResponse)} (h : Whole os) :
    bytesWritten os = (MaintWorker.sent os).flatten := by
  induction os with
  | nil => rfl
  | cons o os ih =>
      have ih := ih fun frame taken hmem => h frame taken (List.mem_cons_of_mem _ hmem)
      rw [bytesWritten, List.flatMap_cons, ← bytesWritten, ih, ← List.singleton_append,
        MaintWorker.sent_append, List.flatten_append]
      congr 1
      cases o with
      | wrote frame taken =>
          rcases h frame taken List.mem_cons_self with rfl | rfl
          · simp [MaintWorker.sent]
          · have hne : (-1 : ℤ) ≠ frame.length := by omega
            simp [MaintWorker.sent, hne]
      | _ => rfl

variable {o : Hosts} {cap : Option ℕ} {w : World} {tr : List Event}

section Down

variable (h : Run (machine o cap) Usual World.init tr w)

include h

theorem maint_worker_run : Run (maintScreen o.maint).workerMachine
    (fun _ t => ∀ c j, t = .call c j → j.taken = LockRequest.size ∨ j.taken = -1)
    (MaintWorker.init "127.0.0.1" gatewayPort) (done (tr.filterMap maintEvent))
    w.1.maint.worker := by
  have hrun : Run (maintScreen o.maint).machine
      (fun _ a => ∀ j, a = .call j → j.taken = LockRequest.size ∨ j.taken = -1) MaintScreen.init
      (tr.filterMap maintEvent) w.1.maint := maint_run h fun w a hw j heq => by
    subst heq
    exact hw.2
  refine worker_run hrun (fun _ _ _ c j heq => by cases heq) fun s j c cs hok _ c' j' heq => ?_
  obtain ⟨-, rfl⟩ := Task.call.inj heq
  exact hok j rfl

theorem whole_maintOuts : Whole (maintOuts tr) := by
  refine (output_run (maint_worker_run h)).invariant (fun os _ => Whole os)
    (fun _ _ hmem => by cases hmem) fun os w t w' es ih hok hs frame taken hmem => ?_
  rcases List.mem_append.mp hmem with hold | hnew
  · exact ih frame taken hold
  · cases MaintWorker.serves hs with
    | reacts hr => cases hr.quiet _ hnew
    | stops hr => cases hr.quiet _ hnew
    | @sends raw j _ _ hr =>
        have htaken := hok _ j rfl
        cases hr with
        | notConnected hc => simp [MaintWorker.log] at hnew
        | badNumber hc hlen => simp [MaintWorker.log] at hnew
        | short hc hlen ht =>
            obtain ⟨rfl, rfl⟩ : frame = (w.request raw j).wire ∧ taken = j.taken := by
              simpa [MaintWorker.log] using hnew
            exact .inr (htaken.resolve_left ht)
        | sent hc hlen ht =>
            obtain ⟨rfl, rfl⟩ : frame = (w.request raw j).wire ∧ taken = LockRequest.size := by
              simpa [MaintWorker.log] using hnew
            exact .inl (by rw [LockRequest.length_wire])

theorem numbered_maintOuts :
    ∃ cs, MaintWorker.Numbered (done (tr.filterMap maintEvent)) w.1.maint.worker cs := by
  refine (maint_worker_run h).invariant (fun ds w => ∃ cs, MaintWorker.Numbered ds w cs)
    ⟨[], .init _ _⟩ ?_
  rintro ds w t w' ds' ⟨cs, ih⟩ - hs
  exact ih.step hs

theorem lines_eq_log : MaintWorker.lines (maintOuts tr) =
    w.1.maint.window.log ++ w.1.maint.signals.filterMap Signal.line? :=
  MaintScreen.lines_eq (maint_run_always h)

theorem accepts_of_sent {frame : List UInt8} (hframe : frame ∈ MaintWorker.sent (maintOuts tr)) :
    Gateway.Accepts o.server frame := by
  obtain ⟨cs, hcs⟩ := numbered_maintOuts h
  rw [maintOuts, hcs.sent, framesOf, requestsFor] at hframe
  obtain ⟨req, hreq, rfl⟩ := List.mem_map.mp hframe
  obtain ⟨i, hi, rfl⟩ := List.mem_mapIdx.mp hreq
  exact accepts_made _ _ _ _

theorem accepted_sublist_sent :
    (Gateway.accepted o.server (sawBy .gateway (tr.filterMap serverEvent))).Sublist
      (MaintWorker.sent (maintOuts tr)) := by
  have hwhole : ∀ j, Whole (onLink j (maintOuts tr)) := fun j frame taken hmem =>
    whole_maintOuts h frame taken ((session_sublist j _).subset hmem)
  have hsent : ∀ j, ∀ f ∈ MaintWorker.sent (onLink j (maintOuts tr)),
      Gateway.Accepts o.server f := fun j f hf =>
    accepts_of_sent h (((session_sublist j _).filterMap _).subset hf)
  rw [← System.seen_shows, ← served, System.accepted_seen]
  refine sublist_of_blocks (fun x (hx : Worker.opens x = true) => ?_) (conn_mono h .gateway)
    (fun k => ?_) _
  · cases x with
    | wrote frame taken => cases hx
    | _ => rfl
  · -- on every connection gateway has read a beginning of whole frames
    have hreads := gateway_reads h k
    rw [bytesWritten_of_whole (hwhole _)] at hreads
    exact (requestsOf_isPrefix (hsent _) hreads).sublist

end Down

/-! ### From gateway to the terminals -/

def termNo (slot : Slot) : TermNo := Locator.digits (1000 + slot.val.toInt).toNat

theorem map_ofWire_framesOf (cs : List Sent) :
    (framesOf cs).map LockRequest.ofWire = requestsFor cs := by
  rw [framesOf, List.map_map]
  exact (List.map_congr_left fun req _ => requestLayout.ofWire_wire_self req).trans (List.map_id _)

section Runs

variable (h : Run (machine o cap) Usual World.init tr w) (slot : Slot)

include h

theorem handed_sublist_sent :
    (System.handed (sawBy (.termd slot) (tr.filterMap serverEvent))).Sublist
      ((MaintWorker.sent (maintOuts tr)).filter fun f =>
        decide ((LockRequest.ofWire f).termNo = termNo slot)) := by
  exact ((System.mortal_books (server_run h)).handed_sublist_accepted slot).trans
    ((accepted_sublist_sent h).filter _)

theorem accepts_of_handed {frame : List UInt8}
    (hframe : frame ∈ System.handed (sawBy (.termd slot) (tr.filterMap serverEvent))) :
    Gateway.Accepts o.server frame :=
  accepts_of_sent h (List.mem_of_mem_filter ((handed_sublist_sent h slot).subset hframe))

/-- What a terminal takes are, in order, requests in the frames its termd handed on. -/
theorem received_sublist_handed : (Worker.received (lockOuts slot tr)).Sublist
    ((System.handed (sawBy (.termd slot) (tr.filterMap serverEvent))).map
      LockRequest.ofWire) := by
  have hworker := output_run (worker_run_always (lock_run h slot).always)
  have haccepts : ∀ f ∈ (Connections.handed (served (.termd slot) tr)).map Prod.fst,
      Gateway.Accepts o.server f := fun f hf => by
    rw [served, System.handed_shows] at hf
    exact accepts_of_handed h slot hf
  rw [← System.handed_shows]
  exact received_sublist_of_reads (CommWorker.received_of_run hworker rfl)
    (conn_mono h (.termd slot)) (lock_reads h slot) (System.untorn_termd slot (server_run h))
    (fun f hf => look_of_accepts (haccepts f hf))
    fun f hf => congrArg Received.emitted? (handleMessage_of_accepts _ (haccepts f hf))

/-- What is shown in large letters is what a message said that has been received. -/
theorem received_of_face {t : TermNo} {n : UInt16} {ts : UInt64}
    (hface : (w.1.terminal slot).window.face = .locked t n ts) :
    ∃ req ∈ Worker.received (lockOuts slot tr),
      req.termNo = t ∧ req.header.seq = n ∧ req.header.timestamp = ts := by
  have hrun := lock_run h slot
  have hshows : LockWindow.Shows (given (tr.filterMap (lockEvent slot)))
      (w.1.terminal slot).window :=
    (window_run hrun).invariant LockWindow.Shows .init fun _ _ _ _ _ ih _ hs => ih.step hs
  obtain ⟨req, hreq⟩ : ∃ req, LockWindow.Standing (given (tr.filterMap (lockEvent slot))) req := by
    by_contra hnone
    rw [hshows.unlocked (not_exists.mp hnone)] at hface
    cases hface
  refine ⟨req, ?_, ?_⟩
  · obtain ⟨pre, post, hgiven, -⟩ := hreq
    rw [lockOuts, received_eq]
    have hsignals : (outputs (done (tr.filterMap (lockEvent slot)))).filterMap Out.signal? = _ :=
      (signals_eq _ (lockScreen (o.terminal slot))).symm.trans (signalled_eq hrun)
    rw [hsignals, hgiven]
    simp [Signal.message?]
  · have hlocked := hface.symm.trans (hshows.locked req hreq)
    cases hlocked
    exact ⟨rfl, rfl, rfl⟩

end Runs

/-- The commands the terminals have come to know. -/
structure Arrived (w : World) (tr : List Event) (cs : List Sent) : Prop where
  /-- Each was asked for on the maintenance screen. -/
  asked : (cs.map Prod.fst).Sublist (MaintWorker.asked (issued (tr.filterMap maintEvent)))
  /-- Each has its line in the log there, in order. -/
  logged : w.1.maint.window.log.filterMap LogLine.lockSent? ++
    (w.1.maint.signals.filterMap Signal.line?).filterMap LogLine.lockSent? = linesOf cs
  /-- A terminal receives those for itself, in order and each at most once. -/
  received : ∀ slot, (Worker.received (lockOuts slot tr)).Sublist
    ((requestsFor cs).filter fun req => decide (req.termNo = termNo slot))
  /-- A terminal that says LOCKED shows one of them. -/
  shown : ∀ slot t n ts, (w.1.terminal slot).window.face = .locked t n ts →
    t = termNo slot ∧ ∃ i c, cs[i]? = some c ∧
      TermNo.ofBytes c.1 = t ∧ UInt16.ofNat (i + 1) = n ∧ c.2 = ts

/-- Through all connections that are lost and made again and all crashes of
gateway, locator and the termds, at any point of any run: what a terminal
receives are commands for it from the maintenance screen, in order and each at
most once, and what it shows is one of them. -/
theorem terminals_show_commands {o : Hosts} {cap : Option ℕ} {w : World} {tr : List Event}
    (h : Run (machine o cap) Usual World.init tr w) : ∃ cs, Arrived w tr cs := by
  obtain ⟨cs, hcs⟩ := numbered_maintOuts h
  have hreceived : ∀ slot, (Worker.received (lockOuts slot tr)).Sublist
      ((requestsFor cs).filter fun req => decide (req.termNo = termNo slot)) := fun slot => by
    refine (received_sublist_handed h slot).trans ?_
    have hsub := (handed_sublist_sent h slot).map LockRequest.ofWire
    rw [maintOuts, hcs.sent] at hsub
    rw [← map_ofWire_framesOf, List.filter_map]
    exact hsub
  refine ⟨cs, ?_, ?_, hreceived, fun slot t n ts hface => ?_⟩
  · refine hcs.asked.trans ?_
    rw [issued_eq (maint_run_always h), MaintWorker.asked_append]
    exact List.sublist_append_left _ _
  · rw [← List.filterMap_append, ← lines_eq_log h]
    exact hcs.lines
  · obtain ⟨req, hreq, rfl, rfl, rfl⟩ := received_of_face h slot hface
    obtain ⟨hmem, hnumber⟩ := List.mem_filter.mp ((hreceived slot).subset hreq)
    obtain ⟨i, hi, rfl⟩ := List.mem_mapIdx.mp hmem
    exact ⟨of_decide_eq_true hnumber, i, cs[i], List.getElem?_eq_getElem hi, rfl, rfl, rfl⟩

/-- The first command dies with locator, and the table with it. The second one
makes its way to terminal 1001, which has come back to a termd that has come
back, after a connection that nobody accepted. -/
theorem terminals_show_commands_locked : ∃ tr w,
    Run (machine ⟨.little, .little, fun _ => .little⟩ none) Usual World.init tr w ∧
      (w.1.terminal System.slot1).window.face = .locked ⟨0x31, 0x30, 0x30, 0x31⟩ 2 8 ∧
      ∃ cs, Arrived w tr cs := by
  let frame (seq : UInt16) (now : UInt64) := (makeLockRequest ⟨0x31, 0x30, 0x30, 0x31⟩ seq now).wire
  let server (a : System.Action) : Act := .of (.server (.step a))
  let terminal (a : LockAction) : Act := .of (.terminal System.slot1 a)
  obtain ⟨tr, w, hrun, hlast⟩ :=
    (machine ⟨.little, .little, fun _ => .little⟩ none).exists_run_of_exec Usual World.init
    [server (.start .gateway .quiet), server (.start .locator .quiet),
      server (.start (.termd System.slot1) .quiet), .of (.maint (.work .started)),
      terminal (.work .started), .of (.maint (.work .connected)), terminal (.work .connected),
      server (.idle .gateway { Env.quiet with accepted := some 5 }),
      server (.idle (.termd System.slot1) { Env.quiet with accepted := some 6 }),
      .of (.maint .display), .of (.maint .display), .of (.maint .display),
      .of (.maint (.use .lockClicked)), .of (.maint (.call ⟨7, 24⟩)),
      server (.idle .gateway { Env.quiet with received := .data (frame 1 7) }),
      server (.flush .gateway), .of (.server (.torn (.recv .locator .quiet) 0 .zero)),
      .of (.server (.down (.termd System.slot1) false)), server (.start .locator .quiet),
      terminal (.work .disconnected), terminal (.work .timeout), terminal (.work .connected),
      .drop (.termd System.slot1), terminal (.work .disconnected), terminal (.work .timeout),
      terminal (.work .connected), server (.start (.termd System.slot1) .quiet),
      server (.idle (.termd System.slot1) { Env.quiet with accepted := some 6 }),
      .of (.maint (.use .lockClicked)), .of (.maint (.call ⟨8, 24⟩)),
      server (.idle .gateway { Env.quiet with received := .data (frame 2 8) }),
      server (.flush .gateway), server (.recv .locator .quiet), server (.flush .locator),
      server (.recv (.termd System.slot1) { Env.quiet with sends := [.ret 24] }),
      terminal (.work (.readyRead ((frame 2 8).take 9))),
      terminal (.work (.readyRead ((frame 2 8).drop 9))), terminal .display, terminal .display,
      terminal .display, terminal .display, terminal .display, terminal .display]
    (fun r => decide ((r.1.1.terminal System.slot1).window.face =
      .locked ⟨0x31, 0x30, 0x30, 0x31⟩ 2 8))
    (by decide +kernel) (by decide +kernel)
  exact ⟨tr, w, hrun, of_decide_eq_true hlast, terminals_show_commands hrun⟩

end Fleetcore.Deployment
