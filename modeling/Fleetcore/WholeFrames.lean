import Fleetcore.Connections

/-!
No torn frame is followed by another.

A call of `TcpServer::send` that does not get a whole frame out drops the
client, or never comes back. So a socket takes whole frames, in the order of
the calls, and at most at the end a beginning of one more.
-/

namespace Fleetcore

/-! ### One call of `send` -/

/-- The bytes the kernel takes, one `::send(data + sent, len - sent)` after the other. -/
def takenBytes (frame : List UInt8) : ℕ → List SendOutcome → List UInt8
  | _, [] => []
  | sent, o :: os =>
      if sent < frame.length then
        match o with
        | .ret n =>
            if n > 0 then
              (frame.drop sent).take n ++ takenBytes frame (sent + min n (frame.length - sent)) os
            else []
        | .fail .eintr => takenBytes frame sent os
        | .fail .eagain => takenBytes frame sent os
        | .fail .other => []
      else []

theorem takenBytes_retry {frame : List UInt8} {sent : ℕ} (h : sent < frame.length)
    {o : SendOutcome} (ho : o.fatal = false) (os : List SendOutcome) :
    takenBytes frame sent (o :: os) = (frame.drop sent).take o.count ++
      takenBytes frame (sent + min o.count (frame.length - sent)) os := by
  rcases o with n | (_ | _ | _)
  · have hn : 0 < n := Nat.pos_of_ne_zero (by simpa [SendOutcome.fatal] using ho)
    simp [takenBytes, h, hn, SendOutcome.count]
  · simp [takenBytes, h, SendOutcome.count]
  · simp [takenBytes, h, SendOutcome.count]
  · cases ho

theorem takenBytes_fatal {frame : List UInt8} {sent : ℕ} {o : SendOutcome}
    (ho : o.fatal = true) (os : List SendOutcome) : takenBytes frame sent (o :: os) = [] := by
  rcases o with n | (_ | _ | _)
  · obtain rfl : n = 0 := by simpa [SendOutcome.fatal] using ho
    simp [takenBytes]
  · cases ho
  · cases ho
  · simp [takenBytes]

/-- What has been taken is the beginning of the frame that the count says. -/
theorem take_append_takenBytes {frame : List UInt8} {sent : ℕ} (h : sent ≤ frame.length)
    (os : List SendOutcome) : frame.take sent ++ takenBytes frame sent os =
      frame.take (sendLoop frame.length sent os).sent := by
  induction os generalizing sent with
  | nil =>
      rw [takenBytes, List.append_nil]
      rfl
  | cons o os ih =>
      rcases h.lt_or_eq with hlt | heq
      · cases ho : o.fatal with
        | true =>
            rw [takenBytes_fatal ho, sendLoop_fatal hlt ho, List.append_nil]
        | false =>
            -- a call never accepts more than it was given
            have htake : frame.take (sent + o.count) =
                frame.take (sent + min o.count (frame.length - sent)) := by
              rcases Nat.le_total o.count (frame.length - sent) with hle | hge
              · rw [min_eq_left hle]
              · rw [min_eq_right hge, List.take_of_length_le (by omega),
                  List.take_of_length_le (by omega)]
            rw [takenBytes_retry hlt ho, sendLoop_retry hlt ho, ← List.append_assoc,
              ← List.take_add, htake, ih (by omega)]
      · have hdone : takenBytes frame sent (o :: os) = [] := by
          unfold takenBytes
          rw [if_neg (by omega)]
        rw [hdone, sendLoop_done heq.ge, List.append_nil]

namespace TcpServer

variable {t : TcpServer} {len : ℕ} {os : List SendOutcome}

theorem send_sent_lt (h : (t.send len os).1.returned ≠ some true) (hc : t.hasClient = true) :
    (t.send len os).1.sent < len := by
  obtain ⟨fd, hfd⟩ := Option.isSome_iff_exists.mp hc
  rw [send_of_client hfd] at h ⊢
  have hlt : deliverable os < len := not_le.mp fun hle => h (sendLoop_returned_true os |>.mpr hle)
  rw [sendLoop_of_lt (by omega)]
  simpa using hlt

theorem send_sent_of_true (h : (t.send len os).1.returned = some true) :
    (t.send len os).1 = ⟨some true, len⟩ := by
  obtain ⟨hc, hle⟩ := send_returned_true.mp h
  obtain ⟨fd, hfd⟩ := Option.isSome_iff_exists.mp hc
  rw [send_of_client hfd]
  exact sendLoop_of_le (Nat.zero_le _) (by omega)

theorem send_returned_true_iff :
    (t.send len os).1.returned = some true ↔
      t.hasClient = true ∧ (t.send len os).1.sent = len := by
  constructor
  · intro h
    exact ⟨(send_returned_true.mp h).1, congrArg SendCall.sent (send_sent_of_true h)⟩
  · rintro ⟨hc, hsent⟩
    by_contra h
    exact absurd hsent (send_sent_lt h hc).ne

theorem clientFd_of_send_false (h : (t.send len os).1.returned = some false) :
    (t.send len os).2.clientFd = none := by
  rw [send_clientFd h]
  rfl

end TcpServer

namespace Connections

open ByteOrder StateMachine Framing Sessions

/-! ### The frames of a connection -/

def handed (es : List Event) : List (List UInt8 × SendCall) :=
  es.filterMap fun
    | .saw (.handed frame call) => some (frame, call)
    | _ => none

def acceptedBytes (es : List Event) : List UInt8 :=
  (handed es).flatMap fun x => x.1.take x.2.sent

/-- Whole frames in the order of the calls, and at most a proper beginning of
the last one. -/
def Untorn (es : List Event) : Prop :=
  ∃ (whole : List (List UInt8)) (last : List UInt8),
    acceptedBytes es = whole.flatten ++ last ∧
      ((handed es).map Prod.fst = whole ∧ last = [] ∨
        ∃ frame, (handed es).map Prod.fst = whole ++ [frame] ∧ last <+: frame ∧ last ≠ frame)

theorem handed_append (es es' : List Event) : handed (es ++ es') = handed es ++ handed es' :=
  List.filterMap_append

def wholeCall (frame : List UInt8) : List UInt8 × SendCall := (frame, ⟨some true, frame.length⟩)

/-- Every frame of the session that is going on has been taken as a whole, or
all but the last one and no further one can be sent. -/
def Sending (cur : List Event) (t : TcpServer) : Prop :=
  ∃ whole : List (List UInt8), handed cur = whole.map wholeCall ∨
    ∃ frame call, handed cur = whole.map wholeCall ++ [(frame, call)] ∧
      call.sent < frame.length ∧ (t.hasClient = true → t.spinning = true)

theorem Sending.start {es : List Event} (h : handed es = []) (t : TcpServer) : Sending es t :=
  ⟨[], .inl h⟩

theorem flatMap_wholeCall (whole : List (List UInt8)) :
    ((whole.map wholeCall).flatMap fun x => x.1.take x.2.sent) = whole.flatten := by
  induction whole with
  | nil => rfl
  | cons f whole ih =>
      rw [List.map_cons, List.flatMap_cons, ih, List.flatten_cons, wholeCall, List.take_length]

theorem map_fst_wholeCall (whole : List (List UInt8)) :
    (whole.map wholeCall).map Prod.fst = whole := by
  rw [List.map_map]
  exact List.map_id _

theorem Sending.untorn {cur : List Event} {t : TcpServer} (h : Sending cur t) : Untorn cur := by
  obtain ⟨whole, hall | ⟨frame, call, hall, hlt, -⟩⟩ := h
  · refine ⟨whole, [], ?_, .inl ⟨?_, rfl⟩⟩
    · rw [acceptedBytes, hall, flatMap_wholeCall, List.append_nil]
    · rw [hall, map_fst_wholeCall]
  · refine ⟨whole, frame.take call.sent, ?_, .inr ⟨frame, ?_, List.take_prefix _ _, ?_⟩⟩
    · rw [acceptedBytes, hall, List.flatMap_append, flatMap_wholeCall, List.flatMap_singleton]
    · rw [hall, List.map_append, map_fst_wholeCall]
      rfl
    · intro heq
      have hlen := congrArg List.length heq
      rw [List.length_take] at hlen
      omega

theorem Sending.quiet {cur es : List Event} {t t' : TcpServer} (h : Sending cur t)
    (hspin : t.spinning = false) (hes : handed es = [])
    (hclient : t'.hasClient = true → t.hasClient = true) : Sending (cur ++ es) t' := by
  obtain ⟨whole, hall | ⟨frame, call, hall, hlt, hlast⟩⟩ := h
  · exact ⟨whole, .inl (by rw [handed_append, hes, List.append_nil, hall])⟩
  · refine ⟨whole, .inr ⟨frame, call, by rw [handed_append, hes, List.append_nil, hall], hlt, ?_⟩⟩
    intro hc
    have htrue := hlast (hclient hc)
    rw [hspin] at htrue
    cases htrue

theorem Sending.hand {cur es : List Event} {t : TcpServer} (h : Sending cur t)
    (hspin : t.spinning = false) (hc : t.hasClient = true) {frame : List UInt8}
    {os : List SendOutcome} (hes : handed es = [(frame, (t.send frame.length os).1)]) :
    Sending (cur ++ es) (t.send frame.length os).2 := by
  obtain ⟨whole, hall | ⟨_, _, -, -, hlast⟩⟩ := h
  · by_cases htrue : (t.send frame.length os).1.returned = some true
    · refine ⟨whole ++ [frame], .inl ?_⟩
      rw [handed_append, hes, hall, TcpServer.send_sent_of_true htrue, List.map_append]
      rfl
    · refine ⟨whole, .inr ⟨frame, _, by rw [handed_append, hes, hall],
        TcpServer.send_sent_lt htrue hc, fun hc' => ?_⟩⟩
      cases hr : (t.send frame.length os).1.returned with
      | none => rw [TcpServer.send_spinning hr]
      | some b =>
          cases b with
          | true => exact absurd hr htrue
          | false =>
              rw [TcpServer.send_clientFd hr] at hc'
              cases hc'
  · have htrue := hlast hc
    rw [hspin] at htrue
    cases htrue

/-! ### Steps -/

theorem handed_notes {notes : List Note} (h : ∀ frame call, Note.handed frame call ∉ notes) :
    handed (notes.map .saw) = [] := by
  apply List.filterMap_eq_nil_iff.mpr
  intro ev hev
  obtain ⟨n, hn, rfl⟩ := List.mem_map.mp hev
  cases n with
  | handed frame call => exact absurd hn (h frame call)
  | _ => rfl

theorem handed_sent (sends : List (ℤ × List UInt8)) :
    handed (sends.map fun x => .sent x.1 x.2) = [] := by
  apply List.filterMap_eq_nil_iff.mpr
  intro ev hev
  obtain ⟨x, -, rfl⟩ := List.mem_map.mp hev
  rfl

theorem handed_of_notes {L : Type} {r : Reaction L}
    (h : ∀ frame call, Note.handed frame call ∉ r.obs) : handed (events r) = [] := by
  rw [events, handed_append, handed_notes h, handed_sent, List.append_nil]

theorem read_hands_nothing (e : Endian) (env : Env) (w : Gateway) (table : Segment) :
    (∀ frame call, Note.handed frame call ∉ (read e env w table).obs) ∧
      Note.connected ∉ (read e env w table).obs ∧
      ((read e env w table).loc.tcp.hasClient = true → w.tcp.hasClient = true) := by
  have hcases := w.tcp.pollRead_cases 1024 env.received
  rw [read]
  generalize w.tcp.pollRead 1024 env.received = result at hcases
  obtain hres | hres | ⟨chunk, hres⟩ := hcases
  · rw [hres]
    exact ⟨by simp, by simp, fun hc => by cases hc⟩
  · rw [hres]
    exact ⟨by simp, by simp, id⟩
  · rw [hres]
    cases hdrop : (Gateway.receive e w.rx chunk).dropped with
    | none => simp [hdrop]
    | some err => simp [hdrop]

theorem termd_read_hands_nothing (e : Endian) (env : Env) (t : Termd) (table : Segment) :
    (∀ frame call, Note.handed frame call ∉ (t.read e env table).obs) ∧
      Note.connected ∉ (t.read e env table).obs ∧
      ((t.read e env table).loc.tcp.hasClient = true → t.tcp.hasClient = true) := by
  have hcases := t.tcp.pollRead_cases 1024 env.received
  rw [Termd.read]
  generalize t.tcp.pollRead 1024 env.received = result at hcases
  obtain hres | hres | ⟨chunk, hres⟩ := hcases
  · rw [hres]
    exact ⟨by simp, by simp, fun hc => by cases hc⟩
  · rw [hres]
    exact ⟨by simp, by simp, id⟩
  · rw [hres]
    simp only [receive_snd, TerminalLink.receive_fst]
    cases (cutStream (t.rx.data ++ chunk)).2 with
    | pending d => simp [restNotes, TerminalLink.afterStream]
    | dead err => simp [restNotes, TerminalLink.afterStream]

theorem Sending.gateway_step {e : Endian} {cur es : List Event} {w w' : Gateway} {a : Action}
    (h : Sending cur w.tcp) (hs : gatewayStep e w a = some (w', es)) :
    Advance opens (fun cur w => Sending cur w.tcp) cur es w' := by
  obtain ⟨hspin, hstep⟩ := gatewayStep_cases hs
  cases hstep with
  | read env table =>
      obtain ⟨hobs, hconnected, hclient⟩ := read_hands_nothing e env w table
      exact .goes (opens_events hconnected _) (h.quiet hspin (handed_of_notes hobs) hclient)
  | @connect env hrx table =>
      obtain ⟨hobs, hconnected, -⟩ := read_hands_nothing e env (accept env w) table
      exact .starts rfl rfl (opens_events hconnected _) (.start (handed_of_notes hobs) _)
  | hand hc frame os => exact .goes (by simp [opens]) (h.hand hspin hc rfl)
  | nothing => exact .goes (by simp) (h.quiet hspin rfl id)

theorem Sending.termd_step {e : Endian} {cur es : List Event} {t t' : Termd} {a : Action}
    (h : Sending cur t.tcp) (hs : termdStep e t a = some (t', es)) :
    Advance opens (fun cur t => Sending cur t.tcp) cur es t' := by
  obtain ⟨hspin, hstep⟩ := termdStep_cases hs
  cases hstep with
  | read env table =>
      obtain ⟨hobs, hconnected, hclient⟩ := termd_read_hands_nothing e env t table
      exact .goes (opens_notes hconnected) (h.quiet hspin (handed_notes hobs) hclient)
  | @connect env table hrx table' =>
      obtain ⟨hobs, hconnected, -⟩ :=
        termd_read_hands_nothing e env (t.accept env table).loc table'
      exact .starts rfl rfl (opens_notes hconnected) (.start (handed_notes hobs) _)
  | hand hc frame os sends =>
      refine .goes (List.forall_mem_cons.mpr ⟨rfl, opens_sent sends⟩) (h.hand hspin hc ?_)
      rw [← List.singleton_append, handed_append, handed_sent, List.append_nil]
      rfl
  | answer sends => exact .goes (opens_sent sends) (h.quiet hspin (handed_sent sends) id)

/-- No torn frame is followed by another: on every connection of a run the
socket took whole frames in the order of the calls, and at most a beginning of
the last one. `send` returns true exactly when the client took the whole frame,
and when it returns false the client is gone. -/
theorem no_torn_frame (e : Endian) :
    (∀ tr w k, Run (gatewayMachine e) Always .init tr w → Untorn (onConnection k tr)) ∧
    (∀ slot tr t k, Run (termdMachine e) Always (.listening slot) tr t →
      Untorn (onConnection k tr)) ∧
    ∀ (t : TcpServer) (frame : List UInt8) (os : List SendOutcome),
      (t.hasClient = true →
        takenBytes frame 0 os = frame.take (t.send frame.length os).1.sent) ∧
      ((t.send frame.length os).1.returned = some true ↔
        t.hasClient = true ∧ (t.send frame.length os).1.sent = frame.length) ∧
      ((t.send frame.length os).1.returned = some false →
        (t.send frame.length os).2.clientFd = none) := by
  refine ⟨fun tr w k h => ?_, fun slot tr t k h => ?_, fun t frame os => ⟨fun hc => ?_,
    TcpServer.send_returned_true_iff, TcpServer.clientFd_of_send_false⟩⟩
  · exact Run.sessions h (fun cur w => Sending cur w.tcp) Untorn (fun _ _ h => h.untorn)
      (.start rfl _) (fun _ _ _ _ _ h _ hs => h.gateway_step hs) k
  · exact Run.sessions h (fun cur t => Sending cur t.tcp) Untorn (fun _ _ h => h.untorn)
      (.start rfl _) (fun _ _ _ _ _ h _ hs => h.termd_step hs) k
  · obtain ⟨fd, hfd⟩ := Option.isSome_iff_exists.mp hc
    rw [TcpServer.send_of_client hfd]
    exact take_append_takenBytes (Nat.zero_le _) os

/-- A response taken in pieces, the next one torn; the second client then gets a
whole one. -/
theorem no_torn_frame_second_client : ∃ tr w,
    Run (gatewayMachine .little) Always .init tr w ∧
      ((acceptedBytes (onConnection 1 tr)).length = 33 ∧ Untorn (onConnection 1 tr)) ∧
      ((acceptedBytes (onConnection 2 tr)).length = 28 ∧ Untorn (onConnection 2 tr)) ∧
      (TcpServer.listening.send 28 []).2.clientFd = none := by
  let accepts (fd : ℕ) : Action := .idle { Env.quiet with accepted := some fd } .zero
  let responds (os : List SendOutcome) : Action := .recv { Env.quiet with sends := os } .zero
    ((Termd.ackOf (makeLockRequest ⟨0x31, 0x30, 0x30, 0x31⟩ 7 0) 0).image .little)
  obtain ⟨tr, w, h, hQ⟩ := (gatewayMachine .little).exists_run_of_exec Always .init
    [accepts 5, responds [.ret 3, .fail .eintr, .ret 25], responds [.ret 5, .fail .other],
      responds [.ret 28], accepts 6, responds [.fail .eagain, .ret 28]]
    (fun r => decide ((acceptedBytes (onConnection 1 r.2)).length = 33 ∧
      (acceptedBytes (onConnection 2 r.2)).length = 28))
    (by decide +kernel) (by decide +kernel)
  obtain ⟨hfirst, hsecond⟩ := of_decide_eq_true hQ
  have htorn := no_torn_frame .little
  exact ⟨tr, w, h, ⟨hfirst, htorn.1 tr w 1 h⟩, ⟨hsecond, htorn.1 tr w 2 h⟩,
    (htorn.2.2 .listening (.replicate 28 0) []).2.2 (by decide)⟩

end Connections

end Fleetcore
