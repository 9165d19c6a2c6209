import Fleetcore.Termd
import Fleetcore.HeaderFraming

/-!
One termd and its terminal, over any sequence of steps.

Two things are asked of a termd: that it acknowledges a command as carried out
only when the terminal has been given it, and that the row of its terminal says
whether the terminal is connected. Neither holds throughout. This module says
exactly which steps keep them: `Delivers` and `KeepsLink` are conditions on the
state before a step and on the answers of its system calls, each step keeps the
property if and only if it meets the condition, and so every run whose steps
meet it has the property everywhere.
-/

namespace Fleetcore.TerminalLink

open ByteOrder StateMachine Framing

structure World where
  termd : Termd
  table : Segment
  deriving DecidableEq

inductive Action where
  | idle (env : Env)
  /-- A message arrives; `up` says whether gateway's queue takes the answer. -/
  | lockRequest (env : Env) (data : List UInt8) (up : Bool)

inductive Event where
  | saw (n : Note)
  | commanded (data : List UInt8)
  /-- Put on gateway's queue. -/
  | acked (data : List UInt8)
  deriving DecidableEq

/-- A termd that has not come back from `send` takes no step. -/
def step (e : Endian) (w : World) : Action → Option (World × List Event)
  | .idle env =>
      if w.termd.tcp.spinning then none
      else
        let r := w.termd.onIdle e env w.table
        some (⟨r.loc, r.shared⟩, r.obs.map .saw)
  | .lockRequest env data up =>
      if w.termd.tcp.spinning then none
      else
        let r := w.termd.onLockRequest e env w.table data
        some (⟨r.loc, r.shared⟩, .commanded data :: r.obs.map .saw ++
          if up then r.sends.map fun x => .acked x.2 else [])

def machine (e : Endian) : Machine World Action Event := ⟨step e⟩

/-! ### Acknowledgements -/

/-- The answers are not fatal before `len` bytes have been accepted: either
they are good for all of them, or none of them ends the call. -/
def Undisturbed (len : ℕ) (os : List SendOutcome) : Prop :=
  len ≤ deliverable os ∨ os.any SendOutcome.fatal = false

instance (len : ℕ) (os : List SendOutcome) : Decidable (Undisturbed len os) :=
  inferInstanceAs (Decidable (len ≤ deliverable os ∨ os.any SendOutcome.fatal = false))

/-- A terminal is connected, and nothing ends the delivery early. -/
def Delivers (t : Termd) (env : Env) : Prop :=
  t.tcp.hasClient = true ∧ Undisturbed LockRequest.size env.sends

instance (t : Termd) (env : Env) : Decidable (Delivers t env) :=
  inferInstanceAs (Decidable (_ ∧ _))

/-- An acknowledgement of success comes right after the delivery of all bytes
of the frame of the command it answers. -/
def Backed (e : Endian) (pre : List Event) (ev : Event) : Prop :=
  ∀ data, ev = .acked data → (IpcLockResponse.ofImage e data).msg.result = resultOk →
    ∃ pre' cmd, pre = pre' ++ [.commanded cmd, .saw (.handed
      (Termd.frameOf e (IpcLockRequest.ofImage e cmd).msg) ⟨some true, LockRequest.size⟩)]

theorem Backed.append {e : Endian} {pre : List Event} {ev : Event} (tr : List Event)
    (h : Backed e pre ev) : Backed e (tr ++ pre) ev := fun data hd hr => by
  obtain ⟨pre', cmd, rfl⟩ := h data hd hr
  exact ⟨tr ++ pre', cmd, by simp⟩

theorem backed_of_not_acked {e : Endian} {pre : List Event} {ev : Event}
    (h : ∀ data, ev ≠ .acked data) : Backed e pre ev := fun data hd => absurd hd (h data)

theorem atEach_backed_of_not_acked {e : Endian} {es : List Event}
    (h : ∀ data, Event.acked data ∉ es) : AtEach (Backed e) es := fun _ _ hn =>
  backed_of_not_acked fun data hd => h data (hd ▸ List.mem_of_getElem? hn)

theorem result_ackOf (e : Endian) (m : LockRequest) (now : UInt64) :
    (IpcLockResponse.ofImage e ((Termd.ackOf m now).image e)).msg.result = resultOk := by
  rw [IpcLockResponse.ofImage_image]
  rfl

theorem send_of_undisturbed {t : TcpServer} {os : List SendOutcome} (hc : t.hasClient = true)
    (h : Undisturbed 24 os) : (t.send 24 os).1 = ⟨some true, 24⟩ ∨
      (t.send 24 os).1.returned = none := by
  obtain ⟨fd, hfd⟩ := Option.isSome_iff_exists.mp hc
  rw [TcpServer.send_of_client hfd]
  rcases lt_or_ge (deliverable os) 24 with hlt | hge
  · have hnone : os.any SendOutcome.fatal = false := h.resolve_left (not_le.mpr hlt)
    rw [sendLoop_of_lt (by omega), hnone]
    exact .inr rfl
  · exact .inl (sendLoop_of_le (Nat.zero_le _) (by omega))

theorem send_of_disturbed {t : TcpServer} {os : List SendOutcome} (hc : t.hasClient = true)
    (h : ¬Undisturbed 24 os) : (t.send 24 os).1.returned = some false := by
  obtain ⟨fd, hfd⟩ := Option.isSome_iff_exists.mp hc
  simp only [Undisturbed, not_or, not_le, Bool.not_eq_false] at h
  rw [TcpServer.send_of_client hfd, sendLoop_of_lt (by omega), h.2]
  rfl

/-- One command: its acknowledgement is backed if and only if gateway's queue
does not take it or the command is delivered. -/
theorem backed_step_iff {e : Endian} {w w' : World} {env : Env} {data : List UInt8} {up : Bool}
    {es : List Event} (hlen : data.length = IpcLockRequest.size)
    (hs : step e w (.lockRequest env data up) = some (w', es)) :
    AtEach (Backed e) es ↔ up = false ∨ Delivers w.termd env := by
  simp only [step, Option.ite_none_left_eq_some, Option.some.injEq, Prod.mk.injEq] at hs
  obtain ⟨-, -, rfl⟩ := hs
  cases up with
  | false =>
      simp only [true_or, iff_true]
      exact atEach_backed_of_not_acked fun data' => by simp
  | true =>
      simp only [Bool.true_eq_false, false_or, if_true]
      cases hc : w.termd.tcp.hasClient with
      | false =>
          -- nobody is connected, and the acknowledgement is sent all the same
          rw [Termd.onLockRequest_of_no_client hlen hc]
          simp only [Delivers, hc, Bool.false_eq_true, false_and, iff_false]
          intro h
          obtain ⟨pre', cmd, hpre⟩ := h 1 _ rfl _ rfl (result_ackOf e _ _)
          have := congrArg List.length hpre
          simp at this
      | true =>
          rw [Termd.onLockRequest_of_client hlen hc]
          simp only [Delivers, hc, true_and]
          by_cases hu : Undisturbed LockRequest.size env.sends
          · simp only [hu, iff_true]
            rcases send_of_undisturbed hc hu with hsend | hsend
            · have hfirst : AtEach (Backed e) [.commanded data, .saw (.handed
                  (Termd.frameOf e (IpcLockRequest.ofImage e data).msg) ⟨some true, 24⟩)] :=
                atEach_backed_of_not_acked fun data' => by simp
              simp only [hsend, Option.isSome_some, if_true]
              exact hfirst.snoc fun _ _ _ => ⟨[], data, rfl⟩
            · simp only [hsend, Option.isSome_none, Bool.false_eq_true, if_false]
              exact atEach_backed_of_not_acked fun data' => by simp
          · -- the frame was cut short, and the acknowledgement is sent all the same
            simp only [hu, iff_false]
            have hsend := send_of_disturbed hc hu
            simp only [hsend, Option.isSome_some, if_true]
            intro h
            obtain ⟨pre', cmd, hpre⟩ := h 2 _ rfl _ rfl (result_ackOf e _ _)
            have hlast := congrArg List.getLast? hpre
            simp only [List.take_succ_cons, List.map_cons, List.map_nil, List.cons_append,
              List.nil_append, List.take_zero, List.getLast?_cons_cons, List.getLast?_singleton,
              List.getLast?_append_cons, Option.some.injEq, Event.saw.injEq,
              Note.handed.injEq] at hlast
            rw [hlast.2] at hsend
            cases hsend

/-- Commands are delivered whenever they are answered. -/
def AcksHonestly (w : World) : Action → Prop
  | .idle _ => True
  | .lockRequest env data up =>
      data.length = IpcLockRequest.size → up = false ∨ Delivers w.termd env

instance (w : World) : ∀ a, Decidable (AcksHonestly w a)
  | .idle _ => isTrue trivial
  | .lockRequest env data up =>
      inferInstanceAs (Decidable (data.length = IpcLockRequest.size →
        up = false ∨ Delivers w.termd env))

theorem backed_of_step {e : Endian} {w w' : World} {a : Action} {es : List Event}
    (hok : AcksHonestly w a) (hs : step e w a = some (w', es)) : AtEach (Backed e) es := by
  cases a with
  | idle env =>
      simp only [step, Option.ite_none_left_eq_some, Option.some.injEq, Prod.mk.injEq] at hs
      obtain ⟨-, -, rfl⟩ := hs
      exact atEach_backed_of_not_acked fun data => by simp
  | lockRequest env data up =>
      by_cases hlen : data.length = IpcLockRequest.size
      · exact (backed_step_iff hlen hs).mpr (hok hlen)
      · simp only [step, Option.ite_none_left_eq_some, Option.some.injEq, Prod.mk.injEq] at hs
        obtain ⟨-, -, rfl⟩ := hs
        exact atEach_backed_of_not_acked fun data' => by simp [Termd.onLockRequest, hlen]

/-- An acknowledgement of success is backed by the delivery of the command if
and only if gateway's queue does not take it, or a terminal is connected and
the delivery is not disturbed; and where every command is like that, all of
them are backed. -/
theorem ack_sound (e : Endian) :
    (∀ w w' env data up es, data.length = IpcLockRequest.size →
      step e w (.lockRequest env data up) = some (w', es) →
      (AtEach (Backed e) es ↔ up = false ∨ Delivers w.termd env)) ∧
    ∀ w₀ tr w, Run (machine e) AcksHonestly w₀ tr w → AtEach (Backed e) tr := by
  refine ⟨fun w w' env data up es hlen hs => backed_step_iff hlen hs, fun w₀ tr w hrun => ?_⟩
  refine hrun.invariant (fun tr _ => AtEach (Backed e) tr) AtEach.nil ?_
  intro tr w a w' es htr hok hs
  exact htr.append fun n ev hn => Backed.append tr (backed_of_step hok hs n ev hn)

def lockCommand : List UInt8 :=
  IpcLockRequest.image .little
    ⟨⟨ipcLockRequest, 3001⟩, makeLockRequest ⟨0x31, 0x30, 0x30, 0x31⟩ 7 0⟩

def Event.isAck : Event → Bool
  | .acked _ => true
  | _ => false

/-- Termd of slot 1 right after its start, the table otherwise empty. -/
def freshWorld : World := ⟨.listening 1, (Segment.zero.registerTerminal .granted 1001).2⟩

/-- The frame goes out in two pieces after an interruption, and is acknowledged. -/
theorem ack_sound_in_pieces :
    ∃ tr w, Run (machine .little) AcksHonestly freshWorld tr w ∧
      tr.any Event.isAck = true ∧ AtEach (Backed .little) tr := by
  obtain ⟨tr, w, hrun, hack⟩ := (machine .little).exists_run_of_exec AcksHonestly freshWorld
    [.idle { Env.quiet with accepted := some 5 },
      .lockRequest { Env.quiet with sends := [.fail .eintr, .ret 10, .ret 14] }
        lockCommand true] (fun r => r.2.any Event.isAck) (by decide +kernel) (by decide +kernel)
  exact ⟨tr, w, hrun, hack, (ack_sound .little).2 _ _ _ hrun⟩

/-- A termd that has just come up and has no terminal acknowledges a command
with success. -/
theorem ack_without_terminal :
    ∃ tr w, Run (machine .little) Always freshWorld tr w ∧ ¬AtEach (Backed .little) tr := by
  have hrun := (machine .little).run_of_exec_always freshWorld
    [.lockRequest .quiet lockCommand true] rfl
  refine ⟨_, _, hrun, fun h => ?_⟩
  obtain ⟨pre', cmd, hpre⟩ := h 1 _ rfl _ rfl (by decide +kernel)
  have := congrArg List.length hpre
  simp at this

/-! ### The row and the link -/

/-- The row of this terminal says whether the terminal is connected. -/
def LinkTruth (w : World) : Prop :=
  ∃ r, w.table.row? w.termd.termNo = some r ∧
    r.state = (if w.termd.tcp.hasClient then termStateConnected else termStateDisconnected) ∧
    r.capabilities = if w.termd.tcp.hasClient then capLock else 0

instance (w : World) : Decidable (LinkTruth w) :=
  decidable_of_iff (∃ r ∈ w.table.row? w.termd.termNo,
    r.state = (if w.termd.tcp.hasClient then termStateConnected else termStateDisconnected) ∧
      r.capabilities = if w.termd.tcp.hasClient then capLock else 0) (by simp [LinkTruth])

def Granted : Action → Prop
  | .idle env => env.access = .granted ∧ env.access' = .granted
  | .lockRequest _ _ _ => True

instance : ∀ a, Decidable (Granted a)
  | .idle env => inferInstanceAs (Decidable (env.access = .granted ∧ env.access' = .granted))
  | .lockRequest _ _ _ => isTrue trivial

/-- The bytes before the ones an `on_idle` reads: a connection accepted in the
same call starts with none. -/
def pendingBefore (w : World) (env : Env) : List UInt8 :=
  if env.accepted.isSome then [] else w.termd.rx.data

def readBy (w : World) (env : Env) : List UInt8 :=
  match env.received with
  | .data d => if env.accepted.isSome || w.termd.tcp.hasClient then d.take 1024 else []
  | .fail _ => []

/-- The terminal's stream has no header that cannot be decoded, and no frame
for it is cut short by a fatal answer. -/
def KeepsLink (w : World) : Action → Prop
  | .idle env =>
      readBy w env ≠ [] → ∀ err, (cutStream (pendingBefore w env ++ readBy w env)).2 ≠ .dead err
  | .lockRequest env data _ =>
      data.length = IpcLockRequest.size → w.termd.tcp.hasClient = true →
        Undisturbed LockRequest.size env.sends

def afterStream (t : Termd) : Rest UInt8 WireError → Termd
  | .pending d => { t with rx := ⟨d⟩ }
  | .dead _ => { t with tcp := t.tcp.dropClient, rx := .empty }

theorem drain_fst (e : Endian) {fuel : ℕ} {t : Termd} (h : t.rx.pending < fuel) :
    (Termd.drain e fuel t).1 = afterStream t (headerFramer.parse t.rx.data).2 := by
  induction fuel generalizing t with
  | zero => omega
  | succ fuel ih =>
      cases hn : t.rx.next with
      | none =>
          rw [Framer.parse_wait (look_of_next_none hn)]
          simp only [Termd.drain, hn, afterStream]
      | some msg =>
          have hl := look_of_next hn
          obtain ⟨-, hmin, -⟩ := StreamBuffer.next_eq_some hn
          have hshort := StreamBuffer.pending_consume_lt hn
          simp only [Termd.drain, hn, Termd.handleFromTerminal, unpackHeader_eq e default hmin]
          by_cases hc : (Header.ofWire msg).check = .ok
          · rw [if_pos hc] at hl
            rw [if_neg (not_not.mpr hc), Framer.parse_frame hl]
            have hrest := ih (t := { t with rx := t.rx.consume msg.length }) (by
              simp only
              omega)
            simp only [StreamBuffer.data_consume] at hrest
            rw [hrest]
            cases (headerFramer.parse (t.rx.data.drop msg.length)).2 <;> rfl
          · rw [if_neg hc] at hl
            rw [if_pos hc, Framer.parse_reject hl]
            -- the buffer was reset, so the loop ends with the next turn
            obtain ⟨fuel, rfl⟩ := Nat.exists_eq_succ_of_ne_zero (n := fuel) (by omega)
            have hreset : t.rx.reset.consume msg.length = .empty := by
              simp [StreamBuffer.reset, StreamBuffer.consume, StreamBuffer.empty]
            simp only [hreset, Termd.drain, StreamBuffer.next_nil, StreamBuffer.empty,
              afterStream]

theorem receive_fst (e : Endian) (t : Termd) (chunk : List UInt8) :
    (Termd.receive e t chunk).1 =
      afterStream t (cutStream (t.rx.data ++ chunk)).2 := by
  rw [Termd.receive, drain_fst e (Nat.lt_succ_self _), cutStream_eq_parse]
  simp only [StreamBuffer.data_append]
  cases (headerFramer.parse (t.rx.data ++ chunk)).2 <;> rfl

theorem loc_accept (t : Termd) (g : Segment) (env : Env) :
    (Termd.accept env t g).loc.rx.data = pendingBefore ⟨t, g⟩ env ∧
      (Termd.accept env t g).loc.tcp.hasClient = (env.accepted.isSome || t.tcp.hasClient) := by
  cases ha : env.accepted <;>
    simp [Termd.accept, TcpServer.pollAccept, ha, pendingBefore, TcpServer.hasClient]

theorem truth_accept {t : Termd} {g : Segment} {env : Env} (h : LinkTruth ⟨t, g⟩)
    (hg : env.access = .granted) :
    LinkTruth ⟨(Termd.accept env t g).loc, (Termd.accept env t g).shared⟩ := by
  cases ha : env.accepted with
  | none => simpa [Termd.accept, TcpServer.pollAccept, ha] using h
  | some fd =>
      obtain ⟨r, hr, -, -⟩ := h
      have hacc : Termd.accept env t g =
          ⟨⟨t.slot, ⟨some fd, t.tcp.spinning⟩, t.rx.reset⟩,
            (g.setState .granted env.now t.termNo termStateConnected capLock).2, [],
            [.connected]⟩ := by
        simp [Termd.accept, TcpServer.pollAccept, ha, hg]
      rw [hacc]
      exact ⟨_, Segment.row?_setState env.now termStateConnected capLock hr, rfl, rfl⟩

/-- A connection dropped without a word to the table falsifies its row. -/
theorem not_truth_of_dropped {t t' : Termd} {g : Segment} (h : LinkTruth ⟨t, g⟩)
    (hc : t.tcp.hasClient = true) (hslot : t'.termNo = t.termNo)
    (hc' : t'.tcp.hasClient = false) : ¬LinkTruth ⟨t', g⟩ := by
  rintro ⟨r', hr', hstate', -⟩
  obtain ⟨r, hr, hstate, -⟩ := h
  simp only [hc, if_true] at hstate
  simp only [hslot, hr, Option.some.injEq] at hr'
  simp only [hc', Bool.false_eq_true, if_false, ← hr', hstate] at hstate'
  revert hstate'
  decide

/-- Reading keeps the truth unless the stream breaks off at a header. -/
theorem truth_read_iff {e : Endian} {t : Termd} {g : Segment} {env : Env}
    (h : LinkTruth ⟨t, g⟩) (hg : env.access' = .granted) :
    LinkTruth ⟨(Termd.read e env t g).loc, (Termd.read e env t g).shared⟩ ↔
      ∀ chunk, (t.tcp.pollRead 1024 env.received).1 = .bytes chunk →
        ∀ err, (cutStream (t.rx.data ++ chunk)).2 ≠ .dead err := by
  rcases t.tcp.pollRead_cases 1024 env.received with hp | hp | ⟨chunk, hp⟩
  · obtain ⟨r, hr, -, -⟩ := h
    simp only [hp, reduceCtorEq, false_implies, implies_true, iff_true, Termd.read]
    rw [hg]
    exact ⟨_, Segment.row?_setState env.now termStateDisconnected 0 hr, rfl, rfl⟩
  · simp only [hp, reduceCtorEq, false_implies, implies_true, iff_true, Termd.read]
    exact h
  · have hclient : t.tcp.hasClient = true := by
      have hb : (t.tcp.pollRead 1024 env.received).1 = .bytes chunk := by rw [hp]
      exact (TcpServer.pollRead_bytes.mp hb).1
    simp only [Termd.read, hp, receive_fst, TcpServer.ReadResult.bytes.injEq, forall_eq']
    cases hcut : (cutStream (t.rx.data ++ chunk)).2 with
    | pending d =>
        simp only [afterStream, reduceCtorEq, ne_eq, not_false_eq_true, implies_true, iff_true]
        exact h
    | dead err =>
        simp only [afterStream, ne_eq, Rest.dead.injEq, forall_eq', iff_false]
        exact not_truth_of_dropped h hclient rfl rfl

theorem readBy_eq (w : World) (env : Env) :
    (∀ chunk, ((Termd.accept env w.termd w.table).loc.tcp.pollRead 1024 env.received).1 =
      .bytes chunk → ∀ err, (cutStream (pendingBefore w env ++ chunk)).2 ≠ .dead err) ↔
      KeepsLink w (.idle env) := by
  have hclient := (loc_accept w.termd w.table env).2
  simp only [TcpServer.pollRead_bytes, hclient, KeepsLink, readBy]
  cases hrecv : env.received with
  | fail err => simp
  | data d =>
      cases hc : env.accepted.isSome || w.termd.tcp.hasClient with
      | false => simp
      | true => simp

theorem truth_idle_iff {e : Endian} {w : World} {env : Env} (h : LinkTruth w)
    (hg : Granted (.idle env)) :
    LinkTruth ⟨(w.termd.onIdle e env w.table).loc, (w.termd.onIdle e env w.table).shared⟩ ↔
      KeepsLink w (.idle env) := by
  rw [← readBy_eq, ← (loc_accept w.termd w.table env).1]
  exact truth_read_iff (truth_accept h hg.1) hg.2

theorem truth_command_iff {e : Endian} {w : World} {env : Env} {data : List UInt8} {up : Bool}
    (h : LinkTruth w) :
    LinkTruth ⟨(w.termd.onLockRequest e env w.table data).loc,
      (w.termd.onLockRequest e env w.table data).shared⟩ ↔
      KeepsLink w (.lockRequest env data up) := by
  simp only [KeepsLink]
  by_cases hlen : data.length = IpcLockRequest.size
  · cases hc : w.termd.tcp.hasClient with
    | false =>
        rw [Termd.onLockRequest_of_no_client hlen hc]
        simpa using h
    | true =>
        rw [Termd.onLockRequest_of_client hlen hc]
        simp only [hlen, true_implies]
        by_cases hu : Undisturbed LockRequest.size env.sends
        · simp only [hu, iff_true]
          rcases send_of_undisturbed hc hu with hsend | hsend
          · rw [TcpServer.send_clientFd (congrArg SendCall.returned hsend)]
            exact h
          · rw [TcpServer.send_spinning hsend]
            exact h
        · -- `send` drops the client, and the row is not told
          simp only [hu, iff_false]
          rw [TcpServer.send_clientFd (send_of_disturbed hc hu)]
          exact not_truth_of_dropped h hc rfl rfl
  · simpa [Termd.onLockRequest, hlen] using h

/-- The step: the truth is kept if and only if the stream has no header that
cannot be decoded, or the frame is not cut short. -/
theorem truth_step_iff {e : Endian} {w w' : World} {a : Action} {es : List Event}
    (h : LinkTruth w) (hg : Granted a) (hs : step e w a = some (w', es)) :
    LinkTruth w' ↔ KeepsLink w a := by
  cases a with
  | idle env =>
      simp only [step, Option.ite_none_left_eq_some, Option.some.injEq, Prod.mk.injEq] at hs
      obtain ⟨-, rfl, -⟩ := hs
      exact truth_idle_iff h hg
  | lockRequest env data up =>
      simp only [step, Option.ite_none_left_eq_some, Option.some.injEq, Prod.mk.injEq] at hs
      obtain ⟨-, rfl, -⟩ := hs
      exact truth_command_iff h

/-- A termd that has just come up, its row freshly registered. -/
def FreshlyRegistered (w : World) : Prop :=
  (∃ slot, w.termd = .listening slot) ∧
    ∃ r, w.table.row? w.termd.termNo = some r ∧ r.state = termStateDisconnected ∧
      r.capabilities = 0

theorem truth_of_fresh {w : World} (h : FreshlyRegistered w) : LinkTruth w := by
  obtain ⟨⟨slot, hslot⟩, r, hr, hstate, hcaps⟩ := h
  have hc : w.termd.tcp.hasClient = false := by rw [hslot]; rfl
  exact ⟨r, hr, by simp [hc, hstate], by simp [hc, hcaps]⟩

/-- From a freshly registered row on, the row tells the truth about the link
after every step of a run whose steps meet the condition, and the first step
that does not meet it leaves the row false. -/
theorem link_truth {e : Endian} {w₀ w : World} {tr : List Event} (h₀ : FreshlyRegistered w₀)
    (hrun : Run (machine e) (fun w a => Granted a ∧ KeepsLink w a) w₀ tr w) :
    LinkTruth w ∧ ∀ a w' es, Granted a → step e w a = some (w', es) →
      (LinkTruth w' ↔ KeepsLink w a) := by
  have htruth : LinkTruth w := hrun.invariant_state LinkTruth (truth_of_fresh h₀)
    fun s a s' es hs hok hstep => (truth_step_iff hs hok.1 hstep).mpr hok.2
  exact ⟨htruth, fun a w' es hg hs => truth_step_iff htruth hg hs⟩

theorem freshWorld_fresh : FreshlyRegistered freshWorld :=
  ⟨⟨1, rfl⟩, ⟨1001, 0, termStateDisconnected, (0, 0, 0), 0⟩, by decide +kernel, rfl, rfl⟩

/-- A terminal connects, and a command is delivered to it. -/
theorem link_truth_delivered :
    ∃ tr w, Run (machine .little) (fun w a => Granted a ∧ KeepsLink w a) freshWorld tr w ∧
      w.termd.tcp.hasClient = true ∧ LinkTruth w := by
  obtain ⟨tr, w, hrun, hclient⟩ := (machine .little).exists_run_of_exec
    (fun w a => Granted a ∧ KeepsLink w a) freshWorld
    [.idle { Env.quiet with accepted := some 5 },
      .lockRequest { Env.quiet with sends := [.ret 24] } lockCommand true]
    (fun r => r.1.termd.tcp.hasClient) (by decide +kernel)
    ⟨⟨⟨rfl, rfl⟩, fun h => absurd rfl h⟩,
      fun _ _ => ⟨⟨trivial, fun _ _ => .inl (by decide)⟩, fun _ _ => trivial⟩⟩
  exact ⟨tr, w, hrun, hclient, (link_truth freshWorld_fresh hrun).1⟩

/-- A terminal connects and sends bytes that are no header: it is dropped, and
its row still says that it is connected. -/
theorem link_false_after_garbage :
    ∃ tr w, FreshlyRegistered freshWorld ∧
      Run (machine .little) (fun _ a => Granted a) freshWorld tr w ∧ ¬LinkTruth w := by
  obtain ⟨tr, w, hrun, hfalse⟩ := (machine .little).exists_run_of_exec
    (fun _ a => Granted a) freshWorld
    [.idle { Env.quiet with accepted := some 5 },
      .idle { Env.quiet with received := .data (List.replicate 20 0) }]
    (fun r => !decide (LinkTruth r.1)) (by decide +kernel) (by decide +kernel)
  exact ⟨tr, w, freshWorld_fresh, hrun, by simpa using hfalse⟩

end Fleetcore.TerminalLink
