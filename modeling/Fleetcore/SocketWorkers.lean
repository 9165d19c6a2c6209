import Fleetcore.Delivery
import Fleetcore.Lib.Sessions

/-!
The socket workers of the two screens (`term_gui/comm_worker.cpp`,
`maint_gui/maint_worker.cpp`).

A worker is the client end of one connection at a time. It lives in the event
loop of its thread and reacts to what happens to its socket, to the timers it
has set and to the calls that are queued for it, one after the other. The two
classes do the same, but for the messages they take, for where their log goes
and for the command that the maintenance side sends.

Of a `QTcpSocket` they rely on this. It is unconnected, connecting or connected.
An attempt that succeeds is signalled by `connected`; one that fails is not
signalled by anything the workers listen to. The end of a connection is
signalled by `disconnected`, and when `abort` ends it, from within that call.
`write` returns how many bytes the socket took, or -1.
-/

namespace Fleetcore

open ByteOrder Framing StateMachine Sessions

/-! ### The common part -/

/-- `QAbstractSocket::SocketState`. -/
inductive SocketState where
  | unconnected
  | connecting
  | connected
  deriving DecidableEq, Repr

/-- A line of the log, by its kind and its arguments. -/
inductive LogLine where
  | connecting (host : String) (port : UInt16)
  | connected
  | disconnected
  | notConnected
  | badNumber
  | packFailed
  | shortWrite
  | lockSent (termNo : List UInt8) (seq : UInt16)
  | stream (e : WireError)
  | notHandled (code : UInt8)
  | message (e : WireError)
  | ack (termNo : TermNo) (seq : UInt16) (result : UInt8)
  deriving DecidableEq, Repr

inductive Signal (M : Type) where
  | logLine (line : LogLine)
  | linkStateChanged (connected : Bool)
  /-- `lockReceived` and `ackReceived`. -/
  | received (m : M)
  deriving DecidableEq, Repr

/-- What a worker does that can be seen from outside. -/
inductive Out (M : Type) where
  | linked
  /-- The socket could not be connected. -/
  | refused
  | read (bytes : List UInt8)
  /-- A frame handed to `write`, and what `write` returned. -/
  | wrote (frame : List UInt8) (taken : ℤ)
  | signal (s : Signal M)
  deriving DecidableEq, Repr

inductive Happening where
  | started
  | connected
  | failed
  /-- The other end is gone. -/
  | disconnected
  | readyRead (chunk : List UInt8)
  /-- A single-shot timer has run down. -/
  | timeout
  deriving DecidableEq, Repr

structure Worker where
  host : String
  port : UInt16
  /-- `none` before `start`. -/
  socket : Option SocketState
  rx : StreamBuffer
  /-- How many single-shot timers are running. -/
  timers : ℕ
  deriving DecidableEq

namespace Worker

def init (host : String) (port : UInt16) : Worker := ⟨host, port, none, .empty, 0⟩

section Slots

variable {M : Type} (logs : Bool) (handle : List UInt8 → Received M)

/-- A line of the log: a signal on one side, printed on the other. -/
def say (line : LogLine) : List (Out M) := if logs then [.signal (.logLine line)] else []

def tryReconnect (w : Worker) : Worker × List (Out M) :=
  if w.socket ≠ some .unconnected then (w, [])
  else ({ w with socket := some .connecting }, say logs (.connecting w.host w.port))

def start (w : Worker) : Worker × List (Out M) :=
  tryReconnect logs { w with socket := some .unconnected }

def onConnected (w : Worker) : Worker × List (Out M) :=
  ({ w with rx := w.rx.reset }, say logs .connected ++ [.signal (.linkStateChanged true)])

def onDisconnected (w : Worker) : Worker × List (Out M) :=
  ({ w with rx := w.rx.reset, timers := w.timers + 1 },
    say logs .disconnected ++ [.signal (.linkStateChanged false)])

def abort (w : Worker) : Worker × List (Out M) :=
  if w.socket = some .connected then onDisconnected logs { w with socket := some .unconnected }
  else ({ w with socket := w.socket.map fun _ => .unconnected }, [])

def stop (w : Worker) : Worker × List (Out M) := abort logs w

/-- What `handleMessage` emits about a message before it comes to `abort`. -/
def told (buf : List UInt8) : List (Out M) :=
  match handle buf with
  | .desync err => say logs (.stream err)
  | .skipped none => say logs (.notHandled (Header.ofWire buf).code)
  | .skipped (some err) => say logs (.message err)
  | .emitted m => [.signal (.received m)]

def handleMessage (w : Worker) (buf : List UInt8) : Worker × List (Out M) :=
  match handle buf with
  | .desync _ =>
      let a := abort logs { w with rx := w.rx.reset }
      (a.1, told logs handle buf ++ a.2)
  | _ => (w, told logs handle buf)

def readLoop : ℕ → Worker → Worker × List (Out M)
  | 0, w => (w, [])
  | fuel + 1, w =>
      match w.rx.next with
      | none => (w, [])
      | some msg =>
          let h := handleMessage logs handle w msg
          let d := readLoop fuel { h.1 with rx := h.1.rx.consume msg.length }
          (d.1, h.2 ++ d.2)

/-- A chunk arrives: `append`, then the loop. Every message takes at least one
byte, so the fuel does not run out. -/
def onReadyRead (w : Worker) (chunk : List UInt8) : Worker × List (Out M) :=
  let w := { w with rx := w.rx.append chunk }
  let d := readLoop logs handle (w.rx.pending + 1) w
  (d.1, .read chunk :: d.2)

/-- The slot an event leads to; `none` where the event cannot occur. -/
def react (w : Worker) : Happening → Option (Worker × List (Out M))
  | .started => if w.socket = none then some (start logs w) else none
  | .connected =>
      if w.socket = some .connecting then
        let r := onConnected logs { w with socket := some .connected }
        some (r.1, .linked :: r.2)
      else none
  | .failed =>
      if w.socket = some .connecting then
        some ({ w with socket := some .unconnected }, [.refused])
      else none
  | .disconnected =>
      if w.socket = some .connected then
        some (onDisconnected logs { w with socket := some .unconnected })
      else none
  | .readyRead chunk =>
      if w.socket = some .connected then some (onReadyRead logs handle w chunk) else none
  | .timeout =>
      if 0 < w.timers then some (tryReconnect logs { w with timers := w.timers - 1 }) else none

end Slots

/-! ### What one event does -/

section Spec

variable {M : Type} (logs : Bool) (handle : List UInt8 → Received M)

/-- A worker whose connection has ended: it dials again when the timer has run down. -/
def dropped (w : Worker) : Worker :=
  { w with socket := some .unconnected, rx := .empty, timers := w.timers + 1 }

def gained : List (Out M) := say logs .connected ++ [.signal (.linkStateChanged true)]

def lost : List (Out M) := say logs .disconnected ++ [.signal (.linkStateChanged false)]

def afterStream (w : Worker) : Rest UInt8 WireError → Worker
  | .pending d => { w with rx := ⟨d⟩ }
  | .dead _ => w.dropped

def restOuts : Rest UInt8 WireError → List (Out M)
  | .pending _ => []
  | .dead err => say logs (.stream err) ++ lost logs

def looped (data : List UInt8) : List (Out M) :=
  (headerFramer.parse data).1.flatMap (told logs handle) ++
    restOuts logs (headerFramer.parse data).2

variable {logs handle} {w w' : Worker} {es : List (Out M)}

@[simp] theorem afterStream_rx (w : Worker) (b : StreamBuffer) (rest : Rest UInt8 WireError) :
    ({ w with rx := b } : Worker).afterStream rest = w.afterStream rest := by
  cases rest <;> rfl

theorem tryReconnect_of_unconnected (h : w.socket = some .unconnected) :
    w.tryReconnect (M := M) logs =
      ({ w with socket := some .connecting }, say logs (.connecting w.host w.port)) := by
  rw [tryReconnect, if_neg (not_not.mpr h)]

theorem tryReconnect_of_ne (h : w.socket ≠ some .unconnected) :
    w.tryReconnect (M := M) logs = (w, []) := by
  rw [tryReconnect, if_pos h]

theorem abort_of_connected (h : w.socket = some .connected) :
    w.abort (M := M) logs = (w.dropped, lost logs) := by
  rw [abort, if_pos h]
  rfl

variable (logs) in
theorem handleMessage_of_bad (h : w.socket = some .connected) {buf : List UInt8} {err : WireError}
    (hd : handle buf = .desync err) : w.handleMessage logs handle buf =
      (w.dropped, say logs (.stream err) ++ lost logs) := by
  have hs : ({ w with rx := w.rx.reset } : Worker).socket = some .connected := h
  simp only [handleMessage, told, hd, abort_of_connected hs]
  rfl

theorem handleMessage_of_good {buf : List UInt8} (h : ∀ err, handle buf ≠ .desync err) :
    w.handleMessage logs handle buf = (w, told logs handle buf) := by
  cases hb : handle buf with
  | desync err => exact absurd hb (h err)
  | skipped err => simp only [handleMessage, hb]
  | emitted m => simp only [handleMessage, hb]

theorem readLoop_of_empty (fuel : ℕ) (h : w.rx = .empty) :
    w.readLoop logs handle fuel = (w, []) := by
  cases fuel with
  | zero => rfl
  | succ fuel =>
      have hn : w.rx.next = none := by rw [h]; exact StreamBuffer.next_nil
      simp only [readLoop, hn]

variable (logs) in
theorem readLoop_eq (hj : Judges handle) {fuel : ℕ} (h : w.rx.pending < fuel)
    (hs : w.socket = some .connected) : w.readLoop logs handle fuel =
      (w.afterStream (headerFramer.parse w.rx.data).2, looped logs handle w.rx.data) := by
  unfold looped
  induction fuel generalizing w with
  | zero => omega
  | succ fuel ih =>
      cases hn : w.rx.next with
      | none =>
          rw [Framer.parse_wait (look_of_next_none hn)]
          simp only [readLoop, hn]
          rfl
      | some msg =>
          have hl := look_of_next hn
          obtain ⟨-, hmin, -⟩ := StreamBuffer.next_eq_some hn
          by_cases hc : (Header.ofWire msg).check = .ok
          · rw [if_pos hc] at hl
            have hless := StreamBuffer.pending_consume_lt hn
            have hrest := ih (w := { w with rx := w.rx.consume msg.length })
              (by simp only; omega) hs
            simp only [StreamBuffer.data_consume] at hrest
            simp only [readLoop, hn, handleMessage_of_good (hj.good msg hmin hc),
              Framer.parse_frame hl, hrest, afterStream_rx, List.flatMap_cons, List.append_assoc]
          · rw [if_neg hc] at hl
            have hbad := handleMessage_of_bad logs hs (hj.bad msg hmin hc)
            -- the buffer is empty now, and consuming the message leaves it so
            have hempty : ({ w.dropped with rx := w.dropped.rx.consume msg.length } : Worker) =
                w.dropped := by
              simp [dropped, StreamBuffer.consume, StreamBuffer.empty]
            simp only [readLoop, hn, hbad, hempty, readLoop_of_empty (w := w.dropped) fuel rfl,
              Framer.parse_reject hl, List.append_nil]
            rfl

theorem onReadyRead_eq (hj : Judges handle) (hs : w.socket = some .connected)
    (chunk : List UInt8) : w.onReadyRead logs handle chunk =
      (w.afterStream (headerFramer.parse (w.rx.data ++ chunk)).2,
        .read chunk :: looped logs handle (w.rx.data ++ chunk)) := by
  have hloop := readLoop_eq logs hj (w := { w with rx := w.rx.append chunk })
    (Nat.lt_succ_self _) hs
  simp only [StreamBuffer.data_append, afterStream_rx] at hloop
  simp only [onReadyRead, hloop]

/-- The events of a worker, each with what made it possible. -/
inductive Reacts (logs : Bool) (handle : List UInt8 → Received M) (w : Worker) :
    Happening → Worker → List (Out M) → Prop
  | started (hs : w.socket = none) :
      Reacts logs handle w .started { w with socket := some .connecting }
        (say logs (.connecting w.host w.port))
  | connected (hs : w.socket = some .connecting) :
      Reacts logs handle w .connected { w with socket := some .connected, rx := .empty }
        (.linked :: gained logs)
  | failed (hs : w.socket = some .connecting) :
      Reacts logs handle w .failed { w with socket := some .unconnected } [.refused]
  | disconnected (hs : w.socket = some .connected) :
      Reacts logs handle w .disconnected w.dropped (lost logs)
  | readyRead (hs : w.socket = some .connected) (chunk : List UInt8) :
      Reacts logs handle w (.readyRead chunk)
        (w.afterStream (headerFramer.parse (w.rx.data ++ chunk)).2)
        (.read chunk :: looped logs handle (w.rx.data ++ chunk))
  | redial (ht : 0 < w.timers) (hs : w.socket = some .unconnected) :
      Reacts logs handle w .timeout { w with socket := some .connecting, timers := w.timers - 1 }
        (say logs (.connecting w.host w.port))
  | idle (ht : 0 < w.timers) (hs : w.socket ≠ some .unconnected) :
      Reacts logs handle w .timeout { w with timers := w.timers - 1 } []

theorem react_cases (hj : Judges handle) {a : Happening}
    (h : w.react logs handle a = some (w', es)) : Reacts logs handle w a w' es := by
  cases a with
  | started =>
      simp only [react, Option.ite_none_right_eq_some, Option.some.injEq] at h
      obtain ⟨hs, hr⟩ := h
      obtain ⟨rfl, rfl⟩ := Prod.mk.inj (hr.symm.trans (tryReconnect_of_unconnected rfl))
      exact .started hs
  | connected =>
      simp only [react, Option.ite_none_right_eq_some, Option.some.injEq, Prod.mk.injEq] at h
      obtain ⟨hs, rfl, rfl⟩ := h
      exact .connected hs
  | failed =>
      simp only [react, Option.ite_none_right_eq_some, Option.some.injEq, Prod.mk.injEq] at h
      obtain ⟨hs, rfl, rfl⟩ := h
      exact .failed hs
  | disconnected =>
      simp only [react, Option.ite_none_right_eq_some, Option.some.injEq] at h
      obtain ⟨hs, hr⟩ := h
      obtain ⟨rfl, rfl⟩ := Prod.mk.inj hr.symm
      exact .disconnected hs
  | readyRead chunk =>
      simp only [react, Option.ite_none_right_eq_some, Option.some.injEq] at h
      obtain ⟨hs, hr⟩ := h
      obtain ⟨rfl, rfl⟩ := Prod.mk.inj (hr.symm.trans (onReadyRead_eq hj hs chunk))
      exact .readyRead hs chunk
  | timeout =>
      simp only [react, Option.ite_none_right_eq_some, Option.some.injEq] at h
      obtain ⟨ht, hr⟩ := h
      by_cases hs : w.socket = some .unconnected
      · obtain ⟨rfl, rfl⟩ := Prod.mk.inj (hr.symm.trans (tryReconnect_of_unconnected hs))
        exact .redial ht hs
      · obtain ⟨rfl, rfl⟩ := Prod.mk.inj (hr.symm.trans (tryReconnect_of_ne hs))
        exact .idle ht hs

inductive Stops (logs : Bool) (w : Worker) : Worker → List (Out M) → Prop
  | connected (hs : w.socket = some .connected) : Stops logs w w.dropped (lost logs)
  | other (hs : w.socket ≠ some .connected) :
      Stops logs w { w with socket := w.socket.map fun _ => .unconnected } []

theorem stops_of_stop (h : w.stop logs = (w', es)) : Stops logs w w' es := by
  by_cases hs : w.socket = some .connected
  · rw [stop, abort_of_connected hs] at h
    obtain ⟨rfl, rfl⟩ := Prod.mk.inj h
    exact .connected hs
  · rw [stop, abort, if_neg hs] at h
    obtain ⟨rfl, rfl⟩ := Prod.mk.inj h
    exact .other hs

end Spec

/-! ### What can be seen of a worker -/

section Views

variable {M : Type}

def bytesRead (os : List (Out M)) : List UInt8 :=
  os.flatMap fun
    | .read bytes => bytes
    | _ => []

def received (os : List (Out M)) : List M :=
  os.filterMap fun
    | .signal (.received m) => some m
    | _ => none

/-- The link state that was signalled last, or `b`. -/
def lastLink (b : Bool) (ss : List (Signal M)) : Bool :=
  ss.foldl (fun b s =>
    match s with
    | .linkStateChanged connected => connected
    | _ => b) b

def emitted (os : List (Out M)) : List (Signal M) :=
  os.filterMap fun
    | .signal s => some s
    | _ => none

theorem bytesRead_append (os os' : List (Out M)) :
    bytesRead (os ++ os') = bytesRead os ++ bytesRead os' := List.flatMap_append

theorem received_append (os os' : List (Out M)) :
    received (os ++ os') = received os ++ received os' := List.filterMap_append

theorem emitted_append (os os' : List (Out M)) :
    emitted (os ++ os') = emitted os ++ emitted os' := List.filterMap_append

theorem lastLink_append (b : Bool) (ss ss' : List (Signal M)) :
    lastLink b (ss ++ ss') = lastLink (lastLink b ss) ss' := List.foldl_append

def opens : Out M → Bool
  | .linked => true
  | _ => false

/-- Nothing is seen but signals. -/
def OnlySignals (os : List (Out M)) : Prop := ∀ o ∈ os, ∃ s, o = .signal s

theorem OnlySignals.append {os os' : List (Out M)} (h : OnlySignals os) (h' : OnlySignals os') :
    OnlySignals (os ++ os') := fun o ho => (List.mem_append.mp ho).elim (h o) (h' o)

theorem OnlySignals.bytesRead {os : List (Out M)} (h : OnlySignals os) :
    Worker.bytesRead os = [] := by
  refine List.flatMap_eq_nil_iff.mpr fun o ho => ?_
  obtain ⟨s, rfl⟩ := h o ho
  rfl

theorem OnlySignals.opens {os : List (Out M)} (h : OnlySignals os) :
    ∀ o ∈ os, Worker.opens o = false := fun o ho => by
  obtain ⟨s, rfl⟩ := h o ho
  rfl

theorem OnlySignals.refused {os : List (Out M)} (h : OnlySignals os) : .refused ∉ os := fun ho =>
  by obtain ⟨s, hs⟩ := h _ ho; cases hs

theorem onlySignals_say (logs : Bool) (line : LogLine) :
    OnlySignals (say logs line : List (Out M)) := by
  intro o ho
  cases logs with
  | false => cases ho
  | true => exact ⟨_, List.mem_singleton.mp ho⟩

theorem received_say (logs : Bool) (line : LogLine) :
    received (say logs line : List (Out M)) = [] := by cases logs <;> rfl

theorem lastLink_say (logs : Bool) (line : LogLine) (b : Bool) :
    lastLink b (emitted (say logs line : List (Out M))) = b := by cases logs <;> rfl

variable (logs : Bool) (handle : List UInt8 → Received M)

theorem onlySignals_told (buf : List UInt8) : OnlySignals (told logs handle buf) := by
  unfold told
  split
  · exact onlySignals_say _ _
  · exact onlySignals_say _ _
  · exact onlySignals_say _ _
  · exact fun o ho => ⟨_, List.mem_singleton.mp ho⟩

theorem received_told (buf : List UInt8) :
    received (told logs handle buf) = (handle buf).emitted?.toList := by
  unfold told
  cases handle buf with
  | desync err => exact received_say _ _
  | skipped err => cases err <;> exact received_say _ _
  | emitted m => rfl

theorem lastLink_told (buf : List UInt8) (b : Bool) :
    lastLink b (emitted (told logs handle buf)) = b := by
  unfold told
  split
  · exact lastLink_say _ _ _
  · exact lastLink_say _ _ _
  · exact lastLink_say _ _ _
  · rfl

theorem onlySignals_messages (msgs : List (List UInt8)) :
    OnlySignals (msgs.flatMap (told logs handle)) := fun o ho => by
  obtain ⟨msg, -, hmsg⟩ := List.mem_flatMap.mp ho
  exact onlySignals_told logs handle msg o hmsg

theorem received_messages (msgs : List (List UInt8)) :
    received (msgs.flatMap (told logs handle)) =
      msgs.filterMap fun msg => (handle msg).emitted? := by
  rw [received, List.filterMap_flatMap, List.filterMap_eq_flatMap_toList]
  exact congrArg (fun f => msgs.flatMap f) (funext fun msg => received_told logs handle msg)

theorem lastLink_messages (msgs : List (List UInt8)) (b : Bool) :
    lastLink b (emitted (msgs.flatMap (told logs handle))) = b := by
  induction msgs with
  | nil => rfl
  | cons msg msgs ih =>
      rw [List.flatMap_cons, emitted_append, lastLink_append, lastLink_told, ih]

theorem onlySignals_gained : OnlySignals (gained logs : List (Out M)) :=
  (onlySignals_say logs _).append fun _ ho => ⟨_, List.mem_singleton.mp ho⟩

theorem received_gained : received (gained logs : List (Out M)) = [] := by cases logs <;> rfl

theorem lastLink_gained (b : Bool) : lastLink b (emitted (gained logs : List (Out M))) = true := by
  cases logs <;> rfl

theorem onlySignals_lost : OnlySignals (lost logs : List (Out M)) :=
  (onlySignals_say logs _).append fun _ ho => ⟨_, List.mem_singleton.mp ho⟩

theorem received_lost : received (lost logs : List (Out M)) = [] := by cases logs <;> rfl

theorem lastLink_lost (b : Bool) : lastLink b (emitted (lost logs : List (Out M))) = false := by
  cases logs <;> rfl

theorem onlySignals_restOuts (rest : Rest UInt8 WireError) :
    OnlySignals (restOuts logs rest : List (Out M)) := by
  cases rest with
  | pending d => exact fun o ho => by cases ho
  | dead err => exact (onlySignals_say logs _).append (onlySignals_lost logs)

theorem received_restOuts (rest : Rest UInt8 WireError) :
    received (restOuts logs rest : List (Out M)) = [] := by
  cases rest with
  | pending d => rfl
  | dead err => rw [restOuts, received_append, received_say, received_lost, List.append_nil]

theorem onlySignals_looped (data : List UInt8) : OnlySignals (looped logs handle data) :=
  (onlySignals_messages logs handle _).append (onlySignals_restOuts logs _)

theorem received_looped (data : List UInt8) : received (looped logs handle data) =
    (headerFramer.parse data).1.filterMap fun msg => (handle msg).emitted? := by
  rw [looped, received_append, received_messages, received_restOuts, List.append_nil]

end Views

/-! ### What every event keeps -/

section Invariants

variable {M : Type} {logs : Bool} {handle : List UInt8 → Received M} {w w' : Worker}
  {a : Happening} {es cur : List (Out M)}

def up (w : Worker) : Bool := decide (w.socket = some .connected)

/-- What was signalled last is what the socket is like. -/
theorem Reacts.link (h : Reacts logs handle w a w' es) : lastLink w.up (emitted es) = w'.up := by
  cases h with
  | started hs => rw [lastLink_say, up, hs]; rfl
  | connected hs =>
      rw [← List.singleton_append, emitted_append, lastLink_append, lastLink_gained]
      rfl
  | failed hs => rw [up, hs]; rfl
  | disconnected hs => exact lastLink_lost _ _
  | readyRead hs chunk =>
      rw [← List.singleton_append, looped, emitted_append, emitted_append, lastLink_append,
        lastLink_append, lastLink_messages]
      cases (headerFramer.parse (w.rx.data ++ chunk)).2 with
      | pending d => rfl
      | dead err =>
          rw [restOuts, emitted_append, lastLink_append, lastLink_lost]
          rfl
  | redial ht hs => rw [lastLink_say, up, hs]; rfl
  | idle ht hs => rfl

theorem Stops.link (h : Stops logs w w' es) : lastLink w.up (emitted es) = w'.up := by
  cases h with
  | connected hs => exact lastLink_lost _ _
  | other hs =>
      have hdown : w.up = false := decide_eq_false hs
      rw [hdown]
      cases hsock : w.socket <;> simp [up, emitted, lastLink]

/-- The session that is going on has come to its messages, and the buffer holds
what it leaves pending. -/
structure Tuned (handle : List UInt8 → Received M) (cur : List (Out M)) (w : Worker) : Prop where
  received : received cur =
    (cutStream (bytesRead cur)).1.filterMap fun msg => (handle msg).emitted?
  pending : w.up = true → (cutStream (bytesRead cur)).2 = .pending w.rx.data

theorem Tuned.start (h : w.rx.data = []) : Tuned handle [] w where
  received := by simp [Worker.received, bytesRead, cutStream, Header.size]
  pending := fun _ => by
    rw [h]
    simp [bytesRead, cutStream, Header.size]

theorem Tuned.quiet (h : Tuned handle cur w) (hread : bytesRead es = [])
    (hreceived : Worker.received es = []) (hup : w'.up = true → w.up = true ∧ w'.rx = w.rx) :
    Tuned handle (cur ++ es) w' where
  received := by
    rw [received_append, hreceived, bytesRead_append, hread, List.append_nil, List.append_nil,
      h.received]
  pending := fun hc => by
    obtain ⟨hc', hrx⟩ := hup hc
    rw [bytesRead_append, hread, List.append_nil, hrx, h.pending hc']

theorem Tuned.read (h : Tuned handle cur w) (hs : w.socket = some .connected)
    (chunk : List UInt8) : Tuned handle
      (cur ++ .read chunk :: looped logs handle (w.rx.data ++ chunk))
      (w.afterStream (headerFramer.parse (w.rx.data ++ chunk)).2) := by
  have hpend := h.pending (decide_eq_true hs)
  rw [cutStream_eq_parse] at hpend
  -- the buffer holds what the cuts so far have left, so the cuts go on from there
  have happ := Framer.parse_append (F := headerFramer) (bytesRead cur) chunk
  rw [hpend] at happ
  have hsignals := onlySignals_looped logs handle (w.rx.data ++ chunk)
  have hbytes : ∀ os : List (Out M), OnlySignals os →
      bytesRead (cur ++ .read chunk :: os) = bytesRead cur ++ chunk := fun os hos => by
    rw [← List.singleton_append, bytesRead_append, bytesRead_append, hos.bytesRead,
      List.append_nil]
    exact congrArg _ (List.append_nil chunk)
  refine ⟨?_, fun hc => ?_⟩
  · rw [hbytes _ hsignals, cutStream_eq_parse, happ, List.filterMap_append,
      ← List.singleton_append, received_append, received_append, h.received, received_looped,
      cutStream_eq_parse]
    rfl
  · rw [hbytes _ hsignals, cutStream_eq_parse, happ]
    cases hr : (headerFramer.parse (w.rx.data ++ chunk)).2 with
    | pending d => rfl
    | dead err =>
        rw [hr] at hc
        cases hc

theorem Tuned.reacts (h : Tuned handle cur w) (hr : Reacts logs handle w a w' es) :
    Advance opens (Tuned handle) cur es w' := by
  cases hr with
  | started hs =>
      exact .goes (onlySignals_say _ _).opens
        (h.quiet (onlySignals_say _ _).bytesRead (received_say _ _) fun hc => by cases hc)
  | connected hs =>
      have hempty : Tuned handle [] { w with socket := some .connected, rx := .empty } :=
        .start rfl
      exact .starts rfl rfl (onlySignals_gained _).opens (hempty.quiet
        (onlySignals_gained _).bytesRead (received_gained _) fun hc => ⟨hc, rfl⟩)
  | failed hs => exact .goes (by simp [opens]) (h.quiet rfl rfl fun hc => by cases hc)
  | disconnected hs =>
      exact .goes (onlySignals_lost _).opens
        (h.quiet (onlySignals_lost _).bytesRead (received_lost _) fun hc => by cases hc)
  | readyRead hs chunk =>
      exact .goes (List.forall_mem_cons.mpr ⟨rfl, (onlySignals_looped _ _ _).opens⟩)
        (h.read hs chunk)
  | redial ht hs =>
      exact .goes (onlySignals_say _ _).opens
        (h.quiet (onlySignals_say _ _).bytesRead (received_say _ _) fun hc => by cases hc)
  | idle ht hs => exact .goes (by simp) (h.quiet rfl rfl fun hc => ⟨hc, rfl⟩)

theorem Tuned.stops (h : Tuned handle cur w) (hr : Stops logs w w' es) :
    Advance opens (Tuned handle) cur es w' := by
  cases hr with
  | connected hs =>
      exact .goes (onlySignals_lost _).opens
        (h.quiet (onlySignals_lost _).bytesRead (received_lost _) fun hc => by cases hc)
  | other hs =>
      refine .goes (by simp) (h.quiet rfl rfl fun hc => ?_)
      cases hsock : w.socket <;> simp [up, hsock] at hc

/-- A worker with no connection and no timer that would make it try again. -/
def gaveUp (w : Worker) : Prop := w.socket = some .unconnected ∧ w.timers = 0

/-- A worker that tries again after every connection that is lost, until an
attempt fails; what comes after that is `Idle`. -/
structure Retries (Idle : Out M → Prop) (os : List (Out M)) (w : Worker) : Prop where
  few : w.timers ≤ 1
  waiting : 0 < w.timers → w.socket = some .unconnected
  ending : (.refused ∉ os ∧ ¬ w.gaveUp) ∨
    w.gaveUp ∧ ∃ pre post, os = pre ++ .refused :: post ∧ .refused ∉ pre ∧ ∀ o ∈ post, Idle o

variable {Idle : Out M → Prop} {os : List (Out M)}

theorem Reacts.not_gaveUp (h : Reacts logs handle w a w' es) : ¬ w.gaveUp := by
  rintro ⟨hsock, htimers⟩
  cases h with
  | started hs => cases hs.symm.trans hsock
  | connected hs => cases hs.symm.trans hsock
  | failed hs => cases hs.symm.trans hsock
  | disconnected hs => cases hs.symm.trans hsock
  | readyRead hs chunk => cases hs.symm.trans hsock
  | redial ht hs => omega
  | idle ht hs => exact hs hsock

/-- An event that refuses nothing, and after which there is something to wait for. -/
theorem Retries.goes_on (h : Retries Idle os w) (hw : ¬ w.gaveUp) (hes : .refused ∉ es)
    (hfew : w'.timers ≤ 1) (hwaiting : 0 < w'.timers → w'.socket = some .unconnected)
    (hw' : ¬ w'.gaveUp) : Retries Idle (os ++ es) w' := by
  rcases h.ending with ⟨hos, -⟩ | ⟨hgave, -⟩
  · exact ⟨hfew, hwaiting, .inl ⟨by simp [hos, hes], hw'⟩⟩
  · exact absurd hgave hw

theorem Retries.reacts (h : Retries Idle os w) (hr : Reacts logs handle w a w' es) :
    Retries Idle (os ++ es) w' := by
  have hw := hr.not_gaveUp
  -- a timer runs only while the socket is unconnected
  have hidle : w.socket ≠ some .unconnected → w.timers = 0 := fun hs =>
    Nat.eq_zero_of_not_pos fun ht => hs (h.waiting ht)
  have hdropped : w.socket = some .connected → w.dropped.timers ≤ 1 ∧ ¬ w.dropped.gaveUp := by
    intro hs
    have hzero := hidle (by simp [hs])
    exact ⟨by simp [dropped, hzero], fun hgave => Nat.succ_ne_zero _ hgave.2⟩
  cases hr with
  | started hs =>
      have hzero := hidle (by simp [hs])
      exact h.goes_on hw (onlySignals_say _ _).refused h.few (by simp [hzero]) (by simp [gaveUp])
  | connected hs =>
      have hzero := hidle (by simp [hs])
      exact h.goes_on hw (by simp [(onlySignals_gained (M := M) logs).refused]) h.few
        (by simp [hzero]) (by simp [gaveUp])
  | failed hs =>
      have hzero := hidle (by simp [hs])
      rcases h.ending with ⟨hos, -⟩ | ⟨hgave, -⟩
      · exact ⟨h.few, fun _ => rfl, .inr ⟨⟨rfl, hzero⟩, os, [], rfl, hos, by simp⟩⟩
      · exact absurd hgave hw
  | disconnected hs =>
      obtain ⟨hfew, hgave⟩ := hdropped hs
      exact h.goes_on hw (onlySignals_lost _).refused hfew (fun _ => rfl) hgave
  | readyRead hs chunk =>
      have hes : (.refused : Out M) ∉ .read chunk :: looped logs handle (w.rx.data ++ chunk) :=
        fun hmem => (List.mem_cons.mp hmem).elim (fun heq => by cases heq)
          (onlySignals_looped logs handle _).refused
      cases hp : (headerFramer.parse (w.rx.data ++ chunk)).2 with
      | pending d => exact h.goes_on hw hes h.few h.waiting fun hgave => hw hgave
      | dead err =>
          obtain ⟨hfew, hgave⟩ := hdropped hs
          exact h.goes_on hw hes hfew (fun _ => rfl) hgave
  | redial ht hs =>
      have hfew := h.few
      exact h.goes_on hw (onlySignals_say _ _).refused (by simp only; omega)
        (fun hpos => by simp only at hpos; omega) (by simp [gaveUp])
  | idle ht hs => exact absurd (h.waiting ht) hs

end Invariants

end Worker

/-! ### The two workers -/

/-- The worker of the terminal; its log lines go to `stderr`. -/
abbrev CommWorker := Worker

namespace CommWorker

inductive Call where
  | stop
  deriving DecidableEq, Repr

def react (e : Endian) (w : CommWorker) (h : Happening) :
    Option (CommWorker × List (Out LockRequest)) :=
  Worker.react false (handleMessage e) w h

def call (w : CommWorker) : Call → CommWorker × List (Out LockRequest)
  | .stop => w.stop false

end CommWorker

/-- The worker of the maintenance screen; its log lines are signals. -/
structure MaintWorker extends Worker where
  nextSeq : UInt16

namespace MaintWorker

def init (host : String) (port : UInt16) : MaintWorker := ⟨.init host port, 1⟩

inductive Call where
  /-- The Latin-1 bytes of the text. -/
  | sendLock (termNo : List UInt8)
  | stop
  deriving DecidableEq, Repr

/-- The clock, and what `write` returns. -/
structure Moment where
  now : UInt64
  taken : ℤ
  deriving DecidableEq, Repr

def log (line : LogLine) : Out LockResponse := .signal (.logLine line)

def sendLock (e : Endian) (w : MaintWorker) (raw : List UInt8) (j : Moment) :
    MaintWorker × List (Out LockResponse) :=
  if w.socket ≠ some .connected then (w, [log .notConnected])
  else if raw.length ≠ 4 then (w, [log .badNumber])
  else
    let req := makeLockRequest (TermNo.ofBytes raw) w.nextSeq j.now
    let out := packLockRequest e req outBuffer
    if out.1 = 0 then (w, [log .packFailed])
    else
      let frame := out.2.take out.1
      if j.taken ≠ frame.length then (w, [.wrote frame j.taken, log .shortWrite])
      else
        ({ w with nextSeq := w.nextSeq + 1 },
          [.wrote frame j.taken, log (.lockSent raw w.nextSeq)])

def react (e : Endian) (w : MaintWorker) (h : Happening) :
    Option (MaintWorker × List (Out LockResponse)) :=
  (Worker.react true (handleMessage e) w.toWorker h).map fun r =>
    ({ w with toWorker := r.1 }, r.2)

def call (e : Endian) (w : MaintWorker) (j : Moment) :
    Call → MaintWorker × List (Out LockResponse)
  | .sendLock raw => sendLock e w raw j
  | .stop =>
      let r := w.toWorker.stop true
      ({ w with toWorker := r.1 }, r.2)

end MaintWorker

end Fleetcore
