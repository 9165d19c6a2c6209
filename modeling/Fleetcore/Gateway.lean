import Fleetcore.Process
import Fleetcore.StreamBuffer

/-!
The gateway (`gateway/main.cpp`): receives bytes from the maintenance terminal,
cuts them into messages and forwards the lock requests to locator; passes the
acknowledgements back.
-/

namespace Fleetcore

open ByteOrder

structure Gateway where
  tcp : TcpServer
  rx : StreamBuffer
  deriving DecidableEq, Repr

namespace Gateway

inductive Handled where
  /-- The header could not be decoded. -/
  | desync (e : WireError)
  /-- A code that is not handled, or a request that could not be decoded. -/
  | skipped (e : Option WireError)
  | forwarded (m : IpcLockRequest)
  deriving DecidableEq, Repr

def Handled.severity : Handled → Severity
  | .desync _ => .stream
  | .skipped _ => .message
  | .forwarded _ => .message

def handleFromMaint (e : Endian) (buf : List UInt8) : Handled :=
  let h := unpackHeader e buf default
  if h.1 ≠ .ok then .desync h.1
  else if h.2.code ≠ codeLockRequest then .skipped none
  else
    let req := unpackLockRequest e buf default
    if req.1 ≠ .ok then .skipped (some req.1)
    -- locator fills the destination in
    else .forwarded ⟨⟨ipcLockRequest, 0⟩, req.2⟩

/-- What the receive loop of `on_idle` leaves behind. -/
structure Drained where
  handled : List (List UInt8 × Handled)
  rx : StreamBuffer
  /-- The loop was left because of an undecodable header. -/
  dropped : Option WireError
  deriving DecidableEq, Repr

/-- `while (rx_.next(&msg, &len))`, for at most `fuel` messages. -/
def drain (e : Endian) : ℕ → StreamBuffer → Drained
  | 0, rx => ⟨[], rx, none⟩
  | fuel + 1, rx =>
      match rx.next with
      | none => ⟨[], rx, none⟩
      | some msg =>
          let h := handleFromMaint e msg
          let rx := rx.consume msg.length
          match h with
          | .desync err => ⟨[(msg, h)], rx.reset, some err⟩
          | _ =>
              let d := drain e fuel rx
              ⟨(msg, h) :: d.handled, d.rx, d.dropped⟩

/-- A chunk arrives: `append`, then the loop. Every message takes at least one
byte, so the fuel does not run out. -/
def receive (e : Endian) (rx : StreamBuffer) (chunk : List UInt8) : Drained :=
  let rx := rx.append chunk
  drain e (rx.pending + 1) rx

def Handled.request? : Handled → Option IpcLockRequest
  | .forwarded m => some m
  | _ => none

def Drained.forwarded (d : Drained) : List IpcLockRequest :=
  d.handled.filterMap fun h => h.2.request?

def Drained.frames (d : Drained) : List (List UInt8) :=
  (d.handled.filter fun h => h.2.request?.isSome).map Prod.fst

def onIdle (e : Endian) (env : Env) (w : Gateway) (table : Segment) : Reaction Gateway :=
  let a := w.tcp.pollAccept env.accepted
  let rx := if a.1 then w.rx.reset else w.rx
  let notes := if a.1 then [Note.connected] else []
  match a.2.pollRead 1024 env.received with
  | (.gone, tcp) => ⟨⟨tcp, rx.reset⟩, table, [], notes ++ [.gone]⟩
  | (.nothing, tcp) => ⟨⟨tcp, rx⟩, table, [], notes⟩
  | (.bytes chunk, tcp) =>
      let d := receive e rx chunk
      let sends := d.forwarded.flatMap fun m => sendTo idxLocator (m.image e)
      let notes := notes ++ .read chunk :: d.frames.map .cut
      match d.dropped with
      | some err => ⟨⟨tcp.dropClient, d.rx⟩, table, sends, notes ++ [.desync err]⟩
      | none => ⟨⟨tcp, d.rx⟩, table, sends, notes⟩

def onLockResponse (e : Endian) (env : Env) (w : Gateway) (table : Segment)
    (data : List UInt8) : Reaction Gateway :=
  if data.length ≠ IpcLockResponse.size then ⟨w, table, [], []⟩
  else
    let m := IpcLockResponse.ofImage e data
    if !w.tcp.hasClient then ⟨w, table, [], []⟩
    else
      let out := packLockResponse e m.msg outBuffer
      if out.1 = 0 then ⟨w, table, [], []⟩
      else
        let frame := out.2.take out.1
        let call := w.tcp.send frame.length env.sends
        ⟨{ w with tcp := call.2 }, table, [], [.handed frame call.1]⟩

def handlers (e : Endian) (env : Env) (w : Gateway) (table : Segment) :
    UInt8 → Option (List UInt8 → Reaction Gateway) := fun code =>
  if code = ipcLockResponse then some (onLockResponse e env w table) else none

def init : Gateway := ⟨.listening, .empty⟩

end Gateway

end Fleetcore
