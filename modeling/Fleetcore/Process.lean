import Fleetcore.Lib.Mailbox
import Fleetcore.Wire
import Fleetcore.TcpServer
import Fleetcore.ShmTable
import Fleetcore.Msgq

/-!
The common skeleton of a business process (`common/process.cpp`).

`Process::run` receives from the process's own queue, dispatches by message
code and calls `on_idle` when the queue stays empty; that loop is the step
relation of a mailbox program, and this module has the parts of a step that do
not depend on the process. A step is one call of a handler or of `on_idle`. The
answers its system calls get are the step's input (`Env`), and what it does
besides sending messages is recorded as notes.

The messages a step sends go into an outbox and from there onto the queues one
at a time. Between two `send_to` calls of one step no process of this
repository reads a queue or touches the table, and none looks at the result of
`send_to` except to log it, so nothing else is lost by listing them up front.
-/

namespace Fleetcore

open ByteOrder

inductive Severity where
  | message
  | stream
  | peer
  | process
  deriving DecidableEq, Repr

/-- The answers to the system calls of one step. -/
structure Env where
  /-- The descriptor `accept` returns, if a connection is pending. -/
  accepted : Option ℕ
  received : RecvOutcome
  sends : List SendOutcome
  /-- For the first and for the second call of a table operation. -/
  access : Access
  access' : Access
  /-- The wall clock in milliseconds. -/
  now : UInt64

/-- Nothing is pending, everything is granted. -/
def Env.quiet : Env := ⟨none, .fail .eagain, [], .granted, .granted, 0⟩

inductive Note where
  /-- `poll_accept` returned true. -/
  | connected
  | read (bytes : List UInt8)
  /-- `poll_read` returned -1. -/
  | gone
  /-- A message `unpack_lock_request` accepted. -/
  | cut (frame : List UInt8)
  /-- The connection was dropped because of an undecodable header. -/
  | desync (e : WireError)
  /-- A message from the terminal whose header could be decoded. -/
  | decoded (frame : List UInt8)
  /-- A frame handed to `TcpServer::send`, and what became of it. -/
  | handed (frame : List UInt8) (call : SendCall)
  deriving DecidableEq, Repr

def queueKey (index : ℤ) : ℤ := Msgq.msgqKeyBase + index

/-- `Process::send_to`: `MsgQueue::send` refuses what exceeds the payload. -/
def sendTo (destIndex : ℤ) (data : List UInt8) : List (ℤ × List UInt8) :=
  if data.length > Msgq.msgqMaxPayload then [] else [(queueKey destIndex, data)]

/-- `Process::dispatch`; `skip` is what a message without a handler comes to. -/
def dispatch {R : Type*} (handlers : UInt8 → Option (List UInt8 → R)) (skip : R)
    (data : List UInt8) : R :=
  if data.length < IpcHeader.size then skip
  else
    match handlers (data.getD 0 0) with
    | none => skip
    | some handler => handler data

theorem dispatch_single {R : Type*} (code : UInt8) (handler : List UInt8 → R) (skip : R)
    (data : List UInt8) :
    dispatch (fun c => if c = code then some handler else none) skip data =
      if IpcHeader.size ≤ data.length ∧ data.getD 0 0 = code then handler data else skip := by
  unfold dispatch
  by_cases hlen : data.length < IpcHeader.size
  · rw [if_pos hlen, if_neg fun h => absurd hlen (not_lt.mpr h.1)]
  · rw [if_neg hlen]
    by_cases hcode : data.getD 0 0 = code
    · rw [if_pos ⟨not_lt.mp hlen, hcode⟩]
      simp only [hcode, if_true]
    · rw [if_neg fun h => hcode h.2]
      simp only [hcode, if_false]

def outBuffer : List UInt8 := List.replicate maxMessageLen 0

@[simp] theorem length_outBuffer : outBuffer.length = maxMessageLen := List.length_replicate

theorem sendTo_of_le {data : List UInt8} (index : ℤ) (h : data.length ≤ Msgq.msgqMaxPayload) :
    sendTo index data = [(queueKey index, data)] := if_neg (not_lt.mpr h)

theorem sendTo_image_request (index : ℤ) (e : Endian) (m : IpcLockRequest) :
    sendTo index (m.image e) = [(queueKey index, m.image e)] :=
  sendTo_of_le index (by simp [IpcLockRequest.size, Msgq.msgqMaxPayload])

theorem sendTo_image_response (index : ℤ) (e : Endian) (m : IpcLockResponse) :
    sendTo index (m.image e) = [(queueKey index, m.image e)] :=
  sendTo_of_le index (by simp [IpcLockResponse.size, Msgq.msgqMaxPayload])

theorem queueKey_inj {i j : ℤ} : queueKey i = queueKey j ↔ i = j := by
  simp [queueKey]

abbrev Reaction (L : Type*) := Mailbox.Reaction ℤ (List UInt8) L Segment Note

end Fleetcore
