import Fleetcore.Process
import Fleetcore.StreamBuffer

/-!
One termd per terminal (`termd/main.cpp`): owns the connection to its terminal,
passes commands to it, acknowledges them to gateway, and keeps the row of its
terminal in the table.
-/

namespace Fleetcore

open ByteOrder

structure Termd where
  slot : Int32
  tcp : TcpServer
  rx : StreamBuffer
  deriving DecidableEq

namespace Termd

/-- The terminal number this process serves, as stored in the table. -/
def termNo (t : Termd) : UInt32 := 1000 + t.slot.toUInt32

def listening (slot : Int32) : Termd := ⟨slot, .listening, .empty⟩

/-- `on_init`: the row exists from the moment the process is up. -/
def onInit (env : Env) (slot : Int32) (table : Segment) : Option (Reaction Termd) :=
  let t := listening slot
  let r := table.registerTerminal env.access t.termNo
  if r.1 then some ⟨t, r.2, [], []⟩ else none

def handleFromTerminal (e : Endian) (t : Termd) (buf : List UInt8) : Termd × List Note :=
  let h := unpackHeader e buf default
  if h.1 ≠ .ok then ({ t with tcp := t.tcp.dropClient, rx := t.rx.reset }, [.desync h.1])
  else (t, [.decoded buf])

def drain (e : Endian) : ℕ → Termd → Termd × List Note
  | 0, t => (t, [])
  | fuel + 1, t =>
      match t.rx.next with
      | none => (t, [])
      | some msg =>
          let h := handleFromTerminal e t msg
          let d := drain e fuel { h.1 with rx := h.1.rx.consume msg.length }
          (d.1, h.2 ++ d.2)

/-- A chunk arrives: `append`, then the loop. Every message takes at least one
byte, so the fuel does not run out. -/
def receive (e : Endian) (t : Termd) (chunk : List UInt8) : Termd × List Note :=
  let t := { t with rx := t.rx.append chunk }
  drain e (t.rx.pending + 1) t

/-- The first half of `on_idle`: a connection is accepted if one is pending. -/
def accept (env : Env) (t : Termd) (table : Segment) : Reaction Termd :=
  let a := t.tcp.pollAccept env.accepted
  if a.1 then
    ⟨{ t with tcp := a.2, rx := t.rx.reset },
      (table.setState env.access env.now t.termNo termStateConnected capLock).2, [], [.connected]⟩
  else ⟨{ t with tcp := a.2 }, table, [], []⟩

/-- The second half of `on_idle`: what the terminal sent is read. -/
def read (e : Endian) (env : Env) (t : Termd) (table : Segment) : Reaction Termd :=
  match t.tcp.pollRead 1024 env.received with
  | (.gone, tcp) =>
      ⟨{ t with tcp := tcp, rx := t.rx.reset },
        (table.setState env.access' env.now t.termNo termStateDisconnected 0).2, [], [.gone]⟩
  | (.nothing, tcp) => ⟨{ t with tcp := tcp }, table, [], []⟩
  | (.bytes chunk, tcp) =>
      let d := receive e { t with tcp := tcp } chunk
      ⟨d.1, table, [], .read chunk :: d.2⟩

def onIdle (e : Endian) (env : Env) (t : Termd) (table : Segment) : Reaction Termd :=
  let a := accept env t table
  let r := read e env a.loc a.shared
  ⟨r.loc, r.shared, [], a.obs ++ r.obs⟩

def frameOf (e : Endian) (m : LockRequest) : List UInt8 :=
  let out := packLockRequest e m outBuffer
  out.2.take out.1

/-- The acknowledgement for gateway. It does not depend on the delivery. -/
def ackOf (m : LockRequest) (now : UInt64) : IpcLockResponse where
  ipc := ⟨ipcLockResponse, Int32.ofInt idxGateway⟩
  msg := makeLockResponse m.termNo m.header.seq resultOk now

def onLockRequest (e : Endian) (env : Env) (t : Termd) (table : Segment) (data : List UInt8) :
    Reaction Termd :=
  if data.length ≠ IpcLockRequest.size then ⟨t, table, [], []⟩
  else
    let m := IpcLockRequest.ofImage e data
    let ack := sendTo idxGateway ((ackOf m.msg env.now).image e)
    if t.tcp.hasClient then
      if (packLockRequest e m.msg outBuffer).1 = 0 then
        ⟨t, table, ack, []⟩
      else
        let frame := frameOf e m.msg
        let call := t.tcp.send frame.length env.sends
        -- the acknowledgement is sent when `send` has returned, whatever it returned
        ⟨{ t with tcp := call.2 }, table, if call.1.returned.isSome then ack else [],
          [.handed frame call.1]⟩
    else ⟨t, table, ack, []⟩

def handlers (e : Endian) (env : Env) (t : Termd) (table : Segment) :
    UInt8 → Option (List UInt8 → Reaction Termd) := fun code =>
  if code = ipcLockRequest then some (onLockRequest e env t table) else none

/-! ### What a command does -/

theorem frameOf_eq (e : Endian) (m : LockRequest) : frameOf e m = m.wire := by
  rw [frameOf, packLockRequest_eq e m (by simp [LockRequest.size, maxMessageLen])]
  simp

@[simp] theorem length_frameOf (e : Endian) (m : LockRequest) : (frameOf e m).length = 24 := by
  rw [frameOf_eq]
  exact LockRequest.length_wire m

theorem packLockRequest_ne_zero (e : Endian) (m : LockRequest) :
    (packLockRequest e m outBuffer).1 ≠ 0 := by
  rw [packLockRequest_eq e m (by simp [LockRequest.size, maxMessageLen])]
  simp [LockRequest.size]

/-- A command with no terminal connected: nothing is sent, and acknowledged. -/
theorem onLockRequest_of_no_client {e : Endian} {env : Env} {t : Termd} {table : Segment}
    {data : List UInt8} (hlen : data.length = IpcLockRequest.size)
    (hc : t.tcp.hasClient = false) :
    onLockRequest e env t table data =
      ⟨t, table, [(queueKey idxGateway,
        (ackOf (IpcLockRequest.ofImage e data).msg env.now).image e)], []⟩ := by
  simp [onLockRequest, hlen, hc, sendTo_image_response]

theorem onLockRequest_of_client {e : Endian} {env : Env} {t : Termd} {table : Segment}
    {data : List UInt8} (hlen : data.length = IpcLockRequest.size)
    (hc : t.tcp.hasClient = true) :
    onLockRequest e env t table data =
      ⟨{ t with tcp := (t.tcp.send 24 env.sends).2 }, table,
        if (t.tcp.send 24 env.sends).1.returned.isSome then
          [(queueKey idxGateway, (ackOf (IpcLockRequest.ofImage e data).msg env.now).image e)]
        else [],
        [.handed (frameOf e (IpcLockRequest.ofImage e data).msg)
          (t.tcp.send 24 env.sends).1]⟩ := by
  simp [onLockRequest, hlen, hc, sendTo_image_response, packLockRequest_ne_zero]

end Termd

end Fleetcore
