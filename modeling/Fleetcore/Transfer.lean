import Fleetcore.Lib.ByteOrder
import Fleetcore.Lib.CallLoop
import Fleetcore.Lib.CheckedInt
import Fleetcore.Proto
import Fleetcore.Msgq
import Mathlib.Algebra.Order.Floor.Div

/-!
The transfer of messages over a queue (`MsgQueue::send` and
`MsgQueue::recv_timeout`).

The kernel keeps the messages of a queue in the order they were sent. Between
two polls of the receiver any number of processes may send; what `msgsnd` and
`msgrcv` come to is part of the input. The receiver polls without waiting and
sleeps for a slice of 50 ms after a poll that found nothing. It adds up the
slices in an `int`, and the sum that does not fit is a result of its own.
-/

namespace Fleetcore.Transfer

open ByteOrder CallLoop
open Fleetcore.Msgq (MsgQueue msgqMaxPayload)

abbrev Payload := List UInt8

/-- `mtext` of a value-initialised `RawMessage`. -/
def rawMessage : List UInt8 := List.replicate msgqMaxPayload 0

/-! ### Sending -/

/-- One call of `MsgQueue::send`: the object, the data and whether `msgsnd`
takes the message. -/
structure Sent where
  self : MsgQueue
  data : Payload
  taken : Bool
  deriving DecidableEq, Repr

/-- `MsgQueue::send`, and the kernel's queue afterwards. -/
def send (q : List Payload) (s : Sent) : Bool × List Payload :=
  if s.self.id = none ∨ s.data.length > msgqMaxPayload then (false, q)
  else
    let mtext := overwrite 0 s.data rawMessage
    if s.taken then (true, q ++ [slice 0 s.data.length mtext]) else (false, q)

def enqueue (q : List Payload) (ss : List Sent) : List Payload :=
  ss.foldl (fun q s => (send q s).2) q

def Sent.accepted (s : Sent) : Bool :=
  s.self.id.isSome && decide (s.data.length ≤ msgqMaxPayload) && s.taken

def payloads (ss : List Sent) : List Payload := (ss.filter Sent.accepted).map Sent.data

theorem slice_overwrite_rawMessage (d : Payload) :
    slice 0 d.length (overwrite 0 d rawMessage) = d := by
  simp [slice, overwrite]

theorem send_eq (q : List Payload) (s : Sent) :
    send q s = (s.accepted, if s.accepted then q ++ [s.data] else q) := by
  unfold send Sent.accepted
  by_cases hid : s.self.id = none
  · simp [hid]
  · by_cases hlen : s.data.length ≤ msgqMaxPayload
    · have hid' : s.self.id.isSome = true := Option.isSome_iff_ne_none.mpr hid
      cases ht : s.taken <;> simp [hid, hid', hlen, not_lt.mpr hlen, slice_overwrite_rawMessage]
    · simp [hid, hlen, not_le.mp hlen]

/-- The queue gains the accepted messages, as they were and in order. -/
theorem enqueue_eq (q : List Payload) (ss : List Sent) : enqueue q ss = q ++ payloads ss := by
  induction ss generalizing q with
  | nil => simp [enqueue, payloads]
  | cons s ss ih =>
      have hfirst : enqueue q (s :: ss) = enqueue (send q s).2 ss := rfl
      rw [hfirst, ih, send_eq]
      cases hs : s.accepted <;> simp [payloads, hs]

theorem length_le_of_mem_payloads {ss : List Sent} {d : Payload} (h : d ∈ payloads ss) :
    d.length ≤ msgqMaxPayload := by
  obtain ⟨s, hs, rfl⟩ := List.mem_map.mp h
  have hacc : s.accepted = true := (List.mem_filter.mp hs).2
  simp only [Sent.accepted, Bool.and_eq_true, decide_eq_true_eq] at hacc
  exact hacc.1.2

/-! ### Receiving -/

/-- Whether a call of `msgrcv` gets to the queue. -/
inductive Fate where
  | served
  | interrupted
  | failed
  deriving DecidableEq, Repr

/-- What `msgrcv` returns: a number of bytes, or an `errno`. -/
inductive Reply where
  | bytes (d : Payload)
  | enomsg
  | eintr
  | other
  deriving DecidableEq, Repr

/-- `msgrcv` with `IPC_NOWAIT` and room for `size` bytes. A message that does not
fit stays in the queue. -/
def msgrcv (size : ℕ) (q : List Payload) : Fate → Reply × List Payload
  | .interrupted => (.eintr, q)
  | .failed => (.other, q)
  | .served =>
      match q with
      | [] => (.enomsg, [])
      | d :: q => if d.length ≤ size then (.bytes d, q) else (.other, d :: q)

/-- The three exits with `RecvResult::Error`. -/
inductive RecvError where
  | closed
  | tooLarge
  | failed
  deriving DecidableEq, Repr

/-- What `recv_timeout` comes to: a `RecvResult`, or the addition of a slice that
has no result. -/
inductive Outcome where
  | ok (data : Payload)
  | timeout
  | error (e : RecvError)
  | overflow
  deriving DecidableEq, Repr

/-- The local variables of `recv_timeout` and what it has done so far. -/
structure Local where
  waited : Int32
  /-- The kernel's queue. -/
  queue : List Payload
  /-- Calls of `nanosleep`. -/
  slices : ℕ
  /-- Polls that found the queue empty. -/
  empties : ℕ
  deriving DecidableEq

/-- One poll: what is sent before it, and how the call fares. -/
structure Poll where
  before : List Sent
  fate : Fate
  deriving DecidableEq, Repr

def sliceMs : Int32 := 50

def recvTurn (cap : ℕ) (timeoutMs : Int32) (s : Local) (p : Poll) :
    Progress Local (Outcome × Local) :=
  let r := msgrcv msgqMaxPayload (enqueue s.queue p.before) p.fate
  match r.1 with
  | .bytes d =>
      let mtext := overwrite 0 d rawMessage
      -- the message has left the queue, whether there is room for it or not
      if d.length > cap then .done (.error .tooLarge, { s with queue := r.2 })
      else .done (.ok (slice 0 d.length mtext), { s with queue := r.2 })
  | .enomsg =>
      let s := { s with queue := r.2, empties := s.empties + 1 }
      if s.waited ≥ timeoutMs then .done (.timeout, s)
      else
        let s := { s with slices := s.slices + 1 }
        match CheckedInt.add s.waited sliceMs with
        | none => .done (.overflow, s)
        | some waited => .again { s with waited := waited }
  | .eintr => .again { s with queue := r.2 }
  | .other => .done (.error .failed, { s with queue := r.2 })

/-- `recv_timeout` on a queue with the given messages, as far as the polls reach. -/
def recvTimeout (self : MsgQueue) (cap : ℕ) (timeoutMs : Int32) (q : List Payload)
    (polls : List Poll) : Progress Local (Outcome × Local) :=
  let s : Local := ⟨0, q, 0, 0⟩
  if self.id = none then .done (.error .closed, s) else run (recvTurn cap timeoutMs) s polls

/-! ### What one turn can do -/

def Local.found (s : Local) (p : Poll) : List Payload := s.queue ++ payloads p.before

section Turns

variable {cap : ℕ} {timeoutMs : Int32} {s : Local} {p : Poll}

theorem recvTurn_interrupted (h : p.fate = .interrupted) :
    recvTurn cap timeoutMs s p = .again { s with queue := s.found p } := by
  simp [recvTurn, h, msgrcv, enqueue_eq, Local.found]

theorem recvTurn_failed (h : p.fate = .failed) :
    recvTurn cap timeoutMs s p = .done (.error .failed, { s with queue := s.found p }) := by
  simp [recvTurn, h, msgrcv, enqueue_eq, Local.found]

theorem recvTurn_message {d : Payload} {q : List Payload} (h : p.fate = .served)
    (hq : s.found p = d :: q) (hd : d.length ≤ msgqMaxPayload) (hcap : d.length ≤ cap) :
    recvTurn cap timeoutMs s p = .done (.ok d, { s with queue := q }) := by
  rw [Local.found] at hq
  simp [recvTurn, h, msgrcv, enqueue_eq, hq, hd, not_lt.mpr hcap, slice_overwrite_rawMessage]

theorem recvTurn_empty (h : p.fate = .served) (hq : s.found p = []) :
    recvTurn cap timeoutMs s p =
      if timeoutMs ≤ s.waited then
        .done (.timeout, { s with queue := [], empties := s.empties + 1 })
      else
        match CheckedInt.add s.waited sliceMs with
        | none => .done (.overflow, { s with
            queue := [], empties := s.empties + 1, slices := s.slices + 1 })
        | some waited => .again ⟨waited, [], s.slices + 1, s.empties + 1⟩ := by
  rw [Local.found] at hq
  simp only [recvTurn, h, msgrcv, enqueue_eq, hq, ge_iff_le]

end Turns

end Fleetcore.Transfer
