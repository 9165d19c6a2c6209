import Fleetcore.Codec
import Fleetcore.HeaderFraming

/-!
The receivers at both ends (`term_gui/comm_worker.cpp`,
`maint_gui/maint_worker.cpp`).

The two workers share one loop, and each takes messages of a single code. On a
header it cannot decode, `handleMessage` resets the buffer and aborts the
socket; the loop then goes on with the empty buffer and ends.
-/

namespace Fleetcore

open ByteOrder Framing

inductive Received (M : Type) where
  /-- The header could not be decoded: the buffer is reset, the socket aborted. -/
  | desync (e : WireError)
  /-- A code that is not handled, or a message that could not be decoded. -/
  | skipped (e : Option WireError)
  | emitted (m : M)
  deriving DecidableEq, Repr

/-- `handleMessage` of a worker for messages of one code. -/
def receiveMessage {M : Type} (e : Endian) (code : UInt8)
    (unpack : List UInt8 → WireError × M) (buf : List UInt8) : Received M :=
  let h := unpackHeader e buf default
  if h.1 ≠ .ok then .desync h.1
  else if h.2.code ≠ code then .skipped none
  else
    let r := unpack buf
    if r.1 ≠ .ok then .skipped (some r.1) else .emitted r.2

def CommWorker.handleMessage (e : Endian) (buf : List UInt8) : Received LockRequest :=
  receiveMessage e codeLockRequest (fun buf => unpackLockRequest e buf default) buf

def MaintWorker.handleMessage (e : Endian) (buf : List UInt8) : Received LockResponse :=
  receiveMessage e codeLockResponse (fun buf => unpackLockResponse e buf default) buf

structure Turn (M : Type) where
  emitted : List M
  /-- Why the socket was aborted, each time it was. -/
  aborts : List WireError
  rx : StreamBuffer
  deriving DecidableEq, Repr

section Loop

variable {M : Type} (handle : List UInt8 → Received M)

def readLoop : ℕ → StreamBuffer → Turn M
  | 0, rx => ⟨[], [], rx⟩
  | fuel + 1, rx =>
      match rx.next with
      | none => ⟨[], [], rx⟩
      | some msg =>
          match handle msg with
          | .desync err =>
              let t := readLoop fuel (rx.reset.consume msg.length)
              { t with aborts := err :: t.aborts }
          | .skipped _ => readLoop fuel (rx.consume msg.length)
          | .emitted m =>
              let t := readLoop fuel (rx.consume msg.length)
              { t with emitted := m :: t.emitted }

def onReadyRead (rx : StreamBuffer) (chunk : List UInt8) : Turn M :=
  let rx := rx.append chunk
  readLoop handle (rx.pending + 1) rx

/-- The chunks of one connection; after an abort there are no more. -/
def readAll : StreamBuffer → List (List UInt8) → Turn M
  | rx, [] => ⟨[], [], rx⟩
  | rx, chunk :: chunks =>
      let t := onReadyRead handle rx chunk
      match t.aborts with
      | _ :: _ => t
      | [] =>
          let t' := readAll t.rx chunks
          { t' with emitted := t.emitted ++ t'.emitted }

/-! ### The loop is the parse of the framer -/

def Received.emitted? : Received M → Option M
  | .emitted m => some m
  | _ => none

def Turn.of (msgs : List (List UInt8)) : Rest UInt8 WireError → Turn M
  | .pending d => ⟨msgs.filterMap fun msg => (handle msg).emitted?, [], ⟨d⟩⟩
  | .dead err => ⟨msgs.filterMap fun msg => (handle msg).emitted?, [err], .empty⟩

/-- A worker gives up exactly on a header that breaks a rule. -/
structure Judges : Prop where
  bad : ∀ msg, Header.size ≤ msg.length → (Header.ofWire msg).check ≠ .ok →
    handle msg = .desync (Header.ofWire msg).check
  good : ∀ msg, Header.size ≤ msg.length → (Header.ofWire msg).check = .ok →
    ∀ err, handle msg ≠ .desync err

variable {handle}

theorem Turn.of_cons (msg : List UInt8) (msgs : List (List UInt8)) (rest : Rest UInt8 WireError) :
    Turn.of handle (msg :: msgs) rest =
      { Turn.of handle msgs rest with
        emitted := (handle msg).emitted?.toList ++ (Turn.of handle msgs rest).emitted } := by
  cases rest <;> cases hm : (handle msg).emitted? <;> simp [Turn.of, hm]

theorem readLoop_empty (fuel : ℕ) : readLoop handle fuel .empty = ⟨[], [], .empty⟩ := by
  cases fuel <;> rfl

theorem readLoop_eq (hj : Judges handle) {fuel : ℕ} {rx : StreamBuffer} (h : rx.pending < fuel) :
    readLoop handle fuel rx =
      .of handle (headerFramer.parse rx.data).1 (headerFramer.parse rx.data).2 := by
  induction fuel generalizing rx with
  | zero => omega
  | succ fuel ih =>
      cases hn : rx.next with
      | none =>
          rw [Framer.parse_wait (look_of_next_none hn), readLoop, hn]
          rfl
      | some msg =>
          have hl := look_of_next hn
          obtain ⟨-, hmin, -⟩ := StreamBuffer.next_eq_some hn
          by_cases hc : (Header.ofWire msg).check = .ok
          · rw [if_pos hc] at hl
            have hless : (rx.consume msg.length).pending < fuel := by
              have := StreamBuffer.pending_consume_lt hn
              omega
            have hrest := ih hless
            rw [StreamBuffer.data_consume] at hrest
            rw [Framer.parse_frame hl, Turn.of_cons, ← hrest]
            simp only [readLoop, hn]
            cases hm : handle msg with
            | desync err => exact absurd hm (hj.good msg hmin hc err)
            | skipped err => rfl
            | emitted m => rfl
          · rw [if_neg hc] at hl
            -- the loop still consumes the frame after `reset`, when nothing is left
            have hempty : rx.reset.consume msg.length = .empty := rfl
            simp only [readLoop, hn, hj.bad msg hmin hc, Framer.parse_reject hl, hempty,
              readLoop_empty]
            rfl

theorem readAll_eq (hj : Judges handle) (rx : StreamBuffer) (chunks : List (List UInt8)) :
    readAll handle rx chunks = .of handle (headerFramer.feedAll (.pending rx.data) chunks).1
      (headerFramer.feedAll (.pending rx.data) chunks).2 := by
  induction chunks generalizing rx with
  | nil => rfl
  | cons chunk chunks ih =>
      have ht : onReadyRead handle rx chunk = .of handle (headerFramer.parse (rx.data ++ chunk)).1
          (headerFramer.parse (rx.data ++ chunk)).2 := readLoop_eq hj (Nat.lt_succ_self _)
      simp only [readAll, ht, Framer.feedAll, Framer.feed]
      cases (headerFramer.parse (rx.data ++ chunk)).2 with
      | dead err => simp [Turn.of, Framer.feedAll_dead]
      | pending d =>
          simp only [Turn.of, ih]
          cases (headerFramer.feedAll (.pending d) chunks).2 <;> simp

end Loop

end Fleetcore
