import Fleetcore.Connections

/-!
The receive loops of `on_idle`, pass by pass.

Gateway and termd drain their buffer with the same `while (rx_.next(&msg, &len))`
around different bodies. Gateway consumes what was reported and, if the header
was no good, resets the buffer and leaves; termd resets the buffer inside the
handler, consumes afterwards, and relies on `next` to find nothing more. Both
bodies leave either what is behind the reported message or nothing, and this is
all that the length of the loop and the size of the buffer depend on.
-/

namespace Fleetcore.Draining

open ByteOrder StateMachine

structure Pass where
  before : StreamBuffer
  msg : List UInt8
  after : StreamBuffer
  deriving DecidableEq, Repr

/-- What stands between the braces: the buffer afterwards, and whether the loop
is evaluated again. -/
abbrev Body := StreamBuffer → List UInt8 → StreamBuffer × Bool

/-- At most `fuel` passes, and the buffer they leave. -/
def passes (body : Body) : ℕ → StreamBuffer → List Pass × StreamBuffer
  | 0, rx => ([], rx)
  | fuel + 1, rx =>
      match rx.next with
      | none => ([], rx)
      | some msg =>
          let b := body rx msg
          let rest := if b.2 then passes body fuel b.1 else ([], b.1)
          (⟨rx, msg, b.1⟩ :: rest.1, rest.2)

def gatewayBody (e : Endian) : Body := fun rx msg =>
  let sev := (Gateway.handleFromMaint e msg).severity
  let rx := rx.consume msg.length
  if sev = .stream then (rx.reset, false) else (rx, true)

def termdBody (e : Endian) : Body := fun rx msg =>
  let rx := if (unpackHeader e msg default).1 ≠ .ok then rx.reset else rx
  (rx.consume msg.length, true)

/-! ### The passes are those of the two programs -/

theorem drain_gateway (e : Endian) (fuel : ℕ) (rx : StreamBuffer) :
    (Gateway.drain e fuel rx).rx = (passes (gatewayBody e) fuel rx).2 ∧
      (Gateway.drain e fuel rx).handled.map Prod.fst =
        (passes (gatewayBody e) fuel rx).1.map Pass.msg := by
  induction fuel generalizing rx with
  | zero => exact ⟨rfl, rfl⟩
  | succ fuel ih =>
      cases hn : rx.next with
      | none => simp [Gateway.drain, passes, hn]
      | some msg =>
          obtain ⟨hrx, hmsgs⟩ := ih (rx.consume msg.length)
          cases hh : Gateway.handleFromMaint e msg with
          | desync err =>
              simp [Gateway.drain, passes, hn, hh, gatewayBody, Gateway.Handled.severity]
          | skipped err =>
              simp [Gateway.drain, passes, hn, hh, gatewayBody, Gateway.Handled.severity, hrx,
                hmsgs]
          | forwarded m =>
              simp [Gateway.drain, passes, hn, hh, gatewayBody, Gateway.Handled.severity, hrx,
                hmsgs]

theorem drain_termd (e : Endian) (fuel : ℕ) (t : Termd) :
    (t.drain e fuel).1.rx = (passes (termdBody e) fuel t.rx).2 ∧
      (t.drain e fuel).2.length = (passes (termdBody e) fuel t.rx).1.length := by
  induction fuel generalizing t with
  | zero => exact ⟨rfl, rfl⟩
  | succ fuel ih =>
      cases hn : t.rx.next with
      | none => simp [Termd.drain, passes, hn]
      | some msg =>
          by_cases hc : (unpackHeader e msg default).1 = .ok
          · obtain ⟨hrx, hlen⟩ := ih { t with rx := t.rx.consume msg.length }
            simp [Termd.drain, passes, hn, Termd.handleFromTerminal, termdBody, hc, hrx, hlen,
              Nat.add_comm]
          · obtain ⟨hrx, hlen⟩ := ih { t with
              tcp := t.tcp.dropClient, rx := t.rx.reset.consume msg.length }
            simp [Termd.drain, passes, hn, Termd.handleFromTerminal, termdBody, hc, hrx, hlen,
              Nat.add_comm]

/-! ### What a pass does -/

/-- A body leaves what is behind the message, or nothing; and nothing when it
leaves the loop. -/
structure Body.Clears (body : Body) : Prop where
  rest : ∀ rx msg, (body rx msg).1 = rx.consume msg.length ∨ (body rx msg).1.data = []
  left : ∀ rx msg, (body rx msg).2 = false → (body rx msg).1.data = []

theorem clears_gatewayBody (e : Endian) : (gatewayBody e).Clears where
  rest := fun rx msg => by
    unfold gatewayBody
    simp only
    split
    · exact .inr rfl
    · exact .inl rfl
  left := fun rx msg h => by
    unfold gatewayBody at *
    simp only at *
    split at h
    · next hs =>
        rw [if_pos hs]
        rfl
    · cases h

theorem clears_termdBody (e : Endian) : (termdBody e).Clears where
  rest := fun rx msg => by
    unfold termdBody
    simp only
    split
    · exact .inr (by simp)
    · exact .inl rfl
  left := fun rx msg h => by cases h

/-- Reported bytes that are not as long as their header says have a header that
`unpack_header` refuses. -/
theorem next_announces (e : Endian) {rx : StreamBuffer} {msg : List UInt8}
    (h : rx.next = some msg) :
    msg.length = (Header.ofWire rx.data).length.toNat ∨
      (((Header.ofWire rx.data).length.toNat < Header.size ∨
        maxMessageLen < (Header.ofWire rx.data).length.toNat) ∧
        ∀ out, (unpackHeader e msg out).1 ≠ .ok) := by
  obtain ⟨hmsg, hmin, hmax⟩ := StreamBuffer.next_eq_some h
  have hfront := StreamBuffer.frontLength_eq (hmin.trans hmax)
  rw [← hfront]
  unfold StreamBuffer.next at h
  split_ifs at h with hshort hrange hpart
  · obtain rfl := Option.some.inj h
    refine .inr ⟨hrange, fun out => ?_⟩
    rw [unpackHeader_eq e out hmin]
    intro hok
    obtain ⟨-, -, hlow, hhigh⟩ := Header.check_eq_ok.mp hok
    rw [hfront] at hrange
    omega
  · obtain rfl := Option.some.inj h
    left
    rw [List.length_take]
    omega

theorem pending_lt_of_next_none {rx : StreamBuffer} (h : rx.next = none) :
    rx.pending < maxMessageLen := by
  unfold StreamBuffer.next at h
  simp only [StreamBuffer.pending]
  split_ifs at h with hshort hrange hpart
  · simp only [Header.size, maxMessageLen] at *
    omega
  · simp only [maxMessageLen] at *
    omega

structure Pass.Sound (e : Endian) (p : Pass) : Prop where
  /-- It removes at least a header's worth of bytes, or empties the buffer. -/
  removes : p.after.pending + Header.size ≤ p.before.pending ∨ p.after.pending = 0
  /-- The pointer and the length denote a beginning of the buffer. -/
  inside : p.msg <+: p.before.data
  announced : p.msg.length = (Header.ofWire p.before.data).length.toNat ∨
    (((Header.ofWire p.before.data).length.toNat < Header.size ∨
      maxMessageLen < (Header.ofWire p.before.data).length.toNat) ∧
      ∀ out, (unpackHeader e p.msg out).1 ≠ .ok)

theorem Body.Clears.sound {body : Body} (hb : body.Clears) (e : Endian) {rx : StreamBuffer}
    {msg : List UInt8} (h : rx.next = some msg) : Pass.Sound e ⟨rx, msg, (body rx msg).1⟩ where
  removes := by
    obtain ⟨-, hmin, hmax⟩ := StreamBuffer.next_eq_some h
    rcases hb.rest rx msg with hrest | hempty
    · left
      simp only [hrest, StreamBuffer.pending, StreamBuffer.data_consume, List.length_drop] at *
      omega
    · right
      simp [StreamBuffer.pending, hempty]
  inside := by
    obtain ⟨hmsg, -, -⟩ := StreamBuffer.next_eq_some h
    rw [hmsg]
    exact List.take_prefix _ _
  announced := next_announces e h

/-- Emptying the buffer removes a header's worth of bytes as well. -/
theorem Body.Clears.pending_le {body : Body} (hb : body.Clears) {rx : StreamBuffer}
    {msg : List UInt8} (h : rx.next = some msg) :
    (body rx msg).1.pending + Header.size ≤ rx.pending := by
  obtain ⟨-, hmin, hmax⟩ := StreamBuffer.next_eq_some h
  rcases hb.rest rx msg with hrest | hempty
  · simp only [hrest, StreamBuffer.pending, StreamBuffer.data_consume, List.length_drop] at *
    omega
  · simp only [StreamBuffer.pending, hempty, List.length_nil] at *
    omega

/-! ### The loop -/

/-- What is expected of the loop on a buffer, for any number of passes allowed. -/
structure Drains (e : Endian) (body : Body) (rx : StreamBuffer) (fuel : ℕ) : Prop where
  sound : ∀ p ∈ (passes body fuel rx).1, p.Sound e
  /-- The buffer never grows again. -/
  held : ∀ p ∈ (passes body fuel rx).1, p.before.pending ≤ rx.pending ∧
    p.after.pending ≤ rx.pending
  few : (passes body fuel rx).1.length ≤ rx.pending / Header.size
  /-- With one pass more than it can make, the loop has come to its end. -/
  ended : rx.pending / Header.size < fuel → (passes body fuel rx).2.pending < maxMessageLen

section Passes

variable {body : Body} {rx : StreamBuffer} {msg : List UInt8} {fuel : ℕ}

theorem passes_of_none (h : rx.next = none) : passes body fuel rx = ([], rx) := by
  cases fuel with
  | zero => rfl
  | succ fuel => simp [passes, h]

theorem passes_going (h : rx.next = some msg) (hgo : (body rx msg).2 = true) :
    passes body (fuel + 1) rx =
      (⟨rx, msg, (body rx msg).1⟩ :: (passes body fuel (body rx msg).1).1,
        (passes body fuel (body rx msg).1).2) := by
  simp [passes, h, hgo]

theorem passes_leaving (h : rx.next = some msg) (hgo : (body rx msg).2 = false) :
    passes body (fuel + 1) rx = ([⟨rx, msg, (body rx msg).1⟩], (body rx msg).1) := by
  simp [passes, h, hgo]

end Passes

theorem Drains.of_none {e : Endian} {body : Body} {rx : StreamBuffer} (h : rx.next = none)
    (fuel : ℕ) : Drains e body rx fuel where
  sound := by simp [passes_of_none h]
  held := by simp [passes_of_none h]
  few := by simp [passes_of_none h]
  ended := fun _ => by
    rw [passes_of_none h]
    exact pending_lt_of_next_none h

theorem Drains.cons {e : Endian} {body : Body} {rx : StreamBuffer} {msg : List UInt8} {fuel : ℕ}
    (hb : body.Clears) (hn : rx.next = some msg) (hgo : (body rx msg).2 = true)
    (h : Drains e body (body rx msg).1 fuel) : Drains e body rx (fuel + 1) := by
  have hle := hb.pending_le hn
  have hdiv : (body rx msg).1.pending / Header.size + 1 ≤ rx.pending / Header.size := by
    simp only [Header.size] at *
    omega
  have hstep : passes body (fuel + 1) rx = _ := passes_going hn hgo
  constructor
  · rw [hstep, List.forall_mem_cons]
    exact ⟨hb.sound e hn, h.sound⟩
  · rw [hstep, List.forall_mem_cons]
    have hafter : (body rx msg).1.pending ≤ rx.pending := by omega
    refine ⟨⟨le_rfl, hafter⟩, fun p hp => ?_⟩
    have hheld := h.held p hp
    omega
  · have hfew := h.few
    rw [hstep, List.length_cons]
    omega
  · intro hfuel
    rw [hstep]
    exact h.ended (by omega)

theorem Drains.leave {body : Body} {rx : StreamBuffer} {msg : List UInt8} (hb : body.Clears)
    (e : Endian) (fuel : ℕ) (hn : rx.next = some msg) (hgo : (body rx msg).2 = false) :
    Drains e body rx (fuel + 1) := by
  have hle := hb.pending_le hn
  have hempty := hb.left rx msg hgo
  have hstep : passes body (fuel + 1) rx = _ := passes_leaving hn hgo
  constructor
  · rw [hstep, List.forall_mem_singleton]
    exact hb.sound e hn
  · rw [hstep, List.forall_mem_singleton]
    have hafter : (body rx msg).1.pending ≤ rx.pending := by omega
    exact ⟨le_rfl, hafter⟩
  · rw [hstep, List.length_singleton]
    simp only [Header.size] at *
    omega
  · intro _
    simp [hstep, StreamBuffer.pending, hempty, maxMessageLen]

theorem Body.Clears.drains {body : Body} (hb : body.Clears) (e : Endian) (rx : StreamBuffer)
    (fuel : ℕ) : Drains e body rx fuel := by
  induction fuel generalizing rx with
  | zero => exact ⟨by simp [passes], by simp [passes], by simp [passes], by simp⟩
  | succ fuel ih =>
      cases hn : rx.next with
      | none => exact .of_none hn _
      | some msg =>
          cases hgo : (body rx msg).2 with
          | true => exact (ih _).cons hb hn hgo
          | false => exact .leave hb e fuel hn hgo

theorem pending_receive_gateway (e : Endian) (rx : StreamBuffer) (chunk : List UInt8) :
    (Gateway.receive e rx chunk).rx.pending < maxMessageLen := by
  rw [Gateway.receive, (drain_gateway e _ _).1]
  apply ((clears_gatewayBody e).drains e _ _).ended
  exact Nat.lt_succ_of_le (Nat.div_le_self _ _)

theorem pending_receive_termd (e : Endian) (t : Termd) (chunk : List UInt8) :
    (t.receive e chunk).1.rx.pending < maxMessageLen := by
  rw [Termd.receive, (drain_termd e _ _).1]
  apply ((clears_termdBody e).drains e _ _).ended
  exact Nat.lt_succ_of_le (Nat.div_le_self _ _)

/-! ### Reachable states -/

theorem pending_read_gateway (e : Endian) (env : Env) {w : Gateway} (table : Segment)
    (h : w.rx.pending < maxMessageLen) :
    (Connections.read e env w table).loc.rx.pending < maxMessageLen := by
  unfold Connections.read
  split
  · simp [StreamBuffer.pending, maxMessageLen]
  · exact h
  · next chunk _ _ =>
      have hrx := pending_receive_gateway e w.rx chunk
      simp only
      split
      · exact hrx
      · exact hrx

theorem pending_read_termd (e : Endian) (env : Env) {t : Termd} (table : Segment)
    (h : t.rx.pending < maxMessageLen) :
    (t.read e env table).loc.rx.pending < maxMessageLen := by
  unfold Termd.read
  split
  · simp [StreamBuffer.pending, maxMessageLen]
  · exact h
  · exact pending_receive_termd e _ _

theorem pending_gateway {e : Endian} {tr : List Connections.Event} {w : Gateway}
    (h : Run (Connections.gatewayMachine e) Always .init tr w) :
    w.rx.pending < maxMessageLen := by
  apply h.invariant_state fun w => w.rx.pending < maxMessageLen
  · simp [Gateway.init, StreamBuffer.pending, maxMessageLen]
  · intro w a w' es hw _ hs
    cases (Connections.gatewayStep_cases hs).2 with
    | read env table => exact pending_read_gateway e env table hw
    | @connect env hrx table =>
        apply pending_read_gateway e env table
        simp [StreamBuffer.pending, hrx, maxMessageLen]
    | hand hc frame os => exact hw
    | nothing => exact hw

theorem pending_termd {e : Endian} {slot : Int32} {tr : List Connections.Event} {t : Termd}
    (h : Run (Connections.termdMachine e) Always (.listening slot) tr t) :
    t.rx.pending < maxMessageLen := by
  apply h.invariant_state fun t => t.rx.pending < maxMessageLen
  · simp [Termd.listening, StreamBuffer.pending, maxMessageLen]
  · intro t a t' es ht _ hs
    cases (Connections.termdStep_cases hs).2 with
    | read env table => exact pending_read_termd e env table ht
    | @connect env table hrx table' =>
        apply pending_read_termd e env table'
        simp [StreamBuffer.pending, hrx, maxMessageLen]
    | hand hc frame os sends => exact ht
    | answer sends => exact ht

/-- The buffers of the loop that a chunk sets off: after `append`, and before and
after every pass. -/
def buffers (body : Body) (rx : StreamBuffer) (chunk : List UInt8) : List StreamBuffer :=
  let rx := rx.append chunk
  rx :: (passes body (rx.pending + 1) rx).1.flatMap fun p => [p.before, p.after]

theorem Body.Clears.pending_of_mem_buffers {body : Body} (hb : body.Clears) (e : Endian)
    {rx b : StreamBuffer} {chunk : List UInt8} (hrx : rx.pending < maxMessageLen)
    (hchunk : chunk.length ≤ 1024) (h : b ∈ buffers body rx chunk) : b.pending ≤ 2047 := by
  have happend : (rx.append chunk).pending ≤ 2047 := by
    simp only [StreamBuffer.pending, StreamBuffer.data_append, List.length_append,
      maxMessageLen] at *
    omega
  rcases List.mem_cons.mp h with rfl | h
  · exact happend
  · obtain ⟨p, hp, hmem⟩ := List.mem_flatMap.mp h
    have hheld := (hb.drains e _ _).held p hp
    rcases List.mem_cons.mp hmem with rfl | hmem
    · exact hheld.1.trans happend
    · rw [List.mem_singleton.mp hmem]
      exact hheld.2.trans happend

theorem length_of_pollRead {t : TcpServer} {o : RecvOutcome} {chunk : List UInt8}
    (h : (t.pollRead 1024 o).1 = .bytes chunk) : chunk.length ≤ 1024 := by
  obtain ⟨-, d, -, rfl, -⟩ := TcpServer.pollRead_bytes.mp h
  exact List.length_take_le 1024 d

/-- Whatever a peer sends: every pass of the two loops is sound, the loops end
after a twentieth as many passes as there are bytes, with less than a message
pending, and no state that is reached, and no buffer on the way from one to the
next, holds more than 2047 bytes. -/
theorem drain_bounded (e : Endian) :
    (∀ rx fuel, Drains e (gatewayBody e) rx fuel ∧ Drains e (termdBody e) rx fuel) ∧
    (∀ tr w, Run (Connections.gatewayMachine e) Always .init tr w → w.rx.pending < 1024 ∧
      ∀ env chunk,
        ((Connections.accept env w).tcp.pollRead 1024 env.received).1 = .bytes chunk →
          ∀ b ∈ buffers (gatewayBody e) (Connections.accept env w).rx chunk,
            b.pending ≤ 2047) ∧
    ∀ slot tr t, Run (Connections.termdMachine e) Always (.listening slot) tr t →
      t.rx.pending < 1024 ∧ ∀ env table chunk,
        ((t.accept env table).loc.tcp.pollRead 1024 env.received).1 = .bytes chunk →
          ∀ b ∈ buffers (termdBody e) (t.accept env table).loc.rx chunk, b.pending ≤ 2047 := by
  refine ⟨fun rx fuel => ?_, fun tr w h => ?_, fun slot tr t h => ?_⟩
  · exact ⟨(clears_gatewayBody e).drains e rx fuel, (clears_termdBody e).drains e rx fuel⟩
  · have hpending := pending_gateway h
    refine ⟨hpending, fun env chunk hread b hb => ?_⟩
    have haccept : (Connections.accept env w).rx.pending < maxMessageLen := by
      unfold Connections.accept
      simp only
      split
      · simp [StreamBuffer.pending, maxMessageLen]
      · exact hpending
    exact (clears_gatewayBody e).pending_of_mem_buffers e haccept (length_of_pollRead hread) hb
  · have hpending := pending_termd h
    refine ⟨hpending, fun env table chunk hread b hb => ?_⟩
    have haccept : (t.accept env table).loc.rx.pending < maxMessageLen := by
      unfold Termd.accept
      simp only
      split
      · simp [StreamBuffer.pending, maxMessageLen]
      · exact hpending
    exact (clears_termdBody e).pending_of_mem_buffers e haccept (length_of_pollRead hread) hb

def fullChunk : List UInt8 := List.replicate 1024 0

/-- Gateway accepts a connection and reads a thousand bytes of a message of 1024;
the next read is a full one. -/
theorem drain_bounded_partial_message : ∃ tr w,
    Run (Connections.gatewayMachine .little) Always .init tr w ∧ w.rx.pending = 1000 ∧
      ∀ b ∈ buffers (gatewayBody .little) w.rx fullChunk, b.pending ≤ 2047 := by
  obtain ⟨tr, w, h, hQ⟩ := (Connections.gatewayMachine .little).exists_run_of_exec Always .init
    [.idle { Env.quiet with
      accepted := some 4
      received := .data ([0x46, 0x43, 1, 0x10, 4, 0] ++ List.replicate 994 0) } .zero]
    (fun r => decide (r.1.rx.pending = 1000 ∧ r.1.tcp.clientFd = some 4))
    (by decide +kernel) (by decide +kernel)
  obtain ⟨hpending, hclient⟩ := of_decide_eq_true hQ
  simp only at hpending hclient
  refine ⟨tr, w, h, hpending, ?_⟩
  apply ((drain_bounded .little).2.1 tr w h).2 { Env.quiet with received := .data fullChunk }
  have hlength : fullChunk.length = 1024 := List.length_replicate
  have hne : fullChunk ≠ [] := List.ne_nil_of_length_pos (by omega)
  have hasClient : (Connections.accept .quiet w).tcp.hasClient = true := by
    simp [Connections.accept, TcpServer.pollAccept, Env.quiet, TcpServer.hasClient, hclient]
  exact TcpServer.pollRead_bytes.mpr
    ⟨hasClient, fullChunk, rfl, (List.take_of_length_le hlength.le).symm, hne⟩

end Fleetcore.Draining
