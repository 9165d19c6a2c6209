import Fleetcore.Lib.CallLoop
import Fleetcore.Upkeep

/-!
Whether `TcpServer::send` returns, against any sequence of answers to `::send`.

The loop makes progress on every answer that accepts bytes and gives up on
every fatal one. `EINTR` and `EAGAIN` are retried at once. Retrying after a
signal ends when the signals do; retrying on a full socket buffer goes on for
as long as the peer leaves the buffer full, and nothing in the loop looks at the
time or at the message queue.
-/

namespace Fleetcore.Sending

open ByteOrder CallLoop Fleetcore.System

/-! ### The loop, one call at a time -/

def sendTurn (len sent : ℕ) (o : SendOutcome) : Progress ℕ Bool :=
  if sent < len then
    if o.fatal then .done false else .again (sent + min o.count (len - sent))
  else .done true

def returnedAfter (len : ℕ) : Progress ℕ Bool → Option Bool
  | .again sent => if sent < len then none else some true
  | .done b => some b

theorem sendLoop_returned (len sent : ℕ) (os : List SendOutcome) :
    (sendLoop len sent os).returned = returnedAfter len (run (sendTurn len) sent os) := by
  induction os generalizing sent with
  | nil => rfl
  | cons o os ih =>
      by_cases h : sent < len
      · cases ho : o.fatal with
        | true =>
            rw [sendLoop_fatal h ho]
            simp [run, sendTurn, h, ho, returnedAfter]
        | false =>
            rw [sendLoop_retry h ho, ih]
            simp [run, sendTurn, h, ho]
      · rw [sendLoop_done (not_lt.mp h)]
        simp [run, sendTurn, h, returnedAfter]

theorem isSome_returned_iff (len : ℕ) (os : List SendOutcome) :
    (sendLoop len 0 os).returned.isSome = true ↔ Ends len os := by
  by_cases hle : len ≤ deliverable os
  · have htrue := (sendLoop_returned_true os).mpr hle
    simp [htrue, Ends, hle]
  · rw [sendLoop_of_lt (by omega)]
    simp only [Ends, hle, false_or]
    split
    · next h => simp [h]
    · next h => simp [h]

/-! ### Answers for ever -/

/-- The answers to `::send` from some call on are `EAGAIN` for ever, and those
before it neither accept `len` bytes nor contain a fatal one. -/
def Stalled (len : ℕ) (o : ℕ → SendOutcome) : Prop :=
  ∃ m, ¬Ends len (answers o m) ∧ ∀ i ≥ m, o i = .fail .eagain

/-- Only finitely many calls are interrupted by a signal. -/
def FewSignals (o : ℕ → SendOutcome) : Prop := ∃ m, ∀ i ≥ m, o i ≠ .fail .eintr

def busy (o : SendOutcome) : Prop := o ≠ .fail .eintr ∧ o ≠ .fail .eagain

theorem count_pos_of_busy {o : SendOutcome} (h : busy o) (hf : o.fatal = false) :
    0 < o.count := by
  rcases o with n | (_ | _ | _)
  · have hn : n ≠ 0 := by simpa [SendOutcome.fatal] using hf
    exact Nat.pos_of_ne_zero hn
  · exact absurd rfl h.1
  · exact absurd rfl h.2
  · cases hf

/-- A turn that goes on leaves no more to be sent, and less after a busy answer. -/
theorem sendTurn_again {len sent sent' : ℕ} {o : SendOutcome}
    (h : sendTurn len sent o = .again sent') :
    len - sent' ≤ len - sent ∧ (busy o → len - sent' < len - sent) := by
  unfold sendTurn at h
  split_ifs at h with hlt hfatal
  obtain rfl := Progress.again.inj h
  refine ⟨by omega, fun hbusy => ?_⟩
  have hpos := count_pos_of_busy hbusy (Bool.eq_false_iff.mpr hfatal)
  omega

theorem exists_ends_of_busy {o : ℕ → SendOutcome} (len : ℕ)
    (h : ∀ m, ∃ i ≥ m, busy (o i)) : ∃ n, Ends len (answers o n) := by
  obtain ⟨n, b, hn⟩ : ∃ n b, run (sendTurn len) 0 (answers o n) = .done b :=
    exists_done (fun _ _ => True) (fun sent => len - sent) busy trivial
      (fun _ _ _ _ hs => ⟨trivial, sendTurn_again hs⟩) h
  refine ⟨n, (isSome_returned_iff len _).mp ?_⟩
  rw [sendLoop_returned, hn]
  rfl

theorem not_ends_of_stalled {len : ℕ} {o : ℕ → SendOutcome} (h : Stalled len o) (n : ℕ) :
    ¬Ends len (answers o n) := by
  obtain ⟨m, hm, hstay⟩ := h
  have hopen : ∀ k, ¬Ends len (answers o k) →
      ∃ sent < len, run (sendTurn len) 0 (answers o k) = .again sent := fun k hk => by
    rw [← isSome_returned_iff, sendLoop_returned] at hk
    cases hrun : run (sendTurn len) 0 (answers o k) with
    | done b => simp [hrun, returnedAfter] at hk
    | again sent =>
        refine ⟨sent, ?_, rfl⟩
        by_contra hge
        simp [hrun, returnedAfter, hge] at hk
  obtain ⟨sent, hlt, hrun⟩ := hopen m hm
  -- `EAGAIN` leaves the count where it is
  have hsame : ∀ i ≥ m, sendTurn len sent (o i) = .again sent := fun i hi => by
    simp [hstay i hi, sendTurn, hlt, SendOutcome.fatal, SendOutcome.count]
  intro hends
  rw [← isSome_returned_iff, sendLoop_returned] at hends
  cases hn : run (sendTurn len) 0 (answers o n) with
  | done b => exact never_done hrun hsame n b hn
  | again sent' =>
      -- a count that has reached the end is noticed on the next turn
      have hge : ¬sent' < len := fun hlt' => by simp [hn, returnedAfter, hlt'] at hends
      have hdone : run (sendTurn len) 0 (answers o (n + 1)) = .done true := by
        rw [run_answers_succ, hn]
        simp [sendTurn, hge]
      exact never_done hrun hsame (n + 1) true hdone

/-- Under finitely many signals, what keeps a call from returning is a peer that
leaves the socket buffer full. -/
theorem exists_ends_iff {o : ℕ → SendOutcome} (hsig : FewSignals o) (len : ℕ) :
    (∃ n, Ends len (answers o n)) ↔ ¬Stalled len o := by
  constructor
  · rintro ⟨n, hn⟩ hst
    exact not_ends_of_stalled hst n hn
  · intro hst
    by_contra! hnever
    by_cases hfull : ∃ m, ∀ i ≥ m, o i = .fail .eagain
    · obtain ⟨m, hm⟩ := hfull
      exact hst ⟨m, hnever m, hm⟩
    · push Not at hfull
      obtain ⟨m, hm⟩ := hsig
      obtain ⟨n, hn⟩ := exists_ends_of_busy len fun k => by
        obtain ⟨i, hi, hne⟩ := hfull (max m k)
        exact ⟨i, le_trans (le_max_right m k) hi, hm i (le_trans (le_max_left m k) hi), hne⟩
      exact hnever n hn

/-! ### The server and the handlers -/

variable {e : Endian} {env : Env} {table : Segment} {data : List UInt8}

theorem returned_send_iff {t : TcpServer} (hc : t.hasClient = true) (len : ℕ)
    (os : List SendOutcome) : (t.send len os).1.returned.isSome = true ↔ Ends len os := by
  obtain ⟨fd, hfd⟩ := Option.isSome_iff_exists.mp hc
  rw [TcpServer.send_of_client hfd, isSome_returned_iff]

theorem spinning_send_iff {t : TcpServer} (hsp : t.spinning = false) (hc : t.hasClient = true)
    (len : ℕ) (os : List SendOutcome) :
    (t.send len os).2.spinning = false ↔ Ends len os := by
  constructor
  · intro h
    rw [← returned_send_iff hc]
    by_contra hnone
    have hret : (t.send len os).1.returned = none := by simpa using hnone
    rw [TcpServer.send_spinning hret] at h
    cases h
  · intro h
    rw [spinning_send h, hsp]

/-- A command that makes termd call `send`. -/
def HandsCommand (t : Termd) (data : List UInt8) : Prop :=
  data.length = IpcLockRequest.size ∧ t.tcp.hasClient = true

/-- An acknowledgement that makes gateway call `send`. -/
def HandsAnswer (w : Gateway) (data : List UInt8) : Prop :=
  data.length = IpcLockResponse.size ∧ w.tcp.hasClient = true

theorem awake_onLockRequest_iff {t : Termd} (hsp : t.tcp.spinning = false) :
    (t.onLockRequest e env table data).loc.tcp.spinning = false ↔
      (HandsCommand t data → Ends LockRequest.size env.sends) := by
  by_cases hlen : data.length = IpcLockRequest.size
  · cases hc : t.tcp.hasClient with
    | false =>
        rw [Termd.onLockRequest_of_no_client hlen hc]
        simp [hsp, HandsCommand, hc]
    | true =>
        rw [Termd.onLockRequest_of_client hlen hc]
        simp only [HandsCommand, hlen, hc, and_self, forall_const]
        exact spinning_send_iff hsp hc LockRequest.size env.sends
  · rw [Termd.onLockRequest, if_pos hlen]
    simp [hsp, HandsCommand, hlen]

theorem packLockResponse_ne_zero (e : Endian) (m : LockResponse) :
    (packLockResponse e m outBuffer).1 ≠ 0 := by
  rw [packLockResponse_eq e m (by simp [LockResponse.size, maxMessageLen])]
  simp [LockResponse.size]

theorem length_responseFrame (e : Endian) (m : LockResponse) :
    ((packLockResponse e m outBuffer).2.take (packLockResponse e m outBuffer).1).length =
      LockResponse.size := by
  rw [packLockResponse_eq e m (by simp [LockResponse.size, maxMessageLen])]
  simp

theorem awake_onLockResponse_iff {w : Gateway} (hsp : w.tcp.spinning = false) :
    (w.onLockResponse e env table data).loc.tcp.spinning = false ↔
      (HandsAnswer w data → Ends LockResponse.size env.sends) := by
  by_cases hlen : data.length = IpcLockResponse.size
  · cases hc : w.tcp.hasClient with
    | false => simp [Gateway.onLockResponse, hlen, hc, hsp, HandsAnswer]
    | true =>
        simp only [Gateway.onLockResponse, hlen, hc, packLockResponse_ne_zero, length_responseFrame,
          HandsAnswer, ne_eq, not_true_eq_false, if_false, Bool.not_true, Bool.false_eq_true,
          and_self, forall_const]
        exact spinning_send_iff hsp hc LockResponse.size env.sends
  · simp [Gateway.onLockResponse, hlen, hsp, HandsAnswer]

/-! ### Whether the process gets back to its queue -/

/-- The environment of a handler whose calls of `::send` have had the first `n`
answers. -/
def answering (env : Env) (o : ℕ → SendOutcome) (n : ℕ) : Env :=
  { env with sends := answers o n }

/-- For every sequence of answers with finitely many signals: a call of `send`
returns after finitely many system calls unless the peer stalls it, and the
handler that made it comes back from it. The `send_to` that follows in termd may
still wait for room in gateway's queue. -/
theorem send_returns_iff {o : ℕ → SendOutcome} (hsig : FewSignals o) :
    (∀ (t : TcpServer) (len : ℕ), t.hasClient = true →
      ((∃ n, (t.send len (answers o n)).1.returned.isSome = true) ↔ ¬Stalled len o)) ∧
    (∀ (e : Endian) (env : Env) (t : Termd) (table : Segment) (data : List UInt8),
      t.tcp.spinning = false →
        ((∃ n, (t.onLockRequest e (answering env o n) table data).loc.tcp.spinning = false) ↔
          ¬(HandsCommand t data ∧ Stalled LockRequest.size o))) ∧
    (∀ (e : Endian) (env : Env) (w : Gateway) (table : Segment) (data : List UInt8),
      w.tcp.spinning = false →
        ((∃ n, (w.onLockResponse e (answering env o n) table data).loc.tcp.spinning = false) ↔
          ¬(HandsAnswer w data ∧ Stalled LockResponse.size o))) := by
  have hhands : ∀ (P : Prop) (len : ℕ),
      (∃ n, P → Ends len (answers o n)) ↔ ¬(P ∧ Stalled len o) := fun P len => by
    by_cases hP : P
    · simp only [hP, forall_const, true_and]
      exact exists_ends_iff hsig len
    · simp [hP]
  refine ⟨fun t len hc => ?_, fun e env t table data hsp => ?_, fun e env w table data hsp => ?_⟩
  · simp only [returned_send_iff hc]
    exact exists_ends_iff hsig len
  · simp only [awake_onLockRequest_iff hsp, answering]
    exact hhands _ _
  · simp only [awake_onLockResponse_iff hsp, answering]
    exact hhands _ _

/-- One signal, and then ten bytes with every call. -/
theorem send_returns_iff_interrupted :
    ∃ n, ((TcpServer.mk (some 4) false).send 24
      (answers (fun i => if i = 0 then .fail .eintr else .ret 10) n)).1.returned.isSome = true := by
  have hsig : FewSignals fun i => if i = 0 then .fail .eintr else .ret 10 :=
    ⟨1, fun i hi => by simp [Nat.ne_of_gt hi]⟩
  refine ((send_returns_iff hsig).1 (TcpServer.mk (some 4) false) 24 rfl).mpr ?_
  rintro ⟨m, -, hfull⟩
  have hbusy := hfull (m + 1) (Nat.le_succ m)
  simp at hbusy

/-- The terminal stops reading: every call of `::send` says `EAGAIN`. -/
def unread : ℕ → SendOutcome := fun _ => .fail .eagain

def command : IpcLockRequest where
  ipc := ⟨ipcLockRequest, 3001⟩
  msg := ⟨⟨(magic0, magic1), protoVersion, codeLockRequest, 24, 7, 0, 0⟩, ⟨0x31, 0x30, 0x30, 0x31⟩⟩

def acknowledgement : IpcLockResponse := Termd.ackOf command.msg 0

theorem unread_stalled {len : ℕ} (hlen : 0 < len) : Stalled len unread := by
  refine ⟨0, ?_, fun i _ => rfl⟩
  simp [Ends, Nat.ne_of_gt hlen]

/-- No signal at all, and neither the call nor the two handlers ever return. -/
theorem send_unread_never_returns :
    FewSignals unread ∧
    (∀ n, ((TcpServer.mk (some 4) false).send 24 (answers unread n)).1.returned = none) ∧
    (∀ n, (Termd.onLockRequest .little (answering .quiet unread n)
      ⟨1, ⟨some 4, false⟩, .empty⟩ .zero (command.image .little)).loc.tcp.spinning = true) ∧
    ∀ n, (Gateway.onLockResponse .little (answering .quiet unread n)
      ⟨⟨some 4, false⟩, .empty⟩ .zero (acknowledgement.image .little)).loc.tcp.spinning = true := by
  have hopen : ∀ len, 0 < len → ∀ n, ¬Ends len (answers unread n) := fun len hlen =>
    not_ends_of_stalled (unread_stalled hlen)
  refine ⟨⟨0, by simp [unread]⟩, fun n => ?_, fun n => ?_, fun n => ?_⟩
  · have h := mt (returned_send_iff (t := ⟨some 4, false⟩) rfl 24 _).mp (hopen 24 (by decide) n)
    simpa using h
  · rw [← Bool.not_eq_false, awake_onLockRequest_iff rfl]
    intro h
    exact hopen _ (by decide) n (h ⟨by simp, rfl⟩)
  · rw [← Bool.not_eq_false, awake_onLockResponse_iff rfl]
    intro h
    exact hopen _ (by decide) n (h ⟨by simp, rfl⟩)

end Fleetcore.Sending
