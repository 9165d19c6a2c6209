import Mathlib.Algebra.GroupWithZero.Nat
import Mathlib.Data.List.Basic
import Mathlib.Order.Basic
import Mathlib.Data.Nat.Basic

/-!
The single-client TCP server (`common/tcp_server.cpp`).

What the kernel answers to a system call is an argument: whether `accept` has a
connection, what `recv` delivers, and the list of answers that the calls of
`::send` receive one after the other. The retry loop of `send` may use up the
answers it is given without leaving the loop; the server is then `spinning`,
and the process that made the call takes no further step.
-/

namespace Fleetcore

/-- `EWOULDBLOCK` is `EAGAIN`. -/
inductive Errno where
  | eintr
  | eagain
  | other
  deriving DecidableEq, Repr

inductive SendOutcome where
  | ret (n : ℕ)
  | fail (e : Errno)
  deriving DecidableEq, Repr

/-- The answer to one `::recv`; no data is end of file. -/
inductive RecvOutcome where
  | data (bytes : List UInt8)
  | fail (e : Errno)
  deriving DecidableEq, Repr

structure TcpServer where
  /-- `client_fd_`; `none` for a negative descriptor. -/
  clientFd : Option ℕ
  /-- A call of `send` has not left its loop. -/
  spinning : Bool
  deriving DecidableEq, Repr, Inhabited

structure SendCall where
  /-- The result, when the call returns. -/
  returned : Option Bool
  /-- How many bytes the socket accepted. -/
  sent : ℕ
  deriving DecidableEq, Repr

/-- The loop of `send`, `sent` bytes in: `len` is what it has to get rid of. -/
def sendLoop (len : ℕ) : ℕ → List SendOutcome → SendCall
  | sent, [] => ⟨if sent < len then none else some true, sent⟩
  | sent, o :: os =>
      if sent < len then
        match o with
        | .ret n =>
            -- the kernel takes at most what it is offered
            if n > 0 then sendLoop len (sent + min n (len - sent)) os
            else ⟨some false, sent⟩
        | .fail .eintr => sendLoop len sent os
        | .fail .eagain => sendLoop len sent os
        | .fail .other => ⟨some false, sent⟩
      else ⟨some true, sent⟩

namespace TcpServer

def listening : TcpServer := ⟨none, false⟩

def hasClient (t : TcpServer) : Bool := t.clientFd.isSome

def dropClient (t : TcpServer) : TcpServer := { t with clientFd := none }

/-- `accepted` is the descriptor `accept` returns, if any. -/
def pollAccept (t : TcpServer) (accepted : Option ℕ) : Bool × TcpServer :=
  match accepted with
  | none => (false, t)
  | some fd => (true, { t with clientFd := some fd })

/-- The result of `poll_read`: bytes, nothing (0) or a client that went away (-1). -/
inductive ReadResult where
  | bytes (d : List UInt8)
  | nothing
  | gone
  deriving DecidableEq, Repr

def pollRead (t : TcpServer) (cap : ℕ) (o : RecvOutcome) : ReadResult × TcpServer :=
  match t.clientFd with
  | none => (.nothing, t)
  | some _ =>
      match o with
      | .data d => if (d.take cap).length > 0 then (.bytes (d.take cap), t)
          else (.gone, t.dropClient)
      | .fail .eagain => (.nothing, t)
      | .fail .eintr => (.nothing, t)
      | .fail .other => (.gone, t.dropClient)

/-- The call of `send` on a frame of `len` bytes and the server afterwards. -/
def send (t : TcpServer) (len : ℕ) (os : List SendOutcome) : SendCall × TcpServer :=
  match t.clientFd with
  | none => (⟨some false, 0⟩, t)
  | some _ =>
      let c := sendLoop len 0 os
      match c.returned with
      | none => (c, { t with spinning := true })
      | some true => (c, t)
      | some false => (c, t.dropClient)

end TcpServer

/-! ### What the send loop does

How a call of `send` ends is decided by the answers alone: by how many bytes
they accept before the first fatal one. -/

/-- A zero count and any error that is not retried end the loop. -/
def SendOutcome.fatal : SendOutcome → Bool
  | .ret n => n == 0
  | .fail .eintr => false
  | .fail .eagain => false
  | .fail .other => true

def SendOutcome.count : SendOutcome → ℕ
  | .ret n => n
  | .fail _ => 0

/-- How many bytes the answers are good for before the first fatal one. -/
def deliverable (os : List SendOutcome) : ℕ :=
  ((os.takeWhile fun o => !o.fatal).map SendOutcome.count).sum

@[simp] theorem deliverable_nil : deliverable [] = 0 := rfl

theorem deliverable_cons_of_fatal {o : SendOutcome} (h : o.fatal = true)
    (os : List SendOutcome) : deliverable (o :: os) = 0 := by
  simp [deliverable, h]

theorem deliverable_cons {o : SendOutcome} (h : o.fatal = false) (os : List SendOutcome) :
    deliverable (o :: os) = o.count + deliverable os := by
  simp [deliverable, h]

theorem sendLoop_done {len sent : ℕ} (h : len ≤ sent) (os : List SendOutcome) :
    sendLoop len sent os = ⟨some true, sent⟩ := by
  cases os with
  | nil => simp [sendLoop, not_lt.mpr h]
  | cons o os =>
      unfold sendLoop
      rw [if_neg (not_lt.mpr h)]

theorem sendLoop_fatal {len sent : ℕ} (h : sent < len) {o : SendOutcome}
    (ho : o.fatal = true) (os : List SendOutcome) :
    sendLoop len sent (o :: os) = ⟨some false, sent⟩ := by
  rcases o with n | (_ | _ | _)
  · obtain rfl : n = 0 := by simpa [SendOutcome.fatal] using ho
    simp [sendLoop, h]
  · cases ho
  · cases ho
  · simp [sendLoop, h]

theorem sendLoop_retry {len sent : ℕ} (h : sent < len) {o : SendOutcome}
    (ho : o.fatal = false) (os : List SendOutcome) :
    sendLoop len sent (o :: os) = sendLoop len (sent + min o.count (len - sent)) os := by
  rcases o with n | (_ | _ | _)
  · have hn : 0 < n := Nat.pos_of_ne_zero (by simpa [SendOutcome.fatal] using ho)
    simp [sendLoop, h, hn, SendOutcome.count]
  · simp [sendLoop, h, SendOutcome.count]
  · simp [sendLoop, h, SendOutcome.count]
  · cases ho

theorem sendLoop_of_le {len sent : ℕ} {os : List SendOutcome} (hs : sent ≤ len)
    (h : len ≤ sent + deliverable os) : sendLoop len sent os = ⟨some true, len⟩ := by
  induction os generalizing sent with
  | nil =>
      obtain rfl : sent = len := le_antisymm hs (by simpa using h)
      exact sendLoop_done le_rfl []
  | cons o os ih =>
      rcases hs.lt_or_eq with hlt | rfl
      · cases ho : o.fatal with
        | true =>
            rw [deliverable_cons_of_fatal ho] at h
            omega
        | false =>
            rw [deliverable_cons ho] at h
            rw [sendLoop_retry hlt ho, ih (by omega) (by omega)]
      · exact sendLoop_done le_rfl _

theorem sendLoop_of_lt {len sent : ℕ} {os : List SendOutcome}
    (h : sent + deliverable os < len) :
    sendLoop len sent os =
      ⟨if os.any SendOutcome.fatal then some false else none, sent + deliverable os⟩ := by
  induction os generalizing sent with
  | nil =>
      have hlt : sent < len := by simpa using h
      simp [sendLoop, hlt]
  | cons o os ih =>
      cases ho : o.fatal with
      | true =>
          rw [deliverable_cons_of_fatal ho] at h
          rw [sendLoop_fatal (by omega) ho, deliverable_cons_of_fatal ho]
          simp [ho]
      | false =>
          rw [deliverable_cons ho] at h
          have hmin : sent + min o.count (len - sent) = sent + o.count := by omega
          rw [sendLoop_retry (by omega) ho, hmin, ih (by omega), deliverable_cons ho]
          simp [ho, Nat.add_assoc]

/-- The loop reports success exactly when all bytes were accepted. -/
theorem sendLoop_returned_true {len : ℕ} (os : List SendOutcome) :
    (sendLoop len 0 os).returned = some true ↔ len ≤ deliverable os := by
  by_cases h : len ≤ deliverable os
  · simp [sendLoop_of_le (Nat.zero_le _) (by omega : len ≤ 0 + deliverable os), h]
  · rw [sendLoop_of_lt (by omega)]
    simp only [h, iff_false]
    split <;> simp

namespace TcpServer

variable {t : TcpServer} {len fd : ℕ} {os : List SendOutcome}

theorem send_of_no_client (h : t.clientFd = none) :
    t.send len os = (⟨some false, 0⟩, t) := by
  rw [send, h]

theorem send_of_client (h : t.clientFd = some fd) :
    (t.send len os).1 = sendLoop len 0 os := by
  rw [send, h]
  simp only
  split <;> rfl

theorem send_returned_true :
    (t.send len os).1.returned = some true ↔ t.hasClient = true ∧ len ≤ deliverable os := by
  cases h : t.clientFd with
  | none => simp [send_of_no_client h, hasClient, h]
  | some fd => rw [send_of_client h, sendLoop_returned_true]; simp [hasClient, h]

/-- A call that returns true leaves the client, one that returns false has
none afterwards. -/
theorem send_clientFd {b : Bool} (h : (t.send len os).1.returned = some b) :
    (t.send len os).2 = if b then t else t.dropClient := by
  unfold send at *
  cases hc : t.clientFd with
  | none =>
      obtain rfl : false = b := by simpa [hc] using h
      rcases t with ⟨fd, sp⟩
      obtain rfl : fd = none := hc
      rfl
  | some fd =>
      simp only [hc] at h ⊢
      cases hr : (sendLoop len 0 os).returned with
      | none => simp [hr] at h
      | some r => cases r <;> simp_all

theorem send_spinning (h : (t.send len os).1.returned = none) :
    (t.send len os).2 = { t with spinning := true } := by
  unfold send at *
  cases hc : t.clientFd with
  | none => simp [hc] at h
  | some fd =>
      simp only [hc] at h ⊢
      cases hr : (sendLoop len 0 os).returned with
      | none => rfl
      | some r => cases r <;> simp_all

@[simp] theorem hasClient_dropClient (t : TcpServer) : t.dropClient.hasClient = false := rfl

theorem hasClient_of_send (h : (t.send len os).2.hasClient = true) : t.hasClient = true := by
  cases hr : (t.send len os).1.returned with
  | none =>
      rw [send_spinning hr] at h
      exact h
  | some b =>
      rw [send_clientFd hr] at h
      cases b with
      | true => exact h
      | false => cases h

theorem pollRead_cases (t : TcpServer) (cap : ℕ) (o : RecvOutcome) :
    t.pollRead cap o = (.gone, t.dropClient) ∨ t.pollRead cap o = (.nothing, t) ∨
      ∃ d, t.pollRead cap o = (.bytes d, t) := by
  unfold pollRead
  cases hc : t.clientFd with
  | none => exact .inr (.inl rfl)
  | some fd =>
      rcases o with d | (_ | _ | _)
      · simp only
        split
        · exact .inr (.inr ⟨_, rfl⟩)
        · exact .inl rfl
      · exact .inr (.inl rfl)
      · exact .inr (.inl rfl)
      · exact .inl rfl

theorem pollRead_gone {t' : TcpServer} {cap : ℕ} {o : RecvOutcome}
    (h : t.pollRead cap o = (.gone, t')) : t' = t.dropClient := by
  rcases t.pollRead_cases cap o with hres | hres | ⟨d, hres⟩
  · exact (Prod.mk.inj (h.symm.trans hres)).2
  · cases h.symm.trans hres
  · cases h.symm.trans hres

theorem pollRead_nothing {t' : TcpServer} {cap : ℕ} {o : RecvOutcome}
    (h : t.pollRead cap o = (.nothing, t')) : t' = t := by
  rcases t.pollRead_cases cap o with hres | hres | ⟨d, hres⟩
  · cases h.symm.trans hres
  · exact (Prod.mk.inj (h.symm.trans hres)).2
  · cases h.symm.trans hres

theorem pollRead_bytes {cap : ℕ} {o : RecvOutcome} {d : List UInt8} :
    (t.pollRead cap o).1 = .bytes d ↔
      t.hasClient = true ∧ ∃ b, o = .data b ∧ d = b.take cap ∧ d ≠ [] := by
  unfold pollRead hasClient
  cases hc : t.clientFd with
  | none => simp
  | some fd =>
      rcases o with b | (_ | _ | _)
      · by_cases hb : (b.take cap).length > 0
        · have hne : b.take cap ≠ [] := List.ne_nil_of_length_pos hb
          simp only [hb, if_true, ReadResult.bytes.injEq, Option.isSome_some, true_and,
            RecvOutcome.data.injEq, exists_eq_left']
          exact ⟨fun h => ⟨h.symm, h ▸ hne⟩, fun h => h.1.symm⟩
        · have he : b.take cap = [] := List.eq_nil_of_length_eq_zero (Nat.eq_zero_of_not_pos hb)
          simp only [he, Option.isSome_some, true_and, RecvOutcome.data.injEq, exists_eq_left']
          constructor
          · intro h
            cases h
          · exact fun h => absurd h.1 h.2
      · simp
      · simp
      · simp

end TcpServer

end Fleetcore
