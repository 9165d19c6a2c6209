import Fleetcore.Transfer

/-!
What a receiver can rely on when it calls `recv_timeout`.

A call that returns has taken the oldest message or nothing, and one that
reports a timeout has slept for as many slices as the timeout asks for. Whether
it returns is a matter of the `int` the slices are added up in: a timeout within
one slice of the largest `int` is never reached, and the addition after the
last slice that fits has no result.
-/

namespace Fleetcore.Transfer

open CallLoop
open Fleetcore.Msgq (MsgQueue msgqMaxPayload)

inductive Effect (timeoutMs : Int32) (s : Local) (p : Poll) :
    Progress Local (Outcome × Local) → Prop
  | interrupted (h : p.fate = .interrupted) :
      Effect timeoutMs s p (.again { s with queue := s.found p })
  | failed (h : p.fate = .failed) :
      Effect timeoutMs s p (.done (.error .failed, { s with queue := s.found p }))
  | message (d : Payload) (q : List Payload) (h : p.fate = .served) (hq : s.found p = d :: q) :
      Effect timeoutMs s p (.done (.ok d, { s with queue := q }))
  | due (h : p.fate = .served) (hq : s.found p = []) (hw : timeoutMs.toInt ≤ s.waited.toInt) :
      Effect timeoutMs s p (.done (.timeout, { s with queue := [], empties := s.empties + 1 }))
  | overflow (h : p.fate = .served) (hq : s.found p = [])
      (hw : s.waited.toInt < timeoutMs.toInt) (hmax : 2 ^ 31 ≤ s.waited.toInt + 50) :
      Effect timeoutMs s p (.done (.overflow, { s with
        queue := [], empties := s.empties + 1, slices := s.slices + 1 }))
  | slept (waited : Int32) (h : p.fate = .served) (hq : s.found p = [])
      (hw : s.waited.toInt < timeoutMs.toInt) (hsum : waited.toInt = s.waited.toInt + 50) :
      Effect timeoutMs s p (.again ⟨waited, [], s.slices + 1, s.empties + 1⟩)

theorem recvTurn_effect {cap : ℕ} (timeoutMs : Int32) {s : Local} {p : Poll}
    (hfits : ∀ d ∈ s.found p, d.length ≤ msgqMaxPayload) (hcap : msgqMaxPayload ≤ cap) :
    Effect timeoutMs s p (recvTurn cap timeoutMs s p) := by
  cases hfate : p.fate with
  | interrupted =>
      rw [recvTurn_interrupted hfate]
      exact .interrupted hfate
  | failed =>
      rw [recvTurn_failed hfate]
      exact .failed hfate
  | served =>
      cases hq : s.found p with
      | cons d q =>
          have hd := hfits d (by simp [hq])
          rw [recvTurn_message hfate hq hd (hd.trans hcap)]
          exact .message d q hfate hq
      | nil =>
          rw [recvTurn_empty hfate hq]
          have hslice : sliceMs.toInt = 50 := rfl
          split
          · next hle => exact .due hfate hq (Int32.le_iff_toInt_le.mp hle)
          · next hgt =>
              have hw : s.waited.toInt < timeoutMs.toInt := by
                rw [Int32.le_iff_toInt_le] at hgt
                omega
              cases hadd : CheckedInt.add s.waited sliceMs with
              | none =>
                  rw [CheckedInt.add_eq_none, hslice] at hadd
                  have hlow := s.waited.le_toInt
                  exact .overflow hfate hq hw (by omega)
              | some waited =>
                  rw [CheckedInt.add_eq_some, hslice] at hadd
                  exact .slept waited hfate hq hw hadd

/-! ### Keeping account of a call -/

/-- What the accepted calls sent before the first `n` polls. -/
def arrived (polls : ℕ → Poll) (n : ℕ) : List Payload :=
  (answers polls n).flatMap fun p => payloads p.before

/-- How many of the first `n` polls get to the queue. -/
def served (polls : ℕ → Poll) (n : ℕ) : ℕ :=
  (answers polls n).countP fun p => decide (p.fate = .served)

theorem arrived_succ (polls : ℕ → Poll) (n : ℕ) :
    arrived polls (n + 1) = arrived polls n ++ payloads (polls n).before := by
  simp [arrived, answers_succ]

theorem served_succ (polls : ℕ → Poll) (n : ℕ) :
    served polls (n + 1) = served polls n + if (polls n).fate = .served then 1 else 0 := by
  by_cases h : (polls n).fate = .served <;> simp [served, answers_succ, h]

theorem served_mono (polls : ℕ → Poll) : Monotone (served polls) := by
  apply monotone_nat_of_le_succ
  intro n
  rw [served_succ]
  exact Nat.le_add_right _ _

/-- What the local variables stand for when the loop goes on after `n` polls. -/
structure Account (timeoutMs : Int32) (q : List Payload) (polls : ℕ → Poll) (n : ℕ)
    (s : Local) : Prop where
  queue : s.queue = q ++ arrived polls n
  waited : s.waited.toInt = 50 * s.slices
  empties : s.empties = s.slices
  served : s.slices = served polls n
  /-- The last slice was slept because the time was not up. -/
  wanted : s.slices = 0 ∨ 50 * (s.slices : ℤ) < timeoutMs.toInt + 50

variable {self : MsgQueue} {cap : ℕ} {timeoutMs : Int32} {q : List Payload} {polls : ℕ → Poll}

theorem Account.found {n : ℕ} {s : Local} (h : Account timeoutMs q polls n s) :
    s.found (polls n) = q ++ arrived polls (n + 1) := by
  rw [Local.found, h.queue, arrived_succ, List.append_assoc]

theorem Account.fits {n : ℕ} {s : Local} (h : Account timeoutMs q polls n s)
    (hq : ∀ d ∈ q, d.length ≤ msgqMaxPayload) :
    ∀ d ∈ s.found (polls n), d.length ≤ msgqMaxPayload := by
  intro d hd
  rw [h.found, List.mem_append] at hd
  rcases hd with hd | hd
  · exact hq d hd
  · obtain ⟨p, -, hp⟩ := List.mem_flatMap.mp hd
    exact length_le_of_mem_payloads hp

theorem Account.start : Account timeoutMs q polls 0 ⟨0, q, 0, 0⟩ where
  queue := by simp [arrived]
  waited := rfl
  empties := rfl
  served := rfl
  wanted := .inl rfl

theorem Account.step {n : ℕ} {s s' : Local} (h : Account timeoutMs q polls n s)
    (he : Effect timeoutMs s (polls n) (.again s')) : Account timeoutMs q polls (n + 1) s' := by
  have hfound := h.found
  have hserved := h.served
  have hwaited := h.waited
  cases he with
  | interrupted hfate =>
      refine ⟨hfound, h.waited, h.empties, ?_, h.wanted⟩
      simp [served_succ, hfate, hserved]
  | slept waited hfate hq hw hsum =>
      refine ⟨hfound ▸ hq.symm, ?_, by simp [h.empties], ?_, .inr ?_⟩
      · push_cast
        omega
      · simp [served_succ, hfate, hserved]
      · push_cast
        omega

def slicesFor (timeoutMs : Int32) : ℕ := timeoutMs.toInt.toNat ⌈/⌉ 50

/-- What is expected of a call that makes `n` polls. -/
structure Faithful (timeoutMs : Int32) (q : List Payload) (polls : ℕ → Poll) (n : ℕ)
    (r : Outcome × Local) : Prop where
  /-- It delivers the oldest message, whole, and removes nothing else. -/
  oldest : ∀ d, r.1 = .ok d → q ++ arrived polls n = d :: r.2.queue
  /-- It removes nothing when it reports a timeout or an error. -/
  kept : (r.1 = .timeout ∨ ∃ e, r.1 = .error e) → r.2.queue = q ++ arrived polls n
  /-- It reports a timeout when the time is up. -/
  onTime : r.1 = .timeout →
    r.2.slices = slicesFor timeoutMs ∧ r.2.empties = slicesFor timeoutMs + 1
  fits : r.1 ≠ .error .tooLarge
  defined : r.1 ≠ .overflow

/-- A turn that returns with anything but an overflow returns what is expected. -/
theorem Account.faithful {n : ℕ} {s : Local} {r : Outcome × Local}
    (h : Account timeoutMs q polls n s) (h0 : 0 ≤ timeoutMs.toInt)
    (he : Effect timeoutMs s (polls n) (.done r)) (hdef : r.1 ≠ .overflow) :
    Faithful timeoutMs q polls (n + 1) r := by
  have hfound := h.found
  cases he with
  | failed hfate =>
      exact ⟨by simp, fun _ => hfound, by simp, by simp, hdef⟩
  | message d q' hfate hq =>
      refine ⟨fun d' hd' => ?_, by simp, by simp, by simp, hdef⟩
      obtain rfl : d = d' := Outcome.ok.inj hd'
      rw [← hfound, hq]
  | due hfate hq hw =>
      have hslices : s.slices = slicesFor timeoutMs := by
        have hwaited := h.waited
        have hwanted := h.wanted
        rw [slicesFor, Nat.ceilDiv_eq_add_pred_div]
        omega
      have hempties : s.empties + 1 = slicesFor timeoutMs + 1 := by rw [h.empties, hslices]
      exact ⟨by simp, fun _ => hq.symm.trans hfound, fun _ => ⟨hslices, hempties⟩, by simp, hdef⟩
  | overflow => exact absurd rfl hdef

/-! ### How a call ends -/

/-- How many slices an `int` can add up. -/
def maxSlices : ℕ := (2 ^ 31 - 1) / 50

/-- Some poll finds a message, or fails, while the slices still add up. -/
def Relieved (q : List Payload) (polls : ℕ → Poll) : Prop :=
  ∃ i, served polls i ≤ maxSlices ∧
    ((polls i).fate = .failed ∨
      ((polls i).fate = .served ∧ q ++ arrived polls (i + 1) ≠ []))

/-- Only finitely many polls are interrupted by a signal. -/
def FewSignals (polls : ℕ → Poll) : Prop := ∃ m, ∀ i ≥ m, (polls i).fate ≠ .interrupted

section Calls

variable (hq : ∀ d ∈ q, d.length ≤ msgqMaxPayload) (hcap : msgqMaxPayload ≤ cap)
include hq hcap

theorem account_of_run {n : ℕ} {s : Local}
    (h : run (recvTurn cap timeoutMs) ⟨0, q, 0, 0⟩ (answers polls n) = .again s) :
    Account timeoutMs q polls n s :=
  again_invariant (Account timeoutMs q polls) .start
    (fun _ _ _ hs ht => hs.step (ht ▸ recvTurn_effect timeoutMs (hs.fits hq) hcap)) h

theorem exists_end (timeoutMs : Int32) (hsig : FewSignals polls) :
    ∃ n s r, run (recvTurn cap timeoutMs) ⟨0, q, 0, 0⟩ (answers polls n) = .again s ∧
      recvTurn cap timeoutMs s (polls n) = .done r := by
  obtain ⟨m, hm⟩ := hsig
  have hdone : ∃ n r, run (recvTurn cap timeoutMs) ⟨0, q, 0, 0⟩ (answers polls n) = .done r := by
    -- what is left of the `int` falls with every poll that is not interrupted
    apply exists_done (Account timeoutMs q polls) (fun s => (2 ^ 31 - s.waited.toInt).toNat)
      (fun p => p.fate ≠ .interrupted) .start
    · intro n s s' hs ht
      have he := recvTurn_effect timeoutMs (hs.fits hq) hcap
      rw [ht] at he
      refine ⟨hs.step he, ?_⟩
      cases he with
      | interrupted hfate => exact ⟨le_rfl, fun hne => absurd hfate hne⟩
      | slept waited hfate hq hw hsum =>
          have hlt := waited.toInt_lt
          constructor
          · simp only
            omega
          · intro _
            simp only
            omega
    · intro k
      exact ⟨max m k, le_max_right m k, hm _ (le_max_left m k)⟩
  obtain ⟨n, r, hr⟩ := hdone
  obtain ⟨k, -, s, hs, ht⟩ := exists_again_of_done hr
  exact ⟨k, s, r, hs, ht⟩

/-- A call that comes to an end does so in an overflow, unless the timeout is
small enough or the call is relieved. -/
theorem defined_iff {n : ℕ} {s : Local} {r : Outcome × Local}
    (hrun : run (recvTurn cap timeoutMs) ⟨0, q, 0, 0⟩ (answers polls n) = .again s)
    (hdone : recvTurn cap timeoutMs s (polls n) = .done r) :
    r.1 ≠ .overflow ↔ timeoutMs.toInt ≤ 50 * maxSlices ∨ Relieved q polls := by
  have hacc := account_of_run hq hcap hrun
  have hserved := hacc.served
  have hwaited := hacc.waited
  have hmax : s.waited.toInt < 2 ^ 31 := s.waited.toInt_lt
  have hsmall : served polls n ≤ maxSlices := by
    rw [maxSlices]
    omega
  have he := recvTurn_effect timeoutMs (hacc.fits hq) hcap
  rw [hdone] at he
  cases he with
  | failed hfate => exact iff_of_true (by simp) (.inr ⟨n, hsmall, .inl hfate⟩)
  | message d q' hfate hfound =>
      have hne : q ++ arrived polls (n + 1) ≠ [] := by simp [← hacc.found, hfound]
      exact iff_of_true (by simp) (.inr ⟨n, hsmall, .inr ⟨hfate, hne⟩⟩)
  | due hfate hfound hw =>
      refine iff_of_true (by simp) (.inl ?_)
      rw [← hserved] at hsmall
      omega
  | overflow hfate hfound hw hover =>
      refine iff_of_false (by simp) ?_
      have hlast : served polls (n + 1) = maxSlices + 1 := by
        simp only [served_succ, hfate, if_true, maxSlices]
        omega
      rintro (htime | ⟨i, hi, hrelief⟩)
      · rw [maxSlices] at htime
        omega
      · have hle : i ≤ n := by
          by_contra hgt
          have := served_mono polls (show n + 1 ≤ i by omega)
          omega
        rcases hle.lt_or_eq with hlt | rfl
        · -- the relief would have ended the call earlier
          obtain ⟨t, t', hrun', hagain⟩ := exists_again_of_lt hrun hlt
          have hacc' := account_of_run hq hcap hrun'
          have he' := recvTurn_effect timeoutMs (hacc'.fits hq) hcap
          rw [hagain] at he'
          cases he' with
          | interrupted hfate' => simp [hfate'] at hrelief
          | slept _ hfate' hempty _ _ => simp [hfate', ← hacc'.found, hempty] at hrelief
        · simp [hfate, ← hacc.found, hfound] at hrelief

end Calls

def ReturnsAfter (self : MsgQueue) (cap : ℕ) (timeoutMs : Int32) (q : List Payload)
    (polls : ℕ → Poll) (n : ℕ) (r : Outcome × Local) : Prop :=
  recvTimeout self cap timeoutMs q (answers polls n) = .done r ∧
    ∀ m < n, ∃ s, recvTimeout self cap timeoutMs q (answers polls m) = .again s

/-- The call terminates and does what is expected of it. -/
def Delivers (self : MsgQueue) (cap : ℕ) (timeoutMs : Int32) (q : List Payload)
    (polls : ℕ → Poll) : Prop :=
  ∃ n r, ReturnsAfter self cap timeoutMs q polls n r ∧ Faithful timeoutMs q polls n r

theorem recvTimeout_of_open {i : ℕ} (hself : self.id = some i) (cap : ℕ) (timeoutMs : Int32)
    (q : List Payload) (ps : List Poll) :
    recvTimeout self cap timeoutMs q ps = run (recvTurn cap timeoutMs) ⟨0, q, 0, 0⟩ ps := by
  simp [recvTimeout, hself]

theorem delivers_of_closed (hself : self.id = none) : Delivers self cap timeoutMs q polls := by
  refine ⟨0, (.error .closed, ⟨0, q, 0, 0⟩), ⟨?_, fun m hm => absurd hm (Nat.not_lt_zero m)⟩, ?_⟩
  · simp [recvTimeout, hself]
  · exact ⟨by simp, fun _ => by simp [arrived], by simp, by simp, by simp⟩

theorem delivers_iff {i : ℕ} (hself : self.id = some i) (hcap : msgqMaxPayload ≤ cap)
    (h0 : 0 ≤ timeoutMs.toInt) (hq : ∀ d ∈ q, d.length ≤ msgqMaxPayload)
    (hsig : FewSignals polls) :
    Delivers self cap timeoutMs q polls ↔
      timeoutMs.toInt ≤ 50 * maxSlices ∨ Relieved q polls := by
  obtain ⟨n, s, r, hrun, hdone⟩ := exists_end hq hcap timeoutMs hsig
  have hret : run (recvTurn cap timeoutMs) ⟨0, q, 0, 0⟩ (answers polls (n + 1)) = .done r := by
    rw [run_answers_succ, hrun]
    exact hdone
  rw [← defined_iff hq hcap hrun hdone]
  simp only [Delivers, ReturnsAfter, recvTimeout_of_open hself]
  constructor
  · rintro ⟨n', r', ⟨hret', -⟩, hfaithful⟩
    rw [done_unique hret hret']
    exact hfaithful.defined
  · intro hdef
    refine ⟨n + 1, r, ⟨hret, fun m hm => ?_⟩, ?_⟩
    · rcases (Nat.lt_succ_iff.mp hm).lt_or_eq with hlt | rfl
      · obtain ⟨t, -, ht, -⟩ := exists_again_of_lt hrun hlt
        exact ⟨t, ht⟩
      · exact ⟨s, hrun⟩
    · have hacc := account_of_run hq hcap hrun
      have he := recvTurn_effect timeoutMs (hacc.fits hq) hcap
      exact hacc.faithful h0 (hdone ▸ he) hdef

/-! ### What the callers get -/

/-- `RECV_TIMEOUT_MS`, the timeout of `Process::run`. -/
def recvTimeoutMs : Int32 := 200

theorem length_le_of_mem_enqueue {ss : List Sent} {d : Payload} (h : d ∈ enqueue [] ss) :
    d.length ≤ msgqMaxPayload := by
  rw [enqueue_eq, List.nil_append] at h
  exact length_le_of_mem_payloads h

/-- For every history of sends and every sequence of polls with finitely many
signals, a call on an open queue delivers exactly when its timeout is one the
slices add up to, or the slices are not used up. The receive of `Process::run`
always delivers, with a buffer that every accepted message fits. -/
theorem recv_timeout_delivers_iff (self : MsgQueue) {cap : ℕ} (hcap : maxMessageLen ≤ cap)
    {timeoutMs : Int32} (h0 : 0 ≤ timeoutMs.toInt) (earlier : List Sent) {polls : ℕ → Poll}
    (hsig : FewSignals polls) :
    (Delivers self cap timeoutMs (enqueue [] earlier) polls ↔
      self.id = none ∨ timeoutMs.toInt ≤ 50 * maxSlices ∨
        Relieved (enqueue [] earlier) polls) ∧
    Delivers self maxMessageLen recvTimeoutMs (enqueue [] earlier) polls := by
  -- the limit of the sender and the size of the receiver's buffer
  have hlimit : msgqMaxPayload = maxMessageLen := rfl
  have hfits : ∀ d ∈ enqueue [] earlier, d.length ≤ msgqMaxPayload := fun d hd =>
    length_le_of_mem_enqueue hd
  cases hself : self.id with
  | none => exact ⟨iff_of_true (delivers_of_closed hself) (.inl rfl), delivers_of_closed hself⟩
  | some i =>
      simp only [reduceCtorEq, false_or]
      constructor
      · exact delivers_iff hself (hlimit.trans_le hcap) h0 hfits hsig
      · rw [delivers_iff hself hlimit.le (by decide) hfits hsig]
        exact .inl (by decide)

/-- Two messages are waiting, one of them as long as the payload, and the first
poll is interrupted. -/
theorem recv_timeout_delivers_iff_two_messages :
    Delivers ⟨some 0, true⟩ 1024 0
      (enqueue [] [⟨⟨some 0, false⟩, [1, 2, 3], true⟩, ⟨⟨some 0, false⟩, rawMessage, true⟩])
      (fun n => ⟨[], if n = 0 then .interrupted else .served⟩) := by
  have hsig : FewSignals fun n => ⟨[], if n = 0 then .interrupted else .served⟩ :=
    ⟨1, fun n hn => by simp [Nat.ne_of_gt hn]⟩
  have hcap : maxMessageLen ≤ 1024 := le_rfl
  have h0 : 0 ≤ (0 : Int32).toInt := le_rfl
  exact (recv_timeout_delivers_iff _ hcap h0 _ hsig).1.mpr (.inr (.inl (by decide)))

def silence : ℕ → Poll := fun _ => ⟨[], .served⟩

/-- With the largest timeout and nobody sending, the call does not report a
timeout after the slices it asks for, or after any other number. -/
theorem recv_timeout_largest_overflows :
    ¬Delivers ⟨some 0, true⟩ maxMessageLen 2147483647 [] silence := by
  have hcap : msgqMaxPayload ≤ maxMessageLen := le_rfl
  rw [delivers_iff rfl hcap (by decide) (by simp) ⟨0, by simp [silence]⟩]
  rintro (h | ⟨i, -, h⟩)
  · exact absurd h (by decide)
  · have hnone : arrived silence (i + 1) = [] := by simp [arrived, silence, answers, payloads]
    simp [silence, hnone] at h

end Fleetcore.Transfer
