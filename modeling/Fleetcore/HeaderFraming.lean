import Fleetcore.StreamBuffer
import Fleetcore.Lib.Framing

/-!
Cutting a byte stream at its headers.

Every receiver of this system takes messages from a `StreamBuffer` until it
has no complete one or until `unpack_header` rejects what it reported. That is
the greedy parse of a framer (`headerFramer`): wait for a header, cut a message
by the length field, give up at the first header that breaks a rule. What the
buffer reports of a header with an impossible length depends on how much has
arrived, but the verdict rests on the first twenty bytes, so it is final, and
that is all the general result on framers asks for. `cutStream` is the same
parse written out, without buffers.
-/

namespace Fleetcore

open ByteOrder Framing

def Header.InRange (h : Header) : Prop :=
  Header.size ≤ h.length.toNat ∧ h.length.toNat ≤ maxMessageLen

instance : DecidablePred Header.InRange := fun h =>
  inferInstanceAs (Decidable (Header.size ≤ h.length.toNat ∧ h.length.toNat ≤ maxMessageLen))

theorem Header.inRange_of_check {h : Header} (hc : h.check = .ok) : h.InRange :=
  (Header.check_eq_ok.mp hc).2.2

theorem Header.ofWire_take {d : List UInt8} {n : ℕ} (hn : Header.size ≤ n)
    (hle : n ≤ d.length) : Header.ofWire (d.take n) = Header.ofWire d := by
  have hlen : Header.size ≤ (d.take n).length := by
    rw [List.length_take]
    omega
  conv_rhs => rw [← List.take_append_drop n d]
  exact (Header.ofWire_append _ hlen).symm

theorem StreamBuffer.next_eq {d : List UInt8} (h : Header.size ≤ d.length) :
    (StreamBuffer.mk d).next =
      if ¬(Header.ofWire d).InRange then some d
      else if d.length < (Header.ofWire d).length.toNat then none
      else some (d.take (Header.ofWire d).length.toNat) := by
  have hfront : (StreamBuffer.mk d).frontLength = (Header.ofWire d).length.toNat :=
    StreamBuffer.frontLength_eq h
  have hrange : ((Header.ofWire d).length.toNat < Header.size ∨
      (Header.ofWire d).length.toNat > maxMessageLen) ↔ ¬(Header.ofWire d).InRange := by
    unfold Header.InRange
    omega
  simp only [StreamBuffer.next, hfront, not_lt.mpr h, if_false, hrange]

/-! ### The framer -/

def lookHeader (d : List UInt8) : Look (List UInt8) WireError :=
  match (StreamBuffer.mk d).next with
  | none => .wait
  | some msg =>
      if (Header.ofWire msg).check = .ok then .frame msg.length msg
      else .reject (Header.ofWire msg).check

theorem lookHeader_short {d : List UInt8} (h : d.length < Header.size) :
    lookHeader d = .wait := by
  simp [lookHeader, StreamBuffer.next, h]

/-- An impossible length is reported at once, with whatever has arrived. -/
theorem lookHeader_out_of_range {d : List UInt8} (h : Header.size ≤ d.length)
    (hr : ¬(Header.ofWire d).InRange) : lookHeader d = .reject (Header.ofWire d).check := by
  have hc : (Header.ofWire d).check ≠ .ok := fun hc => hr (Header.inRange_of_check hc)
  simp only [lookHeader, StreamBuffer.next_eq h, hr, not_false_eq_true, if_true, hc, if_false]

theorem lookHeader_incomplete {d : List UInt8} (h : Header.size ≤ d.length)
    (hr : (Header.ofWire d).InRange) (hpart : d.length < (Header.ofWire d).length.toNat) :
    lookHeader d = .wait := by
  simp only [lookHeader, StreamBuffer.next_eq h, hr, not_true_eq_false, if_false, hpart, if_true]

theorem lookHeader_whole {d : List UInt8} (hr : (Header.ofWire d).InRange)
    (hle : (Header.ofWire d).length.toNat ≤ d.length) :
    lookHeader d =
      if (Header.ofWire d).check = .ok then
        .frame (Header.ofWire d).length.toNat (d.take (Header.ofWire d).length.toNat)
      else .reject (Header.ofWire d).check := by
  have hlen : (d.take (Header.ofWire d).length.toNat).length =
      (Header.ofWire d).length.toNat := by
    rw [List.length_take]
    omega
  have hnext : (StreamBuffer.mk d).next = some (d.take (Header.ofWire d).length.toNat) := by
    rw [StreamBuffer.next_eq (hr.1.trans hle), if_neg (not_not.mpr hr), if_neg (not_lt.mpr hle)]
  simp only [lookHeader, hnext, Header.ofWire_take hr.1 hle, hlen]

theorem lookHeader_eq_frame {d : List UInt8} {n : ℕ} {b : List UInt8}
    (h : lookHeader d = .frame n b) :
    (Header.ofWire d).check = .ok ∧ n = (Header.ofWire d).length.toNat ∧ n ≤ d.length ∧
      b = d.take n := by
  rcases lt_or_ge d.length Header.size with hshort | hlen
  · rw [lookHeader_short hshort] at h
    cases h
  · by_cases hr : (Header.ofWire d).InRange
    · rcases lt_or_ge d.length (Header.ofWire d).length.toNat with hpart | hle
      · rw [lookHeader_incomplete hlen hr hpart] at h
        cases h
      · rw [lookHeader_whole hr hle] at h
        split_ifs at h with hc
        obtain ⟨rfl, rfl⟩ := Look.frame.inj h
        exact ⟨hc, rfl, hle, rfl⟩
    · rw [lookHeader_out_of_range hlen hr] at h
      cases h

/-- A verdict rests on bytes that are there already. -/
theorem lookHeader_append {d : List UInt8} (x : List UInt8) (h : lookHeader d ≠ .wait) :
    lookHeader (d ++ x) = lookHeader d := by
  have hlen : Header.size ≤ d.length := by
    by_contra hshort
    exact h (lookHeader_short (not_le.mp hshort))
  have hhead : Header.ofWire (d ++ x) = Header.ofWire d := Header.ofWire_append x hlen
  have hlen' : Header.size ≤ (d ++ x).length := by
    rw [List.length_append]
    omega
  by_cases hr : (Header.ofWire d).InRange
  · rcases lt_or_ge d.length (Header.ofWire d).length.toNat with hpart | hle
    · exact absurd (lookHeader_incomplete hlen hr hpart) h
    · have hle' : (Header.ofWire d).length.toNat ≤ (d ++ x).length := by
        rw [List.length_append]
        omega
      rw [lookHeader_whole (hhead ▸ hr) (hhead ▸ hle'), lookHeader_whole hr hle, hhead,
        List.take_append_of_le_length hle]
  · rw [lookHeader_out_of_range hlen' (hhead ▸ hr), lookHeader_out_of_range hlen hr, hhead]

def headerFramer : Framer UInt8 (List UInt8) WireError where
  look := lookHeader
  frame_pos := fun h => by
    obtain ⟨hc, rfl, -, -⟩ := lookHeader_eq_frame h
    exact Nat.lt_of_lt_of_le (by decide) (Header.inRange_of_check hc).1
  frame_le := fun h => (lookHeader_eq_frame h).2.2.1
  stable := fun x h => lookHeader_append x h
  wait_nil := lookHeader_short (by decide)

/-! ### The parse written out -/

/-- One greedy left-to-right pass over a whole stream. Less than a header, or
less than the message a possible length announces, stays pending; otherwise a
header that breaks a rule ends the pass, and any other one cuts off as many
bytes as its length field says. -/
def cutStream (stream : List UInt8) : List (List UInt8) × Rest UInt8 WireError :=
  if stream.length < Header.size then ([], .pending stream)
  else
    let h := Header.ofWire stream
    if h.InRange ∧ stream.length < h.length.toNat then ([], .pending stream)
    else if h.check ≠ .ok then ([], .dead h.check)
    else
      let rest := cutStream (stream.drop h.length.toNat)
      (stream.take h.length.toNat :: rest.1, rest.2)
  termination_by stream.length
  decreasing_by
    have hmin : Header.size ≤ (Header.ofWire stream).length.toNat :=
      (Header.inRange_of_check (not_not.mp ‹_›)).1
    have hlen : Header.size ≤ stream.length := not_lt.mp ‹_›
    rw [List.length_drop]
    exact Nat.sub_lt (Nat.lt_of_lt_of_le (by decide) hlen) (Nat.lt_of_lt_of_le (by decide) hmin)

theorem cutStream_eq_parse (stream : List UInt8) :
    cutStream stream = headerFramer.parse stream := by
  induction stream using cutStream.induct with
  | case1 d hshort =>
      have hl : headerFramer.look d = .wait := lookHeader_short hshort
      rw [cutStream, if_pos hshort, Framer.parse_wait hl]
  | case2 d hlen h hpart =>
      have hl : headerFramer.look d = .wait :=
        lookHeader_incomplete (not_lt.mp hlen) hpart.1 hpart.2
      rw [cutStream, if_neg hlen, if_pos hpart, Framer.parse_wait hl]
  | case3 d hlen h hpart hc =>
      have hl : headerFramer.look d = .reject h.check := by
        change lookHeader d = .reject h.check
        by_cases hr : h.InRange
        · rw [lookHeader_whole hr (not_lt.mp fun hlt => hpart ⟨hr, hlt⟩), if_neg hc]
        · exact lookHeader_out_of_range (not_lt.mp hlen) hr
      rw [cutStream, if_neg hlen, if_neg hpart, if_pos hc, Framer.parse_reject hl]
  | case4 d hlen h hpart hc ih =>
      have hok : h.check = .ok := not_not.mp hc
      have hr : h.InRange := Header.inRange_of_check hok
      have hl : headerFramer.look d = .frame h.length.toNat (d.take h.length.toNat) := by
        change lookHeader d = _
        rw [lookHeader_whole hr (not_lt.mp fun hlt => hpart ⟨hr, hlt⟩), if_pos hok]
      rw [cutStream, if_neg hlen, if_neg hpart, if_neg hc, Framer.parse_frame hl, ← ih]

theorem check_of_mem_parse {d msg : List UInt8} (h : msg ∈ (headerFramer.parse d).1) :
    (Header.ofWire msg).check = .ok ∧ (Header.ofWire msg).length.toNat = msg.length ∧
      Header.size ≤ msg.length := by
  induction d using Framer.parse.induct headerFramer with
  | case1 d hl => simp [Framer.parse_wait hl] at h
  | case2 d e hl => simp [Framer.parse_reject hl] at h
  | case3 d n b hl ih =>
      rw [Framer.parse_frame hl] at h
      rcases List.mem_cons.mp h with rfl | h
      · obtain ⟨hc, rfl, hle, rfl⟩ := lookHeader_eq_frame hl
        have hr := Header.inRange_of_check hc
        rw [Header.ofWire_take hr.1 hle, List.length_take, min_eq_left hle]
        exact ⟨hc, rfl, hr.1⟩
      · exact ih h

/-- The loop of a receiver, one turn: what `next` reports of a buffer either
has a header that passes, and is what the framer cuts, or it has not. -/
theorem look_of_next {d msg : List UInt8} (h : (StreamBuffer.mk d).next = some msg) :
    headerFramer.look d = if (Header.ofWire msg).check = .ok then .frame msg.length msg
      else .reject (Header.ofWire msg).check := by
  change lookHeader d = _
  simp only [lookHeader, h]

theorem look_of_next_none {d : List UInt8} (h : (StreamBuffer.mk d).next = none) :
    headerFramer.look d = .wait := by
  change lookHeader d = _
  simp only [lookHeader, h]

theorem length_of_next {b : StreamBuffer} {msg : List UInt8} (h : b.next = some msg)
    (hc : (Header.ofWire msg).check = .ok) :
    (Header.ofWire msg).length.toNat = msg.length := by
  have hl := look_of_next (d := b.data) h
  rw [if_pos hc] at hl
  obtain ⟨hc', hlen, hle, hmsg⟩ := lookHeader_eq_frame hl
  have hmin := (Header.inRange_of_check hc').1
  conv_lhs => rw [hmsg]
  rw [Header.ofWire_take (hlen ▸ hmin) hle, hlen]

end Fleetcore
