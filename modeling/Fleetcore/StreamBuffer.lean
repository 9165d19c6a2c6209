import Fleetcore.Wire

/-!
Reassembling messages out of a byte stream (`common/stream_buffer.cpp`).

`next` cuts a message off the front by the header's length field alone. When
that field is out of range it reports the whole buffer, so that the caller
sees something it cannot decode; how much it then reports depends on what has
arrived so far.
-/

namespace Fleetcore

structure StreamBuffer where
  data : List UInt8
  deriving DecidableEq, Repr, Inhabited

namespace StreamBuffer

def empty : StreamBuffer := ⟨[]⟩

def append (b : StreamBuffer) (data : List UInt8) : StreamBuffer := ⟨b.data ++ data⟩

def frontLength (b : StreamBuffer) : ℕ := (loadBe16 (b.data.drop 4)).toNat

/-- The message at the front, when it is complete. -/
def next (b : StreamBuffer) : Option (List UInt8) :=
  if b.data.length < Header.size then none
  else if b.frontLength < Header.size ∨ b.frontLength > maxMessageLen then some b.data
  else if b.data.length < b.frontLength then none
  else some (b.data.take b.frontLength)

def consume (b : StreamBuffer) (len : ℕ) : StreamBuffer :=
  if len ≥ b.data.length then ⟨[]⟩ else ⟨b.data.drop len⟩

def reset (_ : StreamBuffer) : StreamBuffer := ⟨[]⟩

def pending (b : StreamBuffer) : ℕ := b.data.length

@[simp] theorem data_empty : empty.data = [] := rfl

@[simp] theorem data_append (b : StreamBuffer) (d : List UInt8) :
    (b.append d).data = b.data ++ d := rfl

@[simp] theorem data_reset (b : StreamBuffer) : b.reset.data = [] := rfl

@[simp] theorem data_consume (b : StreamBuffer) (n : ℕ) :
    (b.consume n).data = b.data.drop n := by
  unfold consume
  split
  · next h => rw [List.drop_eq_nil_of_le h]
  · rfl

theorem frontLength_eq {b : StreamBuffer} (h : Header.size ≤ b.data.length) :
    b.frontLength = (Header.ofWire b.data).length.toNat := by
  simp only [Header.size] at h
  have hload := loadBe16_drop (show 4 + 2 ≤ b.data.length by omega)
  rw [frontLength, Header.ofWire, ← hload, UInt16.ofNat_toNat]

theorem next_nil : next ⟨[]⟩ = none := rfl

/-- What `next` reports is a non-empty beginning of the buffer. -/
theorem next_eq_some {b : StreamBuffer} {msg : List UInt8} (h : b.next = some msg) :
    msg = b.data.take msg.length ∧ Header.size ≤ msg.length ∧ msg.length ≤ b.pending := by
  unfold next at h
  split_ifs at h with hshort hrange hpart
  · obtain rfl := Option.some.inj h
    exact ⟨by simp, by omega, le_rfl⟩
  · obtain rfl := Option.some.inj h
    have hlen : (b.data.take b.frontLength).length = b.frontLength := by
      rw [List.length_take]
      omega
    refine ⟨by rw [hlen], by omega, ?_⟩
    rw [hlen, pending]
    omega

theorem pending_consume_lt {b : StreamBuffer} {msg : List UInt8} (h : b.next = some msg) :
    (b.consume msg.length).pending < b.pending := by
  obtain ⟨-, hmin, hmax⟩ := next_eq_some h
  simp only [pending, data_consume, List.length_drop, Header.size] at *
  omega

end StreamBuffer

end Fleetcore
