import Fleetcore.GuiWorkers
import Fleetcore.Receive
import Fleetcore.Termd

/-!
Framed delivery.

Well-formed frames one after the other, cut into chunks in any way, are cut
back into these frames by every receiver: what a receiver takes is the frames
of its code and size, in order, the others are passed over by their own length,
and nothing stays pending.
-/

namespace Fleetcore

open ByteOrder Framing

/-- A frame of any code that announces its own length. -/
structure Frame where
  bytes : List UInt8
  magic : bytes.getD 0 0 = magic0 ∧ bytes.getD 1 0 = magic1
  version : bytes.getD 2 0 ≤ protoVersion
  min_le : Header.size ≤ lengthField bytes
  le_max : lengthField bytes ≤ maxMessageLen
  length_eq : bytes.length = lengthField bytes

namespace Frame

def Is (code : UInt8) (size : ℕ) (f : Frame) : Prop :=
  f.bytes.getD 3 0 = code ∧ lengthField f.bytes = size

instance (code : UInt8) (size : ℕ) : DecidablePred (Is code size) := fun f =>
  inferInstanceAs (Decidable (f.bytes.getD 3 0 = code ∧ lengthField f.bytes = size))

theorem size_le (f : Frame) : Header.size ≤ f.bytes.length := f.length_eq ▸ f.min_le

theorem check_eq (f : Frame) : (Header.ofWire f.bytes).check = .ok := by
  refine Header.check_eq_ok.mpr ⟨Prod.ext f.magic.1 f.magic.2, f.version, ?_⟩
  rw [lengthField_eq]
  exact ⟨f.min_le, f.le_max⟩

theorem look_eq (f : Frame) : headerFramer.look f.bytes = .frame f.bytes.length f.bytes := by
  have hlen : (Header.ofWire f.bytes).length.toNat = f.bytes.length := by
    rw [lengthField_eq, f.length_eq]
  have hr := Header.inRange_of_check f.check_eq
  change lookHeader f.bytes = _
  rw [lookHeader_whole hr hlen.le, if_pos f.check_eq, hlen, List.take_length]

theorem verdict_eq_ok (f : Frame) {code : UInt8} {size : ℕ} (hmin : Header.size ≤ size)
    (hmax : size ≤ maxMessageLen) (h : f.Is code size) : verdict code size f.bytes = .ok :=
  (Fleetcore.verdict_eq_ok hmin hmax).mpr
    ⟨(f.length_eq.trans h.2).ge, f.magic, f.version, h⟩

theorem parse_flatten (fs : List Frame) :
    headerFramer.parse (fs.map bytes).flatten = (fs.map bytes, .pending []) := by
  have hlook : ∀ d ∈ fs.map bytes, headerFramer.look d = .frame d.length (id d) := by
    intro d hd
    obtain ⟨f, -, rfl⟩ := List.mem_map.mp hd
    exact f.look_eq
  rw [Framer.parse_flatten hlook, List.map_id]

end Frame

/-! ### The workers -/

theorem judges_receiveMessage {M : Type} (e : Endian) (code : UInt8)
    (unpack : List UInt8 → WireError × M) : Judges (receiveMessage e code unpack) where
  bad := fun msg hmin hc => by
    rw [receiveMessage, unpackHeader_eq e default hmin, if_pos hc]
  good := fun msg hmin hc err => by
    simp only [receiveMessage, unpackHeader_eq e default hmin, hc, ne_eq, not_true_eq_false,
      if_false]
    split_ifs <;> simp

theorem emitted?_frame {M : Type} (L : Layout M) (e : Endian) {code : UInt8}
    {unpack : List UInt8 → WireError × M} {out : M} (hmin : Header.size ≤ L.size)
    (hmax : L.size ≤ maxMessageLen) (hunpack : ∀ buf, unpack buf = L.decode code buf out)
    (f : Frame) : (receiveMessage e code unpack f.bytes).emitted? =
      if f.Is code L.size then some (L.ofWire f.bytes) else none := by
  have hcodeof : (Header.ofWire f.bytes).code = f.bytes.getD 3 0 := rfl
  simp only [receiveMessage, unpackHeader_eq e default f.size_le, f.check_eq, ne_eq,
    not_true_eq_false, if_false, hcodeof, hunpack]
  by_cases hcode : f.bytes.getD 3 0 = code
  · have hok : verdict code L.size f.bytes = .ok ↔ lengthField f.bytes = L.size := by
      rw [verdict_eq_ok hmin hmax]
      exact ⟨fun h => h.2.2.2.2,
        fun h => ⟨(f.length_eq.trans h).ge, f.magic, f.version, hcode, h⟩⟩
    rw [if_neg (not_not.mpr hcode)]
    -- of a frame only the size is left to check
    by_cases hsize : lengthField f.bytes = L.size
    · have hf : f.Is code L.size := ⟨hcode, hsize⟩
      rw [L.decode_of_ok out (hok.mpr hsize), if_pos hf]
      rfl
    · have hf : ¬ f.Is code L.size := fun h => hsize h.2
      have hbad : (L.decode code f.bytes out).1 ≠ .ok := fun h => hsize (hok.mp h)
      rw [if_pos hbad, if_neg hf]
      rfl
  · have hf : ¬ f.Is code L.size := fun h => hcode h.1
    rw [if_pos hcode, if_neg hf]
    rfl

theorem Frame.filterMap_eq {β : Type} {code : UInt8} {size : ℕ} {g : List UInt8 → Option β}
    {h : List UInt8 → β}
    (hg : ∀ f : Frame, g f.bytes = if f.Is code size then some (h f.bytes) else none)
    (fs : List Frame) : (fs.map bytes).filterMap g =
      (fs.filter fun f => f.Is code size).map fun f => h f.bytes := by
  induction fs with
  | nil => rfl
  | cons f fs ih =>
      by_cases hf : f.Is code size
      · simp [hg, hf, ← ih]
      · simp [hg, hf, ← ih]

/-! ### Delivery -/

/-- What a worker emits of frames that arrive in chunks. -/
theorem readAll_frames {M : Type} (L : Layout M) (e : Endian) {code : UInt8}
    {unpack : List UInt8 → WireError × M} {out : M} (hmin : Header.size ≤ L.size)
    (hmax : L.size ≤ maxMessageLen) (hunpack : ∀ buf, unpack buf = L.decode code buf out)
    {frames : List Frame} {chunks : List (List UInt8)}
    (h : chunks.flatten = (frames.map Frame.bytes).flatten) :
    readAll (receiveMessage e code unpack) .empty chunks =
      ⟨(frames.filter fun f => f.Is code L.size).map fun f => L.ofWire f.bytes, [], .empty⟩ := by
  rw [readAll_eq (judges_receiveMessage e code unpack), StreamBuffer.data_empty,
    Framer.feedAll_eq_parse, h, Frame.parse_flatten, Turn.of,
    Frame.filterMap_eq (emitted?_frame L e hmin hmax hunpack)]
  rfl

theorem readAll_comm {e : Endian} {frames : List Frame} {chunks : List (List UInt8)}
    (h : chunks.flatten = (frames.map Frame.bytes).flatten) :
    readAll (CommWorker.handleMessage e) .empty chunks =
      ⟨(frames.filter fun f => f.Is codeLockRequest LockRequest.size).map fun f =>
        LockRequest.ofWire f.bytes, [], .empty⟩ :=
  readAll_frames requestLayout e (by decide) (by decide)
    (fun buf => unpackLockRequest_eq e buf default) h

theorem readAll_maint {e : Endian} {frames : List Frame} {chunks : List (List UInt8)}
    (h : chunks.flatten = (frames.map Frame.bytes).flatten) :
    readAll (MaintWorker.handleMessage e) .empty chunks =
      ⟨(frames.filter fun f => f.Is codeLockResponse LockResponse.size).map fun f =>
        LockResponse.ofWire f.bytes, [], .empty⟩ :=
  readAll_frames responseLayout e (by decide) (by decide)
    (fun buf => unpackLockResponse_eq e buf default) h

theorem receiveAll_frames {e : Endian} {frames : List Frame} {chunks : List (List UInt8)}
    (h : chunks.flatten = (frames.map Frame.bytes).flatten) :
    Gateway.receiveAll e .empty chunks =
      ⟨(frames.filter fun f => f.Is codeLockRequest LockRequest.size).map fun f =>
        Gateway.forward f.bytes, none, []⟩ := by
  have hreq : ∀ f : Frame, Gateway.requestIn f.bytes =
      if f.Is codeLockRequest LockRequest.size then some (Gateway.forward f.bytes) else none :=
    fun f => by
      simp only [Gateway.requestIn, Gateway.forward, Frame.Is, f.length_eq]
      rfl
  rw [Gateway.receiveAll_eq, StreamBuffer.data_empty, Framer.feedAll_eq_parse, h,
    Frame.parse_flatten, Gateway.Parsed.of, Frame.filterMap_eq hreq]

/-! ### Frames the encoders build -/

section Built

variable {M : Type} (L : Layout M)

theorem Layout.ofWire_wire_self (m : M) : L.ofWire (L.wire m) = m := by
  simpa using L.ofWire_wire m []

theorem Layout.header_wire (m : M) : Header.ofWire (L.wire m) = L.header m := by
  rw [← L.header_ofWire, L.ofWire_wire_self]

def Layout.frame (m : M) (hmin : Header.size ≤ L.size) (hmax : L.size ≤ maxMessageLen)
    (hmagic : (L.header m).magic = (magic0, magic1))
    (hversion : (L.header m).version ≤ protoVersion)
    (hlength : (L.header m).length.toNat = L.size) : Frame :=
  have hfield : lengthField (L.wire m) = L.size := by
    rw [← lengthField_eq, L.header_wire, hlength]
  { bytes := L.wire m
    magic := Prod.mk.inj ((congrArg Header.magic (L.header_wire m)).trans hmagic)
    version := (congrArg Header.version (L.header_wire m)).trans_le hversion
    min_le := hfield ▸ hmin
    le_max := hfield ▸ hmax
    length_eq := (L.length_wire m).trans hfield.symm }

theorem Layout.is_frame {m : M} {hmin : Header.size ≤ L.size} {hmax : L.size ≤ maxMessageLen}
    {hmagic : (L.header m).magic = (magic0, magic1)}
    {hversion : (L.header m).version ≤ protoVersion}
    {hlength : (L.header m).length.toNat = L.size} {code : UInt8}
    (hcode : (L.header m).code = code) :
    (L.frame m hmin hmax hmagic hversion hlength).Is code L.size :=
  ⟨(congrArg Header.code (L.header_wire m)).trans hcode, by
    rw [← lengthField_eq]
    exact (congrArg (fun h : Header => h.length.toNat) (L.header_wire m)).trans hlength⟩

end Built

def requestFrame (termNo : TermNo) (seq : UInt16) (now : UInt64) : Frame :=
  requestLayout.frame (makeLockRequest termNo seq now) (by decide) (by decide) rfl
    (UInt8.le_refl protoVersion) rfl

def responseFrame (termNo : TermNo) (seq : UInt16) (result : UInt8) (now : UInt64) : Frame :=
  responseLayout.frame (makeLockResponse termNo seq result now) (by decide) (by decide) rfl
    (UInt8.le_refl protoVersion) rfl

def written (r : ℕ × List UInt8) : List UInt8 := r.2.take r.1

theorem written_packLockRequest (e : Endian) (m : LockRequest) {dst : List UInt8}
    (h : LockRequest.size ≤ dst.length) : written (packLockRequest e m dst) = m.wire := by
  rw [packLockRequest_eq e m h, written, ← LockRequest.length_wire m, List.take_left]

theorem written_packLockResponse (e : Endian) (m : LockResponse) {dst : List UInt8}
    (h : LockResponse.size ≤ dst.length) : written (packLockResponse e m dst) = m.wire := by
  rw [packLockResponse_eq e m h, written, ← LockResponse.length_wire m, List.take_left]

/-- A request that was decoded is accepted by the terminal after termd has
encoded it again. -/
theorem handleMessage_frameOf {e e₁ e₂ : Endian} {buf : List UInt8} {out m : LockRequest}
    (h : unpackLockRequest e buf out = (.ok, m)) :
    CommWorker.handleMessage e₁ (Termd.frameOf e₂ m) = .emitted m := by
  obtain ⟨-, -, hcheck, hcode, hlength⟩ := unpackLockRequest_ok h
  have hheader : Header.ofWire m.wire = m.header := requestLayout.header_wire m
  have hread : unpackLockRequest e₁ m.wire default = (.ok, m) := by
    have hok := unpackLockRequest_of_rules e₁ default (LockRequest.length_wire m).ge
      (hheader ▸ hcheck) (hheader ▸ hcode) (hheader ▸ hlength)
    rw [hok]
    exact congrArg (Prod.mk WireError.ok) (requestLayout.ofWire_wire_self m)
  have hlen : Header.size ≤ m.wire.length := by
    rw [LockRequest.length_wire]
    decide
  rw [Termd.frameOf_eq, CommWorker.handleMessage, receiveMessage,
    unpackHeader_eq e₁ default hlen, hheader]
  simp only [hcheck, hcode, hread, ne_eq, not_true_eq_false, if_false]

theorem forwarded_reaches_terminal {e e₁ : Endian} {frame : List UInt8} {q : IpcLockRequest}
    (h : Gateway.handleFromMaint e frame = .forwarded q) (index : Int32) (env : Env) (t : Termd)
    (table : Segment) (hc : t.tcp.hasClient = true) :
    ∃ f call, Note.handed f call ∈ (t.onLockRequest e env table
        (IpcLockRequest.image e { q with ipc := ⟨q.ipc.code, index⟩ })).obs ∧
      CommWorker.handleMessage e₁ f = .emitted q.msg := by
  obtain ⟨hok, hq⟩ := Gateway.handleFromMaint_eq_forwarded e h
  have hmsg : q.msg = LockRequest.ofWire frame := congrArg IpcLockRequest.msg hq
  rw [Termd.onLockRequest_of_client (IpcLockRequest.length_image e _) hc,
    IpcLockRequest.ofImage_image]
  exact ⟨_, _, List.mem_singleton.mpr rfl, handleMessage_frameOf (hmsg ▸ hok)⟩

/-- Framed delivery: well-formed frames in chunks of any kind are delivered, each
to its receiver, and nothing else is; what the encoders build is such a frame,
and what gateway accepts the terminal accepts. -/
theorem framed_delivery (e e₁ e₂ : Endian) {frames : List Frame} {chunks : List (List UInt8)}
    (h : chunks.flatten = (frames.map Frame.bytes).flatten) :
    Gateway.receiveAll e .empty chunks =
      ⟨(frames.filter fun f => f.Is codeLockRequest LockRequest.size).map fun f =>
        Gateway.forward f.bytes, none, []⟩ ∧
    readAll (CommWorker.handleMessage e₁) .empty chunks =
      ⟨(frames.filter fun f => f.Is codeLockRequest LockRequest.size).map fun f =>
        LockRequest.ofWire f.bytes, [], .empty⟩ ∧
    readAll (MaintWorker.handleMessage e₂) .empty chunks =
      ⟨(frames.filter fun f => f.Is codeLockResponse LockResponse.size).map fun f =>
        LockResponse.ofWire f.bytes, [], .empty⟩ ∧
    (∀ termNo seq now dst chunks, LockRequest.size ≤ dst.length →
      chunks.flatten = written (packLockRequest e₂ (makeLockRequest termNo seq now) dst) →
        Gateway.receiveAll e .empty chunks =
          ⟨[⟨⟨ipcLockRequest, 0⟩, makeLockRequest termNo seq now⟩], none, []⟩ ∧
        readAll (CommWorker.handleMessage e₁) .empty chunks =
          ⟨[makeLockRequest termNo seq now], [], .empty⟩) ∧
    (∀ termNo seq result now dst chunks, LockResponse.size ≤ dst.length →
      chunks.flatten = written (packLockResponse e (makeLockResponse termNo seq result now) dst) →
        readAll (MaintWorker.handleMessage e₂) .empty chunks =
          ⟨[makeLockResponse termNo seq result now], [], .empty⟩) ∧
    ∀ frame q, Gateway.handleFromMaint e frame = .forwarded q →
      ∀ index env (t : Termd) table, t.tcp.hasClient = true →
        ∃ f call, Note.handed f call ∈ (t.onLockRequest e env table
            (IpcLockRequest.image e { q with ipc := ⟨q.ipc.code, index⟩ })).obs ∧
          CommWorker.handleMessage e₁ f = .emitted q.msg := by
  refine ⟨receiveAll_frames h, readAll_comm h, readAll_maint h, ?_, ?_, ?_⟩
  · intro termNo seq now dst chunks hdst hchunks
    rw [written_packLockRequest e₂ _ hdst] at hchunks
    have hone : chunks.flatten = ([requestFrame termNo seq now].map Frame.bytes).flatten :=
      hchunks.trans (by simp [requestFrame, Layout.frame, requestLayout])
    have his : (requestFrame termNo seq now).Is codeLockRequest LockRequest.size :=
      requestLayout.is_frame rfl
    have hval : LockRequest.ofWire (requestFrame termNo seq now).bytes =
        makeLockRequest termNo seq now := requestLayout.ofWire_wire_self _
    rw [receiveAll_frames hone, readAll_comm hone]
    simp [his, hval, Gateway.forward]
  · intro termNo seq result now dst chunks hdst hchunks
    rw [written_packLockResponse e _ hdst] at hchunks
    have hone : chunks.flatten = ([responseFrame termNo seq result now].map Frame.bytes).flatten :=
      hchunks.trans (by simp [responseFrame, Layout.frame, responseLayout])
    have his : (responseFrame termNo seq result now).Is codeLockResponse LockResponse.size :=
      responseLayout.is_frame rfl
    have hval : LockResponse.ofWire (responseFrame termNo seq result now).bytes =
        makeLockResponse termNo seq result now := responseLayout.ofWire_wire_self _
    rw [readAll_maint hone]
    simp [his, hval]
  · exact fun frame q hq index env t table hc =>
      forwarded_reaches_terminal hq index env t table hc

/-- A frame of an unknown code, an acknowledgement and a request, cut in the
middle of two headers. -/
theorem framed_delivery_two_skipped : ∃ (frames : List Frame) (chunks : List (List UInt8)),
    frames.map (fun f => f.bytes.length) = [21, 28, 24] ∧
    chunks.map List.length = [2, 55, 16] ∧
    Gateway.receiveAll .little .empty chunks =
      ⟨(frames.filter fun f => f.Is codeLockRequest LockRequest.size).map fun f =>
        Gateway.forward f.bytes, none, []⟩ ∧
    (frames.filter fun f => f.Is codeLockRequest LockRequest.size).length = 1 := by
  let other : Frame :=
    ⟨[0x46, 0x43, 0, 0x42, 0, 21] ++ List.replicate 15 7, by decide, by decide, by decide,
      by decide, by decide⟩
  let frames := [other, responseFrame ⟨49, 48, 48, 49⟩ 5 0 9, requestFrame ⟨49, 48, 48, 50⟩ 6 9]
  let stream := (frames.map Frame.bytes).flatten
  have h : [stream.take 2, (stream.drop 2).take 55, stream.drop 57].flatten =
      (frames.map Frame.bytes).flatten := by decide +kernel
  exact ⟨frames, _, by decide +kernel, by decide +kernel,
    (framed_delivery .little .big .little h).1, by decide +kernel⟩

end Fleetcore
