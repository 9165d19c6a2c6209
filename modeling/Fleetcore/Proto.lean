import Fleetcore.Lib.ByteOrder

/-!
The contract (`common/proto.h`) and the internal messages
(`common/ipc_message.h`): constants, structures and their memory images.

The wire structures are packed, so their image is the fields one after the
other, multi-byte fields in the byte order of the host. The internal header is
not packed: its one-byte code is followed by three bytes of padding, which the
value-initialised structures of the source leave zero. An `image` is what
`memcpy` reads out of an object and `ofImage` what it leaves in one.
-/

namespace Fleetcore

open ByteOrder

/-! ### Constants -/

def magic0 : UInt8 := 0x46
def magic1 : UInt8 := 0x43
def protoVersion : UInt8 := 1
def maxMessageLen : ℕ := 1024

def codeLockRequest : UInt8 := 0x10
def codeLockResponse : UInt8 := 0x20

def resultOk : UInt8 := 0x00

def idxGateway : ℤ := 1000
def idxLocator : ℤ := 2000
def idxTermdBase : ℤ := 3000

def gatewayPort : UInt16 := 9100
def termPortBase : UInt16 := 9200

def ipcLockRequest : UInt8 := 0x01
def ipcLockResponse : UInt8 := 0x02

/-! ### Wire structures -/

structure Header where
  magic : UInt8 × UInt8
  version : UInt8
  code : UInt8
  length : UInt16
  seq : UInt16
  timestamp : UInt64
  reserved : UInt32
  deriving DecidableEq, Repr, Inhabited

/-- `char term_no[4]`. -/
structure TermNo where
  c0 : UInt8
  c1 : UInt8
  c2 : UInt8
  c3 : UInt8
  deriving DecidableEq, Repr, Inhabited

structure LockRequest where
  header : Header
  termNo : TermNo
  deriving DecidableEq, Repr, Inhabited

structure LockResponse where
  header : Header
  termNo : TermNo
  result : UInt8
  reserved : UInt8 × UInt8 × UInt8
  deriving DecidableEq, Repr, Inhabited

def Header.size : ℕ := 20
def LockRequest.size : ℕ := 24
def LockResponse.size : ℕ := 28

def TermNo.bytes (t : TermNo) : List UInt8 := [t.c0, t.c1, t.c2, t.c3]

def TermNo.ofBytes (bs : List UInt8) : TermNo :=
  ⟨bs.getD 0 0, bs.getD 1 0, bs.getD 2 0, bs.getD 3 0⟩

@[simp] theorem TermNo.length_bytes (t : TermNo) : t.bytes.length = 4 := rfl

@[simp] theorem TermNo.ofBytes_bytes (t : TermNo) : TermNo.ofBytes t.bytes = t := rfl

theorem TermNo.bytes_ofBytes {bs : List UInt8} (h : bs.length = 4) :
    (TermNo.ofBytes bs).bytes = bs := by
  match bs, h with
  | [_, _, _, _], _ => rfl

/-! ### Internal messages -/

structure IpcHeader where
  code : UInt8
  destIndex : Int32
  deriving DecidableEq, Repr, Inhabited

structure IpcLockRequest where
  ipc : IpcHeader
  msg : LockRequest
  deriving DecidableEq, Repr, Inhabited

structure IpcLockResponse where
  ipc : IpcHeader
  msg : LockResponse
  deriving DecidableEq, Repr, Inhabited

def IpcHeader.size : ℕ := 8
def IpcLockRequest.size : ℕ := 32
def IpcLockResponse.size : ℕ := 36

/-! ### Memory images -/

def Header.image (e : Endian) (h : Header) : List UInt8 :=
  [h.magic.1, h.magic.2, h.version, h.code] ++ (e.image 2 h.length.toNat ++
    (e.image 2 h.seq.toNat ++ (e.image 8 h.timestamp.toNat ++ e.image 4 h.reserved.toNat)))

def Header.ofImage (e : Endian) (bs : List UInt8) : Header where
  magic := (bs.getD 0 0, bs.getD 1 0)
  version := bs.getD 2 0
  code := bs.getD 3 0
  length := UInt16.ofNat (e.value (slice 4 2 bs))
  seq := UInt16.ofNat (e.value (slice 6 2 bs))
  timestamp := UInt64.ofNat (e.value (slice 8 8 bs))
  reserved := UInt32.ofNat (e.value (slice 16 4 bs))

def LockRequest.image (e : Endian) (m : LockRequest) : List UInt8 :=
  m.header.image e ++ m.termNo.bytes

def LockRequest.ofImage (e : Endian) (bs : List UInt8) : LockRequest where
  header := Header.ofImage e bs
  termNo := TermNo.ofBytes (slice 20 4 bs)

def LockResponse.image (e : Endian) (m : LockResponse) : List UInt8 :=
  m.header.image e ++ (m.termNo.bytes ++
    [m.result, m.reserved.1, m.reserved.2.1, m.reserved.2.2])

def LockResponse.ofImage (e : Endian) (bs : List UInt8) : LockResponse where
  header := Header.ofImage e bs
  termNo := TermNo.ofBytes (slice 20 4 bs)
  result := bs.getD 24 0
  reserved := (bs.getD 25 0, bs.getD 26 0, bs.getD 27 0)

def IpcHeader.image (e : Endian) (h : IpcHeader) : List UInt8 :=
  [h.code, 0, 0, 0] ++ e.image 4 h.destIndex.toUInt32.toNat

def IpcHeader.ofImage (e : Endian) (bs : List UInt8) : IpcHeader where
  code := bs.getD 0 0
  destIndex := (UInt32.ofNat (e.value (slice 4 4 bs))).toInt32

def IpcLockRequest.image (e : Endian) (m : IpcLockRequest) : List UInt8 :=
  m.ipc.image e ++ m.msg.image e

def IpcLockRequest.ofImage (e : Endian) (bs : List UInt8) : IpcLockRequest where
  ipc := IpcHeader.ofImage e bs
  msg := LockRequest.ofImage e (bs.drop IpcHeader.size)

def IpcLockResponse.image (e : Endian) (m : IpcLockResponse) : List UInt8 :=
  m.ipc.image e ++ m.msg.image e

def IpcLockResponse.ofImage (e : Endian) (bs : List UInt8) : IpcLockResponse where
  ipc := IpcHeader.ofImage e bs
  msg := LockResponse.ofImage e (bs.drop IpcHeader.size)

/-- `m.ipc.dest_index = index`, in the bytes of a message: all others stay. -/
def setDestIndex (e : Endian) (index : Int32) (data : List UInt8) : List UInt8 :=
  overwrite 4 (e.image 4 index.toUInt32.toNat) data

/-! ### Sizes, as the layout assertions state them -/

@[simp] theorem Header.length_image (e : Endian) (h : Header) :
    (h.image e).length = Header.size := by
  simp [Header.image, Header.size]

@[simp] theorem LockRequest.length_image (e : Endian) (m : LockRequest) :
    (m.image e).length = LockRequest.size := by
  simp [LockRequest.image, Header.size, LockRequest.size]

@[simp] theorem LockResponse.length_image (e : Endian) (m : LockResponse) :
    (m.image e).length = LockResponse.size := by
  simp [LockResponse.image, Header.size, LockResponse.size]

@[simp] theorem IpcHeader.length_image (e : Endian) (h : IpcHeader) :
    (h.image e).length = IpcHeader.size := by
  simp [IpcHeader.image, IpcHeader.size]

@[simp] theorem IpcLockRequest.length_image (e : Endian) (m : IpcLockRequest) :
    (m.image e).length = IpcLockRequest.size := by
  simp [IpcLockRequest.image, IpcHeader.size, LockRequest.size, IpcLockRequest.size]

@[simp] theorem IpcLockResponse.length_image (e : Endian) (m : IpcLockResponse) :
    (m.image e).length = IpcLockResponse.size := by
  simp [IpcLockResponse.image, IpcHeader.size, LockResponse.size, IpcLockResponse.size]

/-! ### Reading an image back -/

theorem Header.ofImage_image_append (e : Endian) (h : Header) (d : List UInt8) :
    Header.ofImage e (h.image e ++ d) = h := by
  have hlen : h.length.toNat < 256 ^ 2 := h.length.toNat_lt
  have hseq : h.seq.toNat < 256 ^ 2 := h.seq.toNat_lt
  have htime : h.timestamp.toNat < 256 ^ 8 := h.timestamp.toNat_lt
  have hres : h.reserved.toNat < 256 ^ 4 := h.reserved.toNat_lt
  simp [Header.ofImage, Header.image, slice_append_of_le, slice_zero_append,
    Endian.value_image e hlen, Endian.value_image e hseq, Endian.value_image e htime,
    Endian.value_image e hres]

theorem LockRequest.ofImage_image (e : Endian) (m : LockRequest) :
    LockRequest.ofImage e (m.image e) = m := by
  have hterm : slice 20 4 (m.image e) = m.termNo.bytes := by
    rw [LockRequest.image, slice_append_of_le (by simp [Header.size])]
    simp [Header.size, slice, TermNo.bytes]
  rw [LockRequest.ofImage, hterm, LockRequest.image, Header.ofImage_image_append,
    TermNo.ofBytes_bytes]

theorem LockResponse.ofImage_image (e : Endian) (m : LockResponse) :
    LockResponse.ofImage e (m.image e) = m := by
  have hlen : (m.header.image e).length = 20 := Header.length_image e m.header
  have hterm : slice 20 4 (m.image e) = m.termNo.bytes := by
    rw [LockResponse.image, slice_append_of_le (by simp [hlen]), hlen]
    exact slice_zero_append rfl
  have htail : ∀ i, 20 ≤ i → (m.image e).getD i 0 =
      (m.termNo.bytes ++ [m.result, m.reserved.1, m.reserved.2.1, m.reserved.2.2]).getD
        (i - 20) 0 := fun i hi => by
    rw [LockResponse.image, List.getD_eq_getElem?_getD, List.getD_eq_getElem?_getD,
      List.getElem?_append_right (by omega), hlen]
  rw [LockResponse.ofImage, hterm, htail 24 (by omega), htail 25 (by omega),
    htail 26 (by omega), htail 27 (by omega), LockResponse.image, Header.ofImage_image_append]
  rfl

theorem IpcHeader.ofImage_image_append (e : Endian) (h : IpcHeader) (d : List UInt8) :
    IpcHeader.ofImage e (h.image e ++ d) = h := by
  have hidx : h.destIndex.toUInt32.toNat < 256 ^ 4 := h.destIndex.toUInt32.toNat_lt
  simp [IpcHeader.ofImage, IpcHeader.image, slice_zero_append, Endian.value_image e hidx]

theorem IpcLockRequest.ofImage_image (e : Endian) (m : IpcLockRequest) :
    IpcLockRequest.ofImage e (m.image e) = m := by
  rw [IpcLockRequest.ofImage, IpcLockRequest.image, IpcHeader.ofImage_image_append,
    ← IpcHeader.length_image e m.ipc, List.drop_left, LockRequest.ofImage_image]

@[simp] theorem msg_setDestIndex (e : Endian) (index : Int32) (data : List UInt8) :
    (IpcLockRequest.ofImage e (setDestIndex e index data)).msg =
      (IpcLockRequest.ofImage e data).msg := by
  show LockRequest.ofImage e ((setDestIndex e index data).drop IpcHeader.size) = _
  rw [setDestIndex, drop_overwrite data (by simp [IpcHeader.size])]
  rfl

theorem length_setDestIndex (e : Endian) (index : Int32) {data : List UInt8}
    (h : IpcHeader.size ≤ data.length) : (setDestIndex e index data).length = data.length :=
  length_overwrite (by simpa [IpcHeader.size] using h)

theorem IpcLockResponse.ofImage_image (e : Endian) (m : IpcLockResponse) :
    IpcLockResponse.ofImage e (m.image e) = m := by
  rw [IpcLockResponse.ofImage, IpcLockResponse.image, IpcHeader.ofImage_image_append,
    ← IpcHeader.length_image e m.ipc, List.drop_left, LockResponse.ofImage_image]

end Fleetcore
