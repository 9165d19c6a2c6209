import Fleetcore.Process

/-!
The locator (`locator/main.cpp`): resolves a terminal number into the index of
the termd that serves the terminal, and passes the command on.

The number is read off four ASCII digits and looked up in the terminal table.
The index is computed from the number alone, so what the lookup decides is
whether the command is passed on, not where it goes.
-/

namespace Fleetcore

open ByteOrder

namespace Locator

/-- The loop over the digits, `n` read so far; `none` at a byte that is none. -/
def parseDigits : List UInt8 → UInt32 → Option UInt32
  | [], n => some n
  | c :: cs, n =>
      if c < 0x30 ∨ c > 0x39 then none else parseDigits cs (n * 10 + (c - 0x30).toUInt32)

/-- `IDX_TERMD_BASE + static_cast<int32_t>(n - 1000)`. -/
def termdIndex (n : UInt32) : Int32 := Int32.ofInt idxTermdBase + (n - 1000).toInt32

/-- The index to pass a command on to, 0 for none. -/
def resolve (a : Access) (table : Segment) (termNo : TermNo) : Int32 :=
  match parseDigits termNo.bytes 0 with
  | none => 0
  | some n => if (table.find a n .zero).1 then termdIndex n else 0

/-- Locator has no state of its own: the table is the segment. -/
def onLockRequest (e : Endian) (env : Env) (table : Segment) (data : List UInt8) :
    Reaction Unit :=
  if data.length ≠ IpcLockRequest.size then ⟨(), table, [], []⟩
  else
    let m := IpcLockRequest.ofImage e data
    let idx := resolve env.access table m.msg.termNo
    if idx = 0 then ⟨(), table, [], []⟩
    else
      -- `m` is what was received, byte for byte, with the destination filled in
      ⟨(), table, sendTo idx.toInt (setDestIndex e idx data), []⟩

def handlers (e : Endian) (env : Env) (table : Segment) :
    UInt8 → Option (List UInt8 → Reaction Unit) := fun code =>
  if code = ipcLockRequest then some (onLockRequest e env table) else none

/-! ### Numbers and their digits -/

def number (t : TermNo) : Option UInt32 := parseDigits t.bytes 0

def digits (n : ℕ) : TermNo where
  c0 := UInt8.ofNat (0x30 + n / 1000 % 10)
  c1 := UInt8.ofNat (0x30 + n / 100 % 10)
  c2 := UInt8.ofNat (0x30 + n / 10 % 10)
  c3 := UInt8.ofNat (0x30 + n % 10)

def IsDigit (c : UInt8) : Prop := 0x30 ≤ c.toNat ∧ c.toNat ≤ 0x39

def value (t : TermNo) : ℕ :=
  (c t.c0 * 10 + c t.c1) * 100 + (c t.c2 * 10 + c t.c3)
where c (b : UInt8) : ℕ := b.toNat - 0x30

theorem not_isDigit {c : UInt8} : (c < 0x30 ∨ c > 0x39) ↔ ¬IsDigit c := by
  simp only [IsDigit, UInt8.lt_iff_toNat_lt, gt_iff_lt, UInt8.reduceToNat]
  omega

theorem toNat_digit_step {n : UInt32} {c : UInt8} (hc : IsDigit c) (hn : n.toNat < 1000) :
    (n * 10 + (c - 0x30).toUInt32).toNat = n.toNat * 10 + (c.toNat - 0x30) := by
  obtain ⟨hlo, hhi⟩ := hc
  have hsub : (c - 0x30).toNat = c.toNat - 0x30 := by
    rw [UInt8.toNat_sub_of_le _ _ (by rw [UInt8.le_iff_toNat_le]; exact hlo)]
    rfl
  simp only [UInt32.toNat_add, UInt32.toNat_mul, UInt8.toNat_toUInt32, hsub,
    UInt32.reduceToNat]
  omega

theorem parseDigits_cons {c : UInt8} (cs : List UInt8) {n : UInt32} (hc : IsDigit c) :
    parseDigits (c :: cs) n = parseDigits cs (n * 10 + (c - 0x30).toUInt32) := by
  rw [parseDigits, if_neg (not_not.mpr hc |> mt not_isDigit.mp)]

theorem parseDigits_cons_none {c : UInt8} (cs : List UInt8) {n : UInt32} (hc : ¬IsDigit c) :
    parseDigits (c :: cs) n = none := by
  rw [parseDigits, if_pos (not_isDigit.mpr hc)]

theorem parseDigits_of_digits {c0 c1 c2 c3 : UInt8} (h0 : IsDigit c0) (h1 : IsDigit c1)
    (h2 : IsDigit c2) (h3 : IsDigit c3) :
    ∃ n, parseDigits [c0, c1, c2, c3] 0 = some n ∧ n.toNat = value ⟨c0, c1, c2, c3⟩ := by
  refine ⟨_, by rw [parseDigits_cons _ h0, parseDigits_cons _ h1, parseDigits_cons _ h2,
    parseDigits_cons _ h3, parseDigits], ?_⟩
  have e0 : _ = 0 * 10 + (c0.toNat - 0x30) := toNat_digit_step (n := 0) h0 (by decide)
  have b0 : c0.toNat - 0x30 ≤ 9 := by have := h0.2; omega
  have b1 : c1.toNat - 0x30 ≤ 9 := by have := h1.2; omega
  have b2 : c2.toNat - 0x30 ≤ 9 := by have := h2.2; omega
  have e1 := toNat_digit_step h1 (n := 0 * 10 + (c0 - 0x30).toUInt32) (by omega)
  have e2 := toNat_digit_step h2
    (n := (0 * 10 + (c0 - 0x30).toUInt32) * 10 + (c1 - 0x30).toUInt32) (by omega)
  have e3 := toNat_digit_step h3 (n := ((0 * 10 + (c0 - 0x30).toUInt32) * 10 +
    (c1 - 0x30).toUInt32) * 10 + (c2 - 0x30).toUInt32) (by omega)
  rw [e3, e2, e1, e0]
  simp only [value, value.c]
  omega

/-- The loop accepts exactly four digits, and reads the number they denote. -/
theorem number_eq_some {t : TermNo} {n : UInt32} :
    number t = some n ↔
      (IsDigit t.c0 ∧ IsDigit t.c1 ∧ IsDigit t.c2 ∧ IsDigit t.c3) ∧ n.toNat = value t := by
  unfold number TermNo.bytes
  by_cases h0 : IsDigit t.c0
  · by_cases h1 : IsDigit t.c1
    · by_cases h2 : IsDigit t.c2
      · by_cases h3 : IsDigit t.c3
        · obtain ⟨m, hm, hv⟩ := parseDigits_of_digits h0 h1 h2 h3
          simp only [hm, Option.some.injEq, h0, h1, h2, h3, and_self, true_and, ← hv]
          exact ⟨fun h => by rw [h], fun h => (UInt32.toNat_inj.mp h).symm⟩
        · simp [parseDigits_cons, parseDigits_cons_none, h0, h1, h2, h3]
      · simp [parseDigits_cons, parseDigits_cons_none, h0, h1, h2]
    · simp [parseDigits_cons, parseDigits_cons_none, h0, h1]
  · simp [parseDigits_cons_none, h0]

theorem number_lt {t : TermNo} {n : UInt32} (h : number t = some n) : n.toNat < 10000 := by
  obtain ⟨⟨h0, h1, h2, h3⟩, hv⟩ := number_eq_some.mp h
  simp only [IsDigit, value, value.c] at *
  omega

theorem digits_number {t : TermNo} {n : UInt32} (h : number t = some n) :
    t = digits n.toNat := by
  obtain ⟨⟨h0, h1, h2, h3⟩, hv⟩ := number_eq_some.mp h
  obtain ⟨c0, c1, c2, c3⟩ := t
  have hbyte : ∀ {c : UInt8} {k : ℕ}, c.toNat = k → c = UInt8.ofNat k := fun hc => by
    rw [← hc, UInt8.ofNat_toNat]
  simp only [IsDigit, value, value.c] at h0 h1 h2 h3 hv
  simp only [digits, TermNo.mk.injEq]
  refine ⟨hbyte ?_, hbyte ?_, hbyte ?_, hbyte ?_⟩ <;> omega

theorem number_digits {n : ℕ} (h : n < 10000) : number (digits n) = some (UInt32.ofNat n) := by
  have hbyte : ∀ k < 10, (UInt8.ofNat (0x30 + k)).toNat = 0x30 + k := fun k hk => by
    rw [UInt8.toNat_ofNat']
    omega
  have hn : (UInt32.ofNat n).toNat = n := by
    rw [UInt32.toNat_ofNat']
    omega
  rw [number_eq_some, hn]
  simp only [digits, IsDigit, value, value.c, hbyte _ (Nat.mod_lt _ (by omega : 0 < 10))]
  omega

/-- No wrap-around: below 10000 the index is 2000 above the number. -/
theorem toInt_termdIndex {n : UInt32} (h : n.toNat < 10000) :
    (termdIndex n).toInt = n.toNat + 2000 := by
  have hbase : (Int32.ofInt idxTermdBase).toInt = 3000 := rfl
  have hsub : (n - 1000).toInt32.toInt = (n.toNat : ℤ) - 1000 := by
    have hbits : (n - 1000).toInt32.toInt = ((n - 1000).toNat : ℤ).bmod (2 ^ 32) :=
      BitVec.toInt_eq_toNat_bmod _
    rw [hbits, UInt32.toNat_sub, show (1000 : UInt32).toNat = 1000 from rfl,
      Int.bmod_eq_emod]
    split <;> omega
  rw [termdIndex, Int32.toInt_add, hbase, hsub, Int.bmod_eq_emod]
  split <;> omega

/-! ### What becomes of a command -/

def relay (e : Endian) (n : UInt32) (data : List UInt8) : List UInt8 :=
  setDestIndex e (termdIndex n) data

theorem msg_relay (e : Endian) (n : UInt32) (data : List UInt8) :
    (IpcLockRequest.ofImage e (relay e n data)).msg = (IpcLockRequest.ofImage e data).msg :=
  msg_setDestIndex e (termdIndex n) data


def termdKey (n : UInt32) : ℤ := queueKey (n.toNat + 2000)

def numberIn (e : Endian) (data : List UInt8) : Option UInt32 :=
  number (IpcLockRequest.ofImage e data).msg.termNo

theorem termdIndex_ne_zero {n : UInt32} (h : n.toNat < 10000) : termdIndex n ≠ 0 := by
  intro h0
  have htoInt := toInt_termdIndex h
  rw [h0] at htoInt
  have hzero : (0 : Int32).toInt = 0 := rfl
  omega

theorem sendTo_relay (e : Endian) {n : UInt32} {data : List UInt8} (h : n.toNat < 10000)
    (hlen : data.length = IpcLockRequest.size) :
    sendTo (termdIndex n).toInt (setDestIndex e (termdIndex n) data) =
      [(termdKey n, relay e n data)] := by
  rw [termdKey, ← toInt_termdIndex h]
  apply sendTo_of_le
  rw [length_setDestIndex e _ (by rw [hlen]; decide), hlen]
  decide

/-- A command whose number is looked up with success is passed on, every other
message is dropped. -/
theorem onLockRequest_eq (e : Endian) (env : Env) (table : Segment) (data : List UInt8) :
    onLockRequest e env table data =
      ⟨(), table,
        if data.length = IpcLockRequest.size then
          match numberIn e data with
          | none => []
          | some n =>
              if (table.find env.access n .zero).1 then [(termdKey n, relay e n data)] else []
        else [], []⟩ := by
  unfold onLockRequest
  by_cases hlen : data.length = IpcLockRequest.size
  · rw [if_neg (not_not.mpr hlen), if_pos hlen]
    simp only [resolve]
    cases hn : numberIn e data with
    | none =>
        have hp : parseDigits (IpcLockRequest.ofImage e data).msg.termNo.bytes 0 = none := hn
        simp [hp]
    | some n =>
        have hp : parseDigits (IpcLockRequest.ofImage e data).msg.termNo.bytes 0 = some n := hn
        have hlt : n.toNat < 10000 := number_lt hn
        simp only [hp]
        cases hf : (table.find env.access n .zero).1 with
        | false => simp
        | true =>
            simp only [if_true, if_neg (termdIndex_ne_zero hlt), sendTo_relay e hlt hlen]
  · rw [if_pos hlen, if_neg hlen]

end Locator

end Fleetcore
