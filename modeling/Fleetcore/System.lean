import Fleetcore.Gateway
import Fleetcore.Locator
import Fleetcore.Termd

/-!
The three kinds of processes together: gateway, locator and any number of
termds as a mailbox program over their queues, sharing the terminal table.

A process that has not come back from `TcpServer::send` takes no further step.
-/

namespace Fleetcore

open ByteOrder StateMachine

/-- A slot `main` of termd accepts. -/
structure Slot where
  val : Int32
  pos : 0 < val.toInt
  deriving DecidableEq

inductive ProcId where
  | gateway
  | locator
  | termd (slot : Slot)
  deriving DecidableEq

inductive Loc where
  | gateway (w : Gateway)
  | locator
  | termd (t : Termd)

namespace System

def index : ProcId → ℤ
  | .gateway => idxGateway
  | .locator => idxLocator
  | .termd slot => idxTermdBase + slot.val.toInt

def key (p : ProcId) : ℤ := queueKey (index p)

def lift {L : Type} (f : L → Loc) (r : Reaction L) : Reaction Loc :=
  ⟨f r.loc, r.shared, r.sends, r.obs⟩

/-- `main` and `init`; `none` where the process does not come up. -/
def start (p : ProcId) (env : Env) (table : Segment) : Option (Reaction Loc) :=
  match p with
  | .gateway => some ⟨.gateway .init, table, [], []⟩
  | .locator => some ⟨.locator, table, [], []⟩
  | .termd slot => (Termd.onInit env slot.val table).map (lift .termd)

def recv (e : Endian) (p : ProcId) (env : Env) (loc : Loc) (table : Segment)
    (data : List UInt8) : Option (Reaction Loc) :=
  match p, loc with
  | .gateway, .gateway w =>
      if w.tcp.spinning then none
      else some (lift .gateway (dispatch (w.handlers e env table) ⟨w, table, [], []⟩ data))
  | .locator, .locator =>
      some (lift (fun _ => .locator)
        (dispatch (Locator.handlers e env table) ⟨(), table, [], []⟩ data))
  | .termd _, .termd t =>
      if t.tcp.spinning then none
      else some (lift .termd (dispatch (t.handlers e env table) ⟨t, table, [], []⟩ data))
  | _, _ => none

def idle (e : Endian) (p : ProcId) (env : Env) (loc : Loc) (table : Segment) :
    Option (Reaction Loc) :=
  match p, loc with
  | .gateway, .gateway w =>
      if w.tcp.spinning then none else some (lift .gateway (w.onIdle e env table))
  | .locator, .locator => some ⟨.locator, table, [], []⟩
  | .termd _, .termd t =>
      if t.tcp.spinning then none else some (lift .termd (t.onIdle e env table))
  | _, _ => none

def program (e : Endian) :
    Mailbox.Program ProcId ℤ (List UInt8) Loc Segment Env Note where
  key := key
  start := start
  recv := recv e
  idle := idle e

abbrev State := Mailbox.State ProcId ℤ (List UInt8) Loc Segment
abbrev Action := Mailbox.Action ProcId Env
abbrev Event := Mailbox.Event ProcId ℤ (List UInt8) Note

/-- The system with queues that hold `cap` messages; `none` for no bound. -/
def machine (e : Endian) (cap : Option ℕ) : Machine State Action Event :=
  (program e).machine cap

/-- No process is up, and the segment has just been created. -/
def init : State := .init .zero

@[simp] theorem program_key (e : Endian) (p : ProcId) : (program e).key p = key p := rfl

/-! ### Reactions to a message -/

def Handles (code : UInt8) (data : List UInt8) : Prop :=
  IpcHeader.size ≤ data.length ∧ data.getD 0 0 = code

instance (code : UInt8) (data : List UInt8) : Decidable (Handles code data) :=
  inferInstanceAs (Decidable (_ ∧ _))

section Recv

variable (e : Endian) (env : Env) (table : Segment) (data : List UInt8)

theorem recv_gateway (w : Gateway) :
    recv e .gateway env (.gateway w) table data =
      if w.tcp.spinning then none
      else some (lift .gateway
        (if Handles ipcLockResponse data then w.onLockResponse e env table data
        else ⟨w, table, [], []⟩)) :=
  congrArg (fun r => if w.tcp.spinning then none else some (lift .gateway r))
    (dispatch_single ipcLockResponse _ _ data)

theorem recv_locator :
    recv e .locator env .locator table data =
      some (lift (fun _ => .locator)
        (if Handles ipcLockRequest data then Locator.onLockRequest e env table data
        else ⟨(), table, [], []⟩)) :=
  congrArg (fun r => some (lift (fun _ => Loc.locator) r))
    (dispatch_single ipcLockRequest _ _ data)

theorem recv_termd (slot : Slot) (t : Termd) :
    recv e (.termd slot) env (.termd t) table data =
      if t.tcp.spinning then none
      else some (lift .termd
        (if Handles ipcLockRequest data then t.onLockRequest e env table data
        else ⟨t, table, [], []⟩)) :=
  congrArg (fun r => if t.tcp.spinning then none else some (lift .termd r))
    (dispatch_single ipcLockRequest _ _ data)

end Recv

/-! ### Keys -/

theorem key_injective : Function.Injective key := by
  intro p q h
  have hindex : index p = index q := queueKey_inj.mp h
  cases p with
  | gateway =>
      cases q with
      | gateway => rfl
      | locator => simp [index, idxGateway, idxLocator] at hindex
      | termd slot =>
          have := slot.pos
          simp only [index, idxGateway, idxTermdBase] at hindex
          omega
  | locator =>
      cases q with
      | gateway => simp [index, idxGateway, idxLocator] at hindex
      | locator => rfl
      | termd slot =>
          have := slot.pos
          simp only [index, idxLocator, idxTermdBase] at hindex
          omega
  | termd slot =>
      have := slot.pos
      cases q with
      | gateway =>
          simp only [index, idxGateway, idxTermdBase] at hindex
          omega
      | locator =>
          simp only [index, idxLocator, idxTermdBase] at hindex
          omega
      | termd slot' =>
          have hval : slot.val = slot'.val := Int32.toInt_inj.mp (by
            simp only [index] at hindex
            omega)
          cases slot; cases slot'; cases hval; rfl

@[simp] theorem key_inj {p q : ProcId} : key p = key q ↔ p = q := key_injective.eq_iff

def slotAt (k : ℤ) : Option Slot :=
  let v := Int32.ofInt (k - Msgq.msgqKeyBase - idxTermdBase)
  if h : 0 < v.toInt then if key (.termd ⟨v, h⟩) = k then some ⟨v, h⟩ else none else none

theorem slotAt_eq_some {k : ℤ} {slot : Slot} : slotAt k = some slot ↔ key (.termd slot) = k := by
  constructor
  · intro h
    simp only [slotAt] at h
    split at h
    · split at h
      · next hkey => exact Option.some.inj h ▸ hkey
      · cases h
    · cases h
  · rintro rfl
    have hval : Int32.ofInt (key (.termd slot) - Msgq.msgqKeyBase - idxTermdBase) = slot.val := by
      have hoff : key (.termd slot) - Msgq.msgqKeyBase - idxTermdBase = slot.val.toInt := by
        simp only [key, queueKey, index]
        omega
      rw [hoff, Int32.ofInt_toInt]
    simp only [slotAt, hval, slot.pos, dif_pos, if_true]

/-- The queue locator passes a command of number `n` on to is the one of the
termd whose terminal has that number, and of nobody else unless `n` is 0. -/
theorem termdKey_eq_key {n : UInt32} {slot : Slot} :
    Locator.termdKey n = key (.termd slot) ↔ (n.toNat : ℤ) = 1000 + slot.val.toInt := by
  rw [Locator.termdKey, key, queueKey_inj, index, idxTermdBase]
  omega

theorem termdKey_eq_locator {n : UInt32} : Locator.termdKey n = key .locator ↔ n = 0 := by
  rw [Locator.termdKey, key, queueKey_inj, index, idxLocator, ← UInt32.toNat_inj]
  simp

theorem termdKey_ne_gateway (n : UInt32) : Locator.termdKey n ≠ key .gateway := by
  rw [Locator.termdKey, key, Ne, queueKey_inj, index, idxGateway]
  omega

end System

end Fleetcore
