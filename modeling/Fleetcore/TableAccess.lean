import Fleetcore.Lib.CriticalSection
import Fleetcore.TerminalMap

/-!
The operations of the terminal table, access by access.

Each operation is the program of the row reads and field stores between its
`lock` and its `unlock`. Copying a row reads its fields one after the other.
Run undisturbed, the programs are the operations on the rows (`effect_eq`); by
the laws of critical sections any interleaving of them is as good as running
them one at a time.
-/

namespace Fleetcore.TableAccess

open CriticalSection StateMachine

/-! ### Rows and fields -/

inductive Field where
  | termNo
  | capabilities
  | state
  | reserved
  | lastSeen
  deriving DecidableEq, Repr

def Field.all : List Field := [.termNo, .capabilities, .state, .reserved, .lastSeen]

/-- `r` with one field as in `e`. -/
def store (e : TermEntry) (f : Field) (r : TermEntry) : TermEntry :=
  match f with
  | .termNo => { r with termNo := e.termNo }
  | .capabilities => { r with capabilities := e.capabilities }
  | .state => { r with state := e.state }
  | .reserved => { r with reserved := e.reserved }
  | .lastSeen => { r with lastSeen := e.lastSeen }

/-- One indivisible access to the segment. -/
inductive RowAccess where
  | read (i : ℕ)
  /-- `rows_[i].f = e.f`. -/
  | store (i : ℕ) (f : Field) (e : TermEntry)

def access : RowAccess → Segment → TermEntry × Segment
  | .read i, g => (g.rows.getD i .zero, g)
  | .store i f e, g => (e, g.modifyRow i (store e f))

/-! ### The programs -/

abbrev Body := Prog RowAccess TermEntry TableReply

/-- The loop that looks for number `n` and breaks at it: `k` rows are left, the
next one is `i`. -/
def scan (n : UInt32) (found : ℕ → Body) (missing : Body) : ℕ → ℕ → Body
  | 0, _ => missing
  | k + 1, i => .access (.read i) fun r =>
      if r.termNo = n then found i else scan n found missing k (i + 1)

def stores (i : ℕ) (e : TermEntry) (rest : Body) : List Field → Body
  | [] => rest
  | f :: fs => .access (.store i f e) fun _ => stores i e rest fs

def copyRow (i : ℕ) (next : TermEntry → Body) : Body :=
  .access (.read i) fun r₀ => .access (.read i) fun r₁ => .access (.read i) fun r₂ =>
    .access (.read i) fun r₃ => .access (.read i) fun r₄ =>
      next ⟨r₀.termNo, r₁.capabilities, r₂.state, r₃.reserved, r₄.lastSeen⟩

/-- The loop of `snapshot`, `n` rows written so far. -/
def snapshotScan : ℕ → ℕ → ℕ → List TermEntry → Body
  | 0, _, n, out => .done (.entries n (some out))
  | k + 1, i, n, out =>
      if n < out.length then
        .access (.read i) fun r =>
          if r.termNo ≠ 0 then copyRow i fun r => snapshotScan k (i + 1) (n + 1) (out.set n r)
          else snapshotScan k (i + 1) n out
      else .done (.entries n (some out))

inductive Op where
  /-- `order` is the order in which the fields of the row are assigned. -/
  | registerTerminal (termNo : UInt32) (order : { fs : List Field // fs.Perm Field.all })
  | setState (now : UInt64) (termNo : UInt32) (state : UInt8) (capabilities : UInt32)
  | touch (now : UInt64) (termNo : UInt32)
  | find (termNo : UInt32) (out : TermEntry)
  | snapshot (out : Option (List TermEntry))
  deriving DecidableEq

/-- A call on an object that is open or not. -/
structure Call where
  isOpen : Bool
  op : Op
  deriving DecidableEq

def newRow (termNo : UInt32) : TermEntry :=
  { TermEntry.zero with
    termNo := termNo, capabilities := 0, state := termStateDisconnected, lastSeen := 0 }

/-- What `find` and `snapshot` leave in `out`, and what the others return, when
they come back at once. -/
def Call.refusal (c : Call) : TableReply :=
  match c.op with
  | .registerTerminal _ _ => .done false
  | .setState _ _ _ _ => .done false
  | .touch _ _ => .done false
  | .find _ out => .entry false out
  | .snapshot out => .entries 0 out

/-- The tests before `lock`. -/
def Call.admits (c : Call) : Bool :=
  c.isOpen && match c.op with
    | .registerTerminal n _ => n != 0
    | .snapshot none => false
    | _ => true

/-- What happens between `lock` and `unlock`. -/
def Call.body (c : Call) : Body :=
  match c.op with
  | .registerTerminal n order =>
      scan n (fun _ => .done (.done true))
        (scan 0 (fun i => stores i (newRow n) (.done (.done true)) order)
          (.done (.done false)) maxTerminals 0) maxTerminals 0
  | .setState now n state capabilities =>
      scan n (fun i => stores i
          { TermEntry.zero with state := state, capabilities := capabilities, lastSeen := now }
          (.done (.done true)) [.state, .capabilities, .lastSeen])
        (.done (.done false)) maxTerminals 0
  | .touch now n =>
      scan n (fun i => stores i { TermEntry.zero with lastSeen := now }
          (.done (.done true)) [.lastSeen])
        (.done (.done false)) maxTerminals 0
  | .find n out =>
      scan n (fun i => copyRow i fun r => .done (.entry true r)) (.done (.entry false out))
        maxTerminals 0
  | .snapshot none => .done (.entries 0 none)
  | .snapshot (some out) => snapshotScan maxTerminals 0 0 out

def operations : Operations Call RowAccess TermEntry TableReply Segment where
  access := access
  admits := Call.admits
  refusal := Call.refusal
  body := Call.body

abbrev State (P : Type*) := CriticalSection.State P Call RowAccess TermEntry TableReply Segment

def machine (P : Type*) [DecidableEq P] := operations.machine P

def Call.run (c : Call) (locked : Bool) (g : Segment) : TableReply × Segment :=
  let a : Access := ⟨c.isOpen, locked⟩
  match c.op with
  | .registerTerminal n _ =>
      let r := g.registerTerminal a n
      (.done r.1, r.2)
  | .setState now n state capabilities =>
      let r := g.setState a now n state capabilities
      (.done r.1, r.2)
  | .touch now n =>
      let r := g.touch a now n
      (.done r.1, r.2)
  | .find n out =>
      let r := g.find a n out
      (.entry r.1 r.2, g)
  | .snapshot out =>
      let r := g.snapshot a out
      (.entries r.1 r.2, g)

/-! ### Undisturbed, a program is its operation -/

theorem getD_of_drop {rows l : List TermEntry} {i : ℕ} {r : TermEntry}
    (h : rows.drop i = r :: l) : rows.getD i .zero = r := by
  have hget : rows[i]? = some r := by
    rw [← List.head?_drop, h]
    rfl
  rw [List.getD_eq_getElem?_getD, hget]
  rfl

theorem drop_succ {rows l : List TermEntry} {i : ℕ} {r : TermEntry}
    (h : rows.drop i = r :: l) : rows.drop (i + 1) = l := by
  rw [← List.drop_drop, h]
  rfl

/-- A scan goes on at the first row of the number. -/
theorem run_scan (n : UInt32) (found : ℕ → Body) (missing : Body) {g : Segment} {k i : ℕ}
    {l : List TermEntry} (hl : g.rows.drop i = l) (hk : l.length = k) :
    (scan n found missing k i).run access g =
      match l.findIdx? fun r => decide (r.termNo = n) with
      | some j => (found (i + j)).run access g
      | none => missing.run access g := by
  induction l generalizing k i with
  | nil =>
      subst hk
      rfl
  | cons r l ih =>
      subst hk
      simp only [List.length_cons, scan, Prog.run, access, getD_of_drop hl, List.findIdx?_cons]
      by_cases hr : r.termNo = n
      · simp [hr]
      · simp only [hr, if_false, decide_false, Bool.false_eq_true]
        rw [ih (drop_succ hl) rfl]
        cases l.findIdx? fun r => decide (r.termNo = n) with
        | none => rfl
        | some j =>
            have hj : i + 1 + j = i + (j + 1) := by omega
            simp [hj]

theorem run_scan_all (n : UInt32) (found : ℕ → Body) (missing : Body) (g : Segment) :
    (scan n found missing maxTerminals 0).run access g =
      match g.rows.findIdx? fun r => decide (r.termNo = n) with
      | some j => (found j).run access g
      | none => missing.run access g := by
  rw [run_scan n found missing (List.drop_zero) g.length_rows]
  simp

theorem modifyRow_modifyRow (g : Segment) (i : ℕ) (f f' : TermEntry → TermEntry) :
    (g.modifyRow i f).modifyRow i f' = g.modifyRow i (f' ∘ f) :=
  Segment.ext (List.modify_modify_eq _ _ _ _)

theorem run_stores (i : ℕ) (e : TermEntry) (rest : Body) (fs : List Field) (g : Segment) :
    (stores i e rest fs).run access g =
      rest.run access (g.modifyRow i fun r => fs.foldl (fun r f => store e f r) r) := by
  induction fs generalizing g with
  | nil =>
      have hid : g.modifyRow i (fun r => r) = g := Segment.ext (List.modify_id _ _)
      simp [stores, hid]
  | cons f fs ih =>
      have hstore : (access (.store i f e) g).2 = g.modifyRow i (store e f) := rfl
      rw [stores, Prog.run, ih, hstore, modifyRow_modifyRow]
      rfl

theorem run_copyRow (i : ℕ) (next : TermEntry → Body) (g : Segment) :
    (copyRow i next).run access g = (next (g.rows.getD i .zero)).run access g := rfl

theorem foldl_store (e : TermEntry) (fs : List Field) (r : TermEntry) :
    fs.foldl (fun r f => store e f r) r =
      { termNo := if .termNo ∈ fs then e.termNo else r.termNo
        capabilities := if .capabilities ∈ fs then e.capabilities else r.capabilities
        state := if .state ∈ fs then e.state else r.state
        reserved := if .reserved ∈ fs then e.reserved else r.reserved
        lastSeen := if .lastSeen ∈ fs then e.lastSeen else r.lastSeen } := by
  induction fs generalizing r with
  | nil => rfl
  | cons f fs ih => rw [List.foldl_cons, ih]; cases f <;> simp [store]

theorem foldl_store_of_perm (e : TermEntry) {fs : List Field} (h : fs.Perm Field.all)
    (r : TermEntry) : fs.foldl (fun r f => store e f r) r = e := by
  have hmem : ∀ f, f ∈ fs := fun f => h.mem_iff.mpr (by cases f <;> simp [Field.all])
  rw [foldl_store]
  simp [hmem]

/-- Storing into the first row of a number is the update of that row. -/
theorem run_scan_stores {e : TermEntry} {fs : List Field} {f : TermEntry → TermEntry}
    (hf : ∀ r, fs.foldl (fun r f => store e f r) r = f r) (n : UInt32) (g : Segment) :
    (scan n (fun i => stores i e (.done (.done true)) fs) (.done (.done false))
        maxTerminals 0).run access g =
      (.done (g.updateFirst (fun r => decide (r.termNo = n)) f).1,
        (g.updateFirst (fun r => decide (r.termNo = n)) f).2) := by
  have hrow : (fun r => fs.foldl (fun r f => store e f r) r) = f := funext hf
  rw [run_scan_all, Segment.updateFirst_eq]
  cases g.rows.findIdx? fun r => decide (r.termNo = n) with
  | none => rfl
  | some i =>
      show (stores i e (.done (.done true)) fs).run access g = _
      rw [run_stores, hrow]
      rfl

theorem run_snapshotScan {g : Segment} {k i n : ℕ} {l out : List TermEntry}
    (hl : g.rows.drop i = l) (hk : l.length = k) :
    (snapshotScan k i n out).run access g =
      (.entries (Segment.snapshotLoop l n out).1 (some (Segment.snapshotLoop l n out).2), g) := by
  induction l generalizing k i n out with
  | nil =>
      subst hk
      rfl
  | cons r l ih =>
      subst hk
      simp only [List.length_cons, snapshotScan, Segment.snapshotLoop]
      by_cases hn : n < out.length
      · simp only [hn, if_true, Prog.run, access, getD_of_drop hl]
        by_cases hr : r.termNo = 0
        · simp only [hr, ne_eq, not_true_eq_false, if_false]
          exact ih (drop_succ hl) rfl
        · simp only [ne_eq, hr, not_false_eq_true, if_true]
          rw [run_copyRow, getD_of_drop hl]
          exact ih (drop_succ hl) rfl
      · simp [hn, Prog.run]

theorem run_unlocked (c : Call) (g : Segment) : c.run false g = (c.refusal, g) := by
  obtain ⟨isOpen, op⟩ := c
  cases op with
  | registerTerminal n order => simp [Call.run, Call.refusal, Segment.registerTerminal]
  | setState now n state capabilities => simp [Call.run, Call.refusal, Segment.setState]
  | touch now n => simp [Call.run, Call.refusal, Segment.touch]
  | find n out => simp [Call.run, Call.refusal, Segment.find]
  | snapshot out => cases out <;> simp [Call.run, Call.refusal, Segment.snapshot]

/-- With the lock, the accesses of a call come to the call on the rows. -/
theorem effect_eq {c : Call} (h : c.admits = true) (g : Segment) :
    operations.effect c g = c.run true g := by
  obtain ⟨isOpen, op⟩ := c
  simp only [Call.admits, Bool.and_eq_true] at h
  obtain ⟨rfl, hop⟩ := h
  have hbody : operations.effect ⟨true, op⟩ g = (Call.body ⟨true, op⟩).run access g := rfl
  rw [hbody]
  cases op with
  | registerTerminal n order =>
      have hzero : (n == 0) = false := by simpa using hop
      have hany : (g.rows.any fun r => decide (r.termNo = n)) =
          (g.rows.findIdx? fun r => decide (r.termNo = n)).isSome := by
        rw [List.findIdx?_isSome]
      simp only [Call.body, Call.run, Segment.registerTerminal, Bool.not_true, hzero,
        Bool.or_false, Bool.false_eq_true, if_false, hany]
      rw [run_scan_all]
      cases g.rows.findIdx? fun r => decide (r.termNo = n) with
      | some i => rfl
      -- the second scan is for a free row
      | none => exact run_scan_stores (foldl_store_of_perm (newRow n) order.2) 0 g
  | setState now n state capabilities =>
      refine run_scan_stores (fun r => ?_) n g
      rw [foldl_store]
      rfl
  | touch now n =>
      refine run_scan_stores (fun r => ?_) n g
      rw [foldl_store]
      rfl
  | find n out =>
      simp only [Call.body, Call.run, Segment.find, Bool.not_true, Bool.false_eq_true,
        if_false, run_scan_all, List.find?_eq_bind_findIdx?_getElem?]
      cases hi : g.rows.findIdx? fun r => decide (r.termNo = n) with
      | none => rfl
      | some i =>
          obtain ⟨hlt, -⟩ := List.findIdx?_eq_some_iff_getElem.mp hi
          simp [run_copyRow, Prog.run, List.getD_eq_getElem?_getD, hlt]
  | snapshot out =>
      cases out with
      | none => cases hop
      | some out =>
          simp only [Call.body, Call.run, Segment.snapshot, Bool.not_true, Bool.false_eq_true,
            if_false]
          exact run_snapshotScan List.drop_zero g.length_rows

end Fleetcore.TableAccess
