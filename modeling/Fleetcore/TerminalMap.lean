import Fleetcore.ShmTable

/-!
What the terminal table is for: a finite map from terminal number to link
state, of at most 64 entries, in the order of first registration.

`TerminalMap.toSegment` lays such a map out in rows, the entries first and the
free rows behind them. Starting from a zero-filled segment the rows are always
the layout of a map: each operation of the table on the layout of a map is the
layout of the operation on the map.
-/

namespace Fleetcore

/-- A terminal number that is not the mark of a free row. -/
@[ext] structure TerminalNumber where
  val : UInt32
  ne_zero : val ≠ 0
  deriving DecidableEq

theorem TerminalNumber.val_injective : Function.Injective TerminalNumber.val :=
  fun _ _ h => TerminalNumber.ext h

structure LinkState where
  state : UInt8
  capabilities : UInt32
  lastSeen : UInt64
  deriving DecidableEq, Repr

/-- A terminal that has never connected. -/
def LinkState.initial : LinkState := ⟨termStateDisconnected, 0, 0⟩

/-- The registered terminals in the order of first registration. -/
structure TerminalMap where
  map : OrderedMap TerminalNumber LinkState
  size_le : map.size ≤ maxTerminals

namespace TerminalMap

def empty : TerminalMap := ⟨.empty, Nat.zero_le _⟩

def row (e : TerminalNumber × LinkState) : TermEntry where
  termNo := e.1.val
  capabilities := e.2.capabilities
  state := e.2.state
  reserved := (0, 0, 0)
  lastSeen := e.2.lastSeen

def occupied (m : TerminalMap) : List TermEntry := m.map.entries.map row

def free (m : TerminalMap) : List TermEntry :=
  List.replicate (maxTerminals - m.map.size) .zero

/-- The layout of a map in the segment. -/
def toSegment (m : TerminalMap) : Segment where
  rows := m.occupied ++ m.free
  length_rows := by
    have hle := m.size_le
    simp only [occupied, free, List.length_append, List.length_map, List.length_replicate,
      OrderedMap.size] at *
    omega

theorem toSegment_empty : empty.toSegment = Segment.zero := rfl

def register (m : TerminalMap) (t : TerminalNumber) : Bool × TerminalMap :=
  if h : t ∈ m.map.keys then (true, m)
  else if hroom : m.map.size < maxTerminals then
    (true, ⟨m.map.push t .initial h, by rw [OrderedMap.size_push]; omega⟩)
  else (false, m)

def adjust (m : TerminalMap) (t : TerminalNumber) (f : LinkState → LinkState) :
    Bool × TerminalMap :=
  if t ∈ m.map.keys then (true, ⟨m.map.adjust t f, by simpa using m.size_le⟩) else (false, m)

def find (m : TerminalMap) (t : TerminalNumber) (out : TermEntry) : Bool × TermEntry :=
  match m.map.get? t with
  | some i => (true, row (t, i))
  | none => (false, out)

/-- The entries that fit go to the front of `out`. -/
def snapshot (m : TerminalMap) (out : List TermEntry) : ℕ × List TermEntry :=
  let n := min out.length m.map.size
  (n, m.occupied.take n ++ out.drop n)

/-! ### The layout -/

theorem rows_toSegment (m : TerminalMap) : m.toSegment.rows = m.occupied ++ m.free := rfl

@[simp] theorem length_occupied (m : TerminalMap) : m.occupied.length = m.map.size := by
  simp [occupied, OrderedMap.size]

theorem occupied_ne_zero (m : TerminalMap) : ∀ r ∈ m.occupied, r.termNo ≠ 0 := by
  intro r hr
  obtain ⟨e, -, rfl⟩ := List.mem_map.mp hr
  exact e.1.ne_zero

theorem free_eq_zero (m : TerminalMap) : ∀ r ∈ m.free, r.termNo = 0 := by
  intro r hr
  rw [List.eq_of_mem_replicate hr]
  rfl

theorem map_termNo_occupied (m : TerminalMap) :
    m.occupied.map TermEntry.termNo = m.map.keys.map TerminalNumber.val := by
  rw [occupied, OrderedMap.keys, List.map_map, List.map_map]
  rfl

theorem nodup_occupied (m : TerminalMap) : (m.occupied.map TermEntry.termNo).Nodup := by
  rw [map_termNo_occupied]
  exact m.map.nodup_keys.map TerminalNumber.val_injective

theorem mem_occupied_iff (m : TerminalMap) (t : TerminalNumber) :
    t.val ∈ m.occupied.map TermEntry.termNo ↔ t ∈ m.map.keys := by
  rw [map_termNo_occupied, List.mem_map_of_injective TerminalNumber.val_injective]

theorem termNo_ne_of_not_mem (m : TerminalMap) {t : TerminalNumber} (h : t ∉ m.map.keys) :
    ∀ r ∈ m.toSegment.rows, r.termNo ≠ t.val := by
  intro r hr hrt
  rw [rows_toSegment, List.mem_append] at hr
  rcases hr with hr | hr
  · exact h ((m.mem_occupied_iff t).mp (hrt ▸ List.mem_map_of_mem hr))
  · exact t.ne_zero (hrt ▸ m.free_eq_zero r hr)

/-! ### Each operation on a layout is the layout of the operation -/

theorem registerTerminal_toSegment (m : TerminalMap) (t : TerminalNumber) :
    Segment.registerTerminal .granted t.val m.toSegment =
      ((m.register t).1, (m.register t).2.toSegment) := by
  have hzero : (t.val == 0) = false := by simpa using t.ne_zero
  simp only [Segment.registerTerminal, Access.granted, hzero, Bool.not_true, Bool.or_false,
    if_false, Bool.false_eq_true]
  by_cases hmem : t ∈ m.map.keys
  · have hany : (m.toSegment.rows.any fun r => decide (r.termNo = t.val)) = true := by
      obtain ⟨r, hr, hrt⟩ := List.mem_map.mp ((m.mem_occupied_iff t).mpr hmem)
      rw [rows_toSegment, List.any_append, Bool.or_eq_true, List.any_eq_true]
      exact .inl ⟨r, hr, by simpa using hrt⟩
    rw [if_pos hany, register, dif_pos hmem]
  · have hany : (m.toSegment.rows.any fun r => decide (r.termNo = t.val)) = false := by
      rw [List.any_eq_false]
      exact fun r hr => by simpa using m.termNo_ne_of_not_mem hmem r hr
    rw [hany, if_neg Bool.false_ne_true, register, dif_neg hmem]
    have hpass : ∀ r ∈ m.occupied, decide (r.termNo = 0) = false := fun r hr => by
      simpa using m.occupied_ne_zero r hr
    by_cases hroom : m.map.size < maxTerminals
    · -- the first free row is the one right behind the entries
      obtain ⟨k, hk⟩ : ∃ k, maxTerminals - m.map.size = k + 1 :=
        ⟨maxTerminals - m.map.size - 1, by omega⟩
      have hk' : maxTerminals - (m.map.size + 1) = k := by omega
      have hscan : Scan.modifyFirst (fun r => decide (r.termNo = 0))
          (fun _ => row (t, LinkState.initial)) m.toSegment.rows =
          some (m.occupied ++ (row (t, .initial) :: List.replicate k .zero)) := by
        rw [rows_toSegment, Scan.modifyFirst_append_of_none hpass, free, hk,
          List.replicate_succ, Scan.modifyFirst_cons_of_pos (by rfl)]
        rfl
      rw [dif_pos hroom]
      refine (Segment.updateFirst_of_some hscan).trans (Prod.ext rfl (Segment.ext ?_))
      simp only [toSegment, occupied, free, OrderedMap.size_push, hk']
      simp [OrderedMap.push]
    · have hfree : m.free = [] := by
        rw [free, Nat.sub_eq_zero_of_le (Nat.not_lt.mp hroom), List.replicate_zero]
      rw [dif_neg hroom]
      refine Segment.updateFirst_of_none (Scan.modifyFirst_eq_none fun r hr => hpass r ?_)
      simpa [rows_toSegment, hfree] using hr

theorem updateFirst_toSegment (m : TerminalMap) (t : TerminalNumber)
    {g : TermEntry → TermEntry} {f : LinkState → LinkState}
    (hrow : ∀ i, g (row (t, i)) = row (t, f i)) :
    m.toSegment.updateFirst (fun r => decide (r.termNo = t.val)) g =
      ((m.adjust t f).1, (m.adjust t f).2.toSegment) := by
  by_cases hmem : t ∈ m.map.keys
  · have hscan := Scan.modifyFirst_append_of_some (d := m.free)
      (Scan.modifyFirst_keyed TermEntry.termNo g m.nodup_occupied
        ((m.mem_occupied_iff t).mpr hmem))
    rw [adjust, if_pos hmem]
    rw [Segment.updateFirst_of_some hscan]
    refine Prod.ext rfl (Segment.ext ?_)
    -- row by row the scan does what `adjust` does to the entries
    have hentry : ∀ e : TerminalNumber × LinkState,
        (if (row e).termNo = t.val then g (row e) else row e) =
          row (OrderedMap.adjustEntry t f e) := fun e => by
      by_cases he : e.1 = t
      · obtain ⟨k, i⟩ := e
        obtain rfl : k = t := he
        have hterm : (row (k, i)).termNo = k.val := rfl
        simp [OrderedMap.adjustEntry, hrow, hterm]
      · have hne : (row e).termNo ≠ t.val := fun h => he (TerminalNumber.ext h)
        simp [OrderedMap.adjustEntry, he, hne]
    simp only [toSegment, occupied, free, OrderedMap.size_adjust]
    congr 1
    simp only [OrderedMap.adjust, List.map_map]
    exact List.map_congr_left fun e _ => hentry e
  · rw [adjust, if_neg hmem]
    refine Segment.updateFirst_of_none (Scan.modifyFirst_eq_none fun r hr => ?_)
    simpa using m.termNo_ne_of_not_mem hmem r hr

theorem find_toSegment (m : TerminalMap) (t : TerminalNumber) (out : TermEntry) :
    Segment.find .granted t.val out m.toSegment = m.find t out := by
  have hfree : (m.free.find? fun r => decide (r.termNo = t.val)) = none := by
    rw [List.find?_eq_none]
    intro r hr hrt
    exact t.ne_zero ((of_decide_eq_true hrt).symm.trans (m.free_eq_zero r hr))
  have hocc : (m.occupied.find? fun r => decide (r.termNo = t.val)) =
      (m.map.entries.find? fun e => decide (e.1 = t)).map row := by
    rw [occupied, List.find?_map]
    congr 2
    funext e
    exact decide_eq_decide.mpr (TerminalNumber.ext_iff).symm
  simp only [Segment.find, Access.granted, Bool.not_true, Bool.false_eq_true, if_false,
    rows_toSegment, List.find?_append, hfree, Option.or_none, hocc, find, OrderedMap.get?]
  cases he : m.map.entries.find? fun e => decide (e.1 = t) with
  | none => rfl
  | some e =>
      obtain ⟨k, i⟩ := e
      obtain rfl : k = t := by simpa using List.find?_some he
      rfl

theorem snapshotLoop_append {occ free : List TermEntry} (hocc : ∀ r ∈ occ, r.termNo ≠ 0)
    (hfree : ∀ r ∈ free, r.termNo = 0) {n : ℕ} {out : List TermEntry} (hn : n ≤ out.length) :
    Segment.snapshotLoop (occ ++ free) n out =
      (n + min occ.length (out.length - n),
        out.take n ++ (occ.take (out.length - n) ++
          out.drop (n + min occ.length (out.length - n)))) := by
  induction occ generalizing n out with
  | nil =>
      -- only free rows are left, and they are passed over
      simp only [List.nil_append, List.length_nil, Nat.zero_min, Nat.add_zero, List.take_nil,
        List.take_append_drop]
      clear hocc
      induction free with
      | nil => rfl
      | cons r free ih =>
          have hr : r.termNo = 0 := hfree r List.mem_cons_self
          simp only [Segment.snapshotLoop, hr, ne_eq, not_true_eq_false, if_false, ite_self,
            ih fun r' h' => hfree r' (List.mem_cons_of_mem _ h')]
  | cons r occ ih =>
      have hr : r.termNo ≠ 0 := hocc r List.mem_cons_self
      simp only [List.cons_append, Segment.snapshotLoop]
      by_cases hlt : n < out.length
      · obtain ⟨k, hk⟩ : ∃ k, out.length - n = k + 1 := ⟨out.length - n - 1, by omega⟩
        have hk' : out.length - (n + 1) = k := by omega
        rw [if_pos hlt, if_pos hr, ih (fun r' h' => hocc r' (List.mem_cons_of_mem _ h'))
          (by rw [List.length_set]; omega)]
        simp only [List.length_set, hk, hk', List.length_cons, List.take_succ_cons]
        have hmin : n + 1 + min occ.length k = n + min (occ.length + 1) (k + 1) := by omega
        have htake : (out.set n r).take (n + 1) = out.take n ++ [r] := by
          rw [List.take_add_one, List.take_set_of_le (Nat.le_refl n)]
          simp [hlt]
        have hdrop : (out.set n r).drop (n + 1 + min occ.length k) =
            out.drop (n + 1 + min occ.length k) := List.drop_set_of_lt (by omega)
        rw [htake, hdrop, hmin]
        simp
      · obtain rfl : n = out.length := by omega
        simp

theorem snapshot_toSegment (m : TerminalMap) (out : List TermEntry) :
    Segment.snapshot .granted (some out) m.toSegment =
      ((m.snapshot out).1, some (m.snapshot out).2) := by
  have htake : m.occupied.take out.length = m.occupied.take (min out.length m.map.size) := by
    rw [← m.length_occupied]
    rw [List.take_eq_take_min]
  simp only [Segment.snapshot, Access.granted, Bool.not_true, Bool.false_eq_true, if_false,
    rows_toSegment, snapshotLoop_append m.occupied_ne_zero m.free_eq_zero (Nat.zero_le _),
    snapshot, Nat.zero_add, Nat.sub_zero, length_occupied, List.take_zero, List.nil_append,
    Nat.min_comm out.length, htake]

end TerminalMap

/-! ### Sequences of operations -/

inductive TableOp where
  | registerTerminal (t : TerminalNumber)
  | setState (now : UInt64) (t : TerminalNumber) (state : UInt8) (capabilities : UInt32)
  | touch (now : UInt64) (t : TerminalNumber)
  | find (t : TerminalNumber) (out : TermEntry)
  | snapshot (out : List TermEntry)

inductive TableReply where
  | done (ok : Bool)
  | entry (ok : Bool) (out : TermEntry)
  | entries (n : ℕ) (out : Option (List TermEntry))
  deriving DecidableEq

/-- The call on the rows, its lock obtained. -/
def TableOp.run (g : Segment) : TableOp → TableReply × Segment
  | .registerTerminal t =>
      let r := g.registerTerminal .granted t.val
      (.done r.1, r.2)
  | .setState now t state capabilities =>
      let r := g.setState .granted now t.val state capabilities
      (.done r.1, r.2)
  | .touch now t =>
      let r := g.touch .granted now t.val
      (.done r.1, r.2)
  | .find t out =>
      let r := g.find .granted t.val out
      (.entry r.1 r.2, g)
  | .snapshot out =>
      let r := g.snapshot .granted (some out)
      (.entries r.1 r.2, g)

def runOps : Segment → List TableOp → List TableReply × Segment
  | g, [] => ([], g)
  | g, op :: ops =>
      let r := op.run g
      let q := runOps r.2 ops
      (r.1 :: q.1, q.2)

/-- What a call does to the map: the entry of `t` may change, and only that. -/
structure TerminalMap.ChangesOnly (m m' : TerminalMap) (t : TerminalNumber)
    (f : LinkState → LinkState) : Prop where
  keys : m'.map.keys = m.map.keys
  self : m'.map.get? t = (m.map.get? t).map f
  other : ∀ t' ≠ t, m'.map.get? t' = m.map.get? t'

/-- What a call does to the map when it inserts `t`. -/
structure TerminalMap.Inserts (m m' : TerminalMap) (t : TerminalNumber) : Prop where
  keys : m'.map.keys = m.map.keys ++ [t]
  self : m'.map.get? t = some ⟨termStateDisconnected, 0, 0⟩
  other : ∀ t' ≠ t, m'.map.get? t' = m.map.get? t'

/-- What a call may reply and do to the map. -/
def TableOp.Meets (m m' : TerminalMap) : TableOp → TableReply → Prop
  | .registerTerminal t, reply =>
      ∃ ok, reply = .done ok ∧ (ok = true ↔ t ∈ m.map.keys ∨ m.map.size < maxTerminals) ∧
        if ok = true ∧ t ∉ m.map.keys then m.Inserts m' t else m' = m
  | .setState now t state capabilities, reply =>
      ∃ ok, reply = .done ok ∧ (ok = true ↔ t ∈ m.map.keys) ∧
        if ok = true then m.ChangesOnly m' t fun _ => ⟨state, capabilities, now⟩ else m' = m
  | .touch now t, reply =>
      ∃ ok, reply = .done ok ∧ (ok = true ↔ t ∈ m.map.keys) ∧
        if ok = true then m.ChangesOnly m' t fun i => { i with lastSeen := now } else m' = m
  | .find t out, reply =>
      ∃ ok out', reply = .entry ok out' ∧ (ok = true ↔ t ∈ m.map.keys) ∧
        (∀ i, m.map.get? t = some i → out' = TerminalMap.row (t, i)) ∧
        (ok = false → out' = out) ∧ m' = m
  | .snapshot out, reply =>
      ∃ n written, reply = .entries n (some (written ++ out.drop n)) ∧
        n = min out.length m.map.size ∧
        written = (m.map.entries.take n).map TerminalMap.row ∧
        (written.map TermEntry.termNo).Nodup ∧ m' = m

/-- The map behaves like this over a sequence of calls. -/
inductive TerminalMap.Behaves : TerminalMap → List TableOp → List TableReply → TerminalMap → Prop
  | nil (m : TerminalMap) : Behaves m [] [] m
  | cons {m m' m'' : TerminalMap} {op : TableOp} {reply : TableReply} {ops : List TableOp}
      {replies : List TableReply} :
      op.Meets m m' reply → Behaves m' ops replies m'' →
      Behaves m (op :: ops) (reply :: replies) m''

namespace TerminalMap

theorem inserts_register (m : TerminalMap) {t : TerminalNumber} (h : t ∉ m.map.keys)
    (hroom : m.map.size < maxTerminals) : m.Inserts (m.register t).2 t := by
  rw [register, dif_neg h, dif_pos hroom]
  exact ⟨OrderedMap.keys_push _ _ _ h, OrderedMap.get?_push_self _ _ _ h,
    fun t' hne => OrderedMap.get?_push_of_ne _ _ h hne⟩

theorem changesOnly_adjust (m : TerminalMap) {t : TerminalNumber} (f : LinkState → LinkState)
    (h : t ∈ m.map.keys) : m.ChangesOnly (m.adjust t f).2 t f := by
  rw [adjust, if_pos h]
  exact ⟨OrderedMap.keys_adjust _ _ _, OrderedMap.get?_adjust_self _ _ _,
    fun t' hne => OrderedMap.get?_adjust_of_ne _ _ hne⟩

theorem nodup_take_entries (m : TerminalMap) (n : ℕ) :
    (((m.map.entries.take n).map row).map TermEntry.termNo).Nodup := by
  have htake : ((m.map.entries.take n).map row).map TermEntry.termNo =
      (m.occupied.map TermEntry.termNo).take n := by
    rw [occupied, List.map_take, List.map_take]
  rw [htake]
  exact m.nodup_occupied.sublist (List.take_sublist n _)

/-- Registering answers whether the number is there afterwards, and inserts it
when it was not there before. -/
theorem register_spec (m : TerminalMap) (t : TerminalNumber) :
    ((m.register t).1 = true ↔ t ∈ m.map.keys ∨ m.map.size < maxTerminals) ∧
      if (m.register t).1 = true ∧ t ∉ m.map.keys then m.Inserts (m.register t).2 t
      else (m.register t).2 = m := by
  by_cases hmem : t ∈ m.map.keys
  · simp [register, hmem]
  · by_cases hroom : m.map.size < maxTerminals
    · have hok : (m.register t).1 = true := by rw [register, dif_neg hmem, dif_pos hroom]
      simp only [hok, hmem, hroom, or_true, not_false_eq_true, and_self, if_true, true_and]
      exact m.inserts_register hmem hroom
    · simp [register, hmem, hroom]

/-- Adjusting answers whether the number is there, and changes its entry alone. -/
theorem adjust_spec (m : TerminalMap) (t : TerminalNumber) (f : LinkState → LinkState) :
    ((m.adjust t f).1 = true ↔ t ∈ m.map.keys) ∧
      if (m.adjust t f).1 = true then m.ChangesOnly (m.adjust t f).2 t f
      else (m.adjust t f).2 = m := by
  by_cases hmem : t ∈ m.map.keys
  · have hchange := m.changesOnly_adjust f hmem
    simpa [adjust, hmem] using hchange
  · simp [adjust, hmem]

/-- The step of the refinement: a call on the layout of a map replies what the
map says and leaves the layout of the map it leads to. -/
theorem meets_run (m : TerminalMap) (op : TableOp) :
    ∃ m', (op.run m.toSegment).2 = m'.toSegment ∧ op.Meets m m' (op.run m.toSegment).1 := by
  cases op with
  | registerTerminal t =>
      simp only [TableOp.run, registerTerminal_toSegment]
      exact ⟨(m.register t).2, rfl, (m.register t).1, rfl, m.register_spec t⟩
  | setState now t state capabilities =>
      have hrun := m.updateFirst_toSegment t (f := fun _ => ⟨state, capabilities, now⟩)
        (g := fun r => { r with state := state, capabilities := capabilities, lastSeen := now })
        fun _ => rfl
      simp only [TableOp.run, Segment.setState, Access.granted, Bool.not_true,
        Bool.false_eq_true, if_false, hrun]
      exact ⟨_, rfl, _, rfl, m.adjust_spec t _⟩
  | touch now t =>
      have hrun := m.updateFirst_toSegment t (f := fun i => { i with lastSeen := now })
        (g := fun r => { r with lastSeen := now }) fun _ => rfl
      simp only [TableOp.run, Segment.touch, Access.granted, Bool.not_true,
        Bool.false_eq_true, if_false, hrun]
      exact ⟨_, rfl, _, rfl, m.adjust_spec t _⟩
  | find t out =>
      simp only [TableOp.run, find_toSegment]
      refine ⟨m, rfl, _, _, rfl, ?_⟩
      cases hget : m.map.get? t with
      | none =>
          have hmem : t ∉ m.map.keys := by simp [← OrderedMap.get?_isSome, hget]
          simp [find, hget, hmem]
      | some i =>
          have hmem : t ∈ m.map.keys := by simp [← OrderedMap.get?_isSome, hget]
          simp [find, hget, hmem]
  | snapshot out =>
      simp only [TableOp.run, snapshot_toSegment]
      refine ⟨m, rfl, _, _, rfl, rfl, ?_, ?_, rfl⟩
      · rw [occupied, List.map_take, snapshot]
      · rw [occupied, ← List.map_take]
        exact m.nodup_take_entries _

theorem behaves_runOps (m : TerminalMap) (ops : List TableOp) :
    ∃ m', (runOps m.toSegment ops).2 = m'.toSegment ∧
      m.Behaves ops (runOps m.toSegment ops).1 m' := by
  induction ops generalizing m with
  | nil => exact ⟨m, rfl, .nil m⟩
  | cons op ops ih =>
      obtain ⟨m₁, hseg, hmeets⟩ := m.meets_run op
      obtain ⟨m₂, hend, hrest⟩ := ih m₁
      simp only [runOps, hseg]
      exact ⟨m₂, hend, .cons hmeets hrest⟩

end TerminalMap

/-- Starting from the zero-filled segment, whatever is called with non-zero
numbers, the rows are the layout of a map that started empty and behaved like
one, call by call. -/
theorem table_refines_map (ops : List TableOp) :
    ∃ m : TerminalMap, (runOps .zero ops).2 = m.toSegment ∧
      TerminalMap.empty.Behaves ops (runOps .zero ops).1 m := by
  rw [← TerminalMap.toSegment_empty]
  exact TerminalMap.empty.behaves_runOps ops

end Fleetcore
