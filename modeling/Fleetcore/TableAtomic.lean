import Fleetcore.TableCrash
import Mathlib.Data.List.Induction

/-!
The table operations are atomic to each other.

While nobody is killed, the rows and the replies of any interleaving are those
of the calls made one after the other, in the order in which they obtained the
lock. So a row that is handed out was written by one `set_state` call, and what
two registrations got stays apart.
-/

namespace Fleetcore

/-! ### Rows handed out -/

theorem Segment.mem_rows_updateFirst {g : Segment} {p : TermEntry → Bool}
    {f : TermEntry → TermEntry} {r : TermEntry} (h : r ∈ (g.updateFirst p f).2.rows) :
    r ∈ g.rows ∨ ∃ r' ∈ g.rows, p r' = true ∧ r = f r' := by
  rw [updateFirst_eq] at h
  cases hi : g.rows.findIdx? p with
  | none =>
      rw [hi] at h
      exact .inl h
  | some i =>
      rw [hi] at h
      obtain ⟨hlt, hp, -⟩ := List.findIdx?_eq_some_iff_getElem.mp hi
      obtain ⟨j, hj⟩ := List.mem_iff_getElem?.mp h
      simp only [modifyRow, List.getElem?_modify] at hj
      obtain ⟨r', hr', rfl⟩ := Option.map_eq_some_iff.mp hj
      split
      · next heq =>
          subst heq
          obtain rfl : g.rows[i] = r' := by simpa [List.getElem?_eq_getElem hlt] using hr'
          exact .inr ⟨_, List.getElem_mem hlt, hp, rfl⟩
      · exact .inl (List.mem_of_getElem? hr')

theorem Segment.mem_of_snapshotLoop {rows all : List TermEntry} (hrows : ∀ r ∈ rows, r ∈ all)
    {n : ℕ} {out : List TermEntry} (hout : ∀ i < n, ∀ r, out[i]? = some r → r ∈ all) :
    ∀ i < (snapshotLoop rows n out).1, ∀ r, (snapshotLoop rows n out).2[i]? = some r →
      r ∈ all := by
  induction rows generalizing n out with
  | nil => exact hout
  | cons r rows ih =>
      have htail : ∀ r ∈ rows, r ∈ all := fun r' hr' => hrows r' (List.mem_cons_of_mem _ hr')
      rw [snapshotLoop]
      split_ifs with hn hfree
      · refine ih htail fun i hi r' hr' => ?_
        by_cases heq : i = n
        · subst heq
          obtain rfl : r = r' := by simpa [hn] using hr'
          exact hrows r List.mem_cons_self
        · rw [List.getElem?_set_ne (Ne.symm heq)] at hr'
          exact hout i (by omega) r' hr'
      · exact ih htail hout
      · exact hout

namespace TableAccess

open CriticalSection StateMachine

variable {P : Type*}

def Shows (r : TermEntry) : TableReply → Prop
  | .done _ => False
  | .entry ok row => ok = true ∧ row = r
  | .entries n out => ∃ rows, out = some rows ∧ ∃ i < n, rows[i]? = some r

theorem mem_rows_of_shows {c : Call} {g : Segment} {r : TermEntry}
    (h : Shows r (c.run true g).1) : r ∈ g.rows := by
  obtain ⟨isOpen, op⟩ := c
  cases op with
  | registerTerminal n order => exact h.elim
  | setState now n state capabilities => exact h.elim
  | touch now n => exact h.elim
  | find n out =>
      obtain ⟨hok, rfl⟩ := h
      simp only [Segment.find] at hok ⊢
      split_ifs at hok ⊢
      cases hf : g.rows.find? fun r => decide (r.termNo = n) with
      | none => simp [hf] at hok
      | some r' => exact List.mem_of_find?_eq_some hf
  | snapshot out =>
      obtain ⟨rows, hrows, i, hi, hr⟩ := h
      simp only [Segment.snapshot] at hi hrows
      cases out with
      | none => cases hrows
      | some out =>
          simp only at hi hrows
          split_ifs at hi hrows with hopen hlock
          · cases hi
          · cases hi
          · cases hrows
            exact Segment.mem_of_snapshotLoop (fun _ hr => hr) (by simp) i hi r hr

/-! ### Rows of one call -/

def Touched (calls : List (P × Call)) (r₀ r : TermEntry) : Prop :=
  r = r₀ ∨ ∃ p isOpen now, (p, ⟨isOpen, .touch now r₀.termNo⟩) ∈ calls ∧
    r = { r₀ with lastSeen := now }

/-- But for a `touch`, all fields of `r` come from one place: a row of `g`, a
registration, or one `set_state` call. -/
def Unmixed (g : Segment) (calls : List (P × Call)) (r : TermEntry) : Prop :=
  ∃ r₀, Touched calls r₀ r ∧ (r₀ ∈ g.rows ∨ r₀ = newRow r₀.termNo ∨ ∃ p isOpen,
    (p, ⟨isOpen, .setState r₀.lastSeen r₀.termNo r₀.state r₀.capabilities⟩) ∈ calls)

theorem Unmixed.mono {g : Segment} {calls calls' : List (P × Call)} {r : TermEntry}
    (hle : ∀ x ∈ calls, x ∈ calls') (h : Unmixed g calls r) : Unmixed g calls' r := by
  obtain ⟨r₀, htouched, hfrom⟩ := h
  refine ⟨r₀, ?_, ?_⟩
  · obtain rfl | ⟨p, isOpen, now, hmem, rfl⟩ := htouched
    · exact .inl rfl
    · exact .inr ⟨p, isOpen, now, hle _ hmem, rfl⟩
  · obtain hrow | hnew | ⟨p, isOpen, hmem⟩ := hfrom
    · exact .inl hrow
    · exact .inr (.inl hnew)
    · exact .inr (.inr ⟨p, isOpen, hle _ hmem⟩)

theorem Unmixed.touch {g : Segment} {calls : List (P × Call)} {r : TermEntry}
    (h : Unmixed g calls r) {p : P} {isOpen : Bool} {now : UInt64}
    (hmem : (p, ⟨isOpen, .touch now r.termNo⟩) ∈ calls) :
    Unmixed g calls { r with lastSeen := now } := by
  obtain ⟨r₀, htouched, hfrom⟩ := h
  refine ⟨r₀, .inr ⟨p, isOpen, now, ?_, ?_⟩, hfrom⟩
  · obtain rfl | ⟨_, _, _, -, rfl⟩ := htouched
    · exact hmem
    · exact hmem
  · obtain rfl | ⟨_, _, _, -, rfl⟩ := htouched
    · rfl
    · rfl

/-- One call on rows that are all unmixed. -/
theorem unmixed_run {g g' : Segment} {calls : List (P × Call)} {p : P} {c : Call}
    (h : ∀ r ∈ g'.rows, Unmixed g calls r) :
    ∀ r ∈ (c.run true g').2.rows, Unmixed g (calls ++ [(p, c)]) r := by
  have hold : ∀ r ∈ g'.rows, Unmixed g (calls ++ [(p, c)]) r := fun r hr =>
    (h r hr).mono fun x hx => List.mem_append_left _ hx
  have hlast : (p, c) ∈ calls ++ [(p, c)] := by simp
  obtain ⟨isOpen, op⟩ := c
  intro r hr
  cases op with
  | registerTerminal n order =>
      simp only [Call.run, Segment.registerTerminal] at hr
      split_ifs at hr
      · exact hold r hr
      · exact hold r hr
      · exact hold r hr
      · obtain hr | ⟨r', -, -, rfl⟩ := Segment.mem_rows_updateFirst hr
        · exact hold r hr
        · exact ⟨newRow n, .inl rfl, .inr (.inl rfl)⟩
  | setState now n state capabilities =>
      simp only [Call.run, Segment.setState] at hr
      split_ifs at hr
      · exact hold r hr
      · exact hold r hr
      · obtain hr | ⟨r', -, hn, rfl⟩ := Segment.mem_rows_updateFirst hr
        · exact hold r hr
        · obtain rfl : r'.termNo = n := of_decide_eq_true hn
          exact ⟨_, .inl rfl, .inr (.inr ⟨p, isOpen, hlast⟩)⟩
  | touch now n =>
      simp only [Call.run, Segment.touch] at hr
      split_ifs at hr
      · exact hold r hr
      · exact hold r hr
      · obtain hr | ⟨r', hr', hn, rfl⟩ := Segment.mem_rows_updateFirst hr
        · exact hold r hr
        · -- the other fields come from where they came from before
          obtain rfl : r'.termNo = n := of_decide_eq_true hn
          exact (hold r' hr').touch hlast
  | find n out => exact hold r hr
  | snapshot out => exact hold r hr

def sequential (g : Segment) (calls : List (P × Call)) : List (P × Call × TableReply) × Segment :=
  runAll (fun c => c.run true) g calls

theorem unmixed_sequential (g : Segment) (calls : List (P × Call)) :
    ∀ r ∈ (sequential g calls).2.rows, Unmixed g calls r := by
  induction calls using List.reverseRecOn with
  | nil => exact fun r hr => ⟨r, .inl rfl, .inl hr⟩
  | append_singleton calls x ih =>
      rw [sequential, runAll_append]
      exact unmixed_run ih

/-! ### One call at a time -/

variable [DecidableEq P]

/-- The run comes to the calls made one after the other, in the order of `entries`. -/
structure OneAtATime (g : Segment) (tr : List (Event P Call TableReply)) (s : State P) : Prop where
  rows : (∀ p c rest, s.phase p ≠ .inside c rest) → s.mem = (sequential g (entries tr)).2
  /-- Each process gets the replies to its calls, in its order. -/
  replies : ∀ p, returnedTo p tr <+: repliesTo p (sequential g (entries tr)).1
  allReplied : ∀ p, s.phase p = .idle → returnedTo p tr = repliesTo p (sequential g (entries tr)).1
  /-- A call that did not obtain the lock comes back as it would from any table. -/
  refused : ∀ p c r, .refused p c r ∈ tr → ∀ g', c.run false g' = (r, g')

theorem sequential_eq_effect {ok : State P → Action P Call → Prop} {g : Segment}
    {tr : List (Event P Call TableReply)} {s : State P} (h : Run (machine P) ok (.init g) tr s) :
    runAll operations.effect g (entries tr) = sequential g (entries tr) :=
  runAll_congr fun _ _ hmem => effect_eq (admits_of_entries h hmem)

theorem oneAtATime {g : Segment} {tr : List (Event P Call TableReply)} {s : State P}
    (h : Run (machine P) Undisturbed (.init g) tr s) : OneAtATime g tr s := by
  have hserial := serial_run h
  have hseq := sequential_eq_effect h
  refine ⟨fun hout => ?_, fun p => ?_, fun p hp => ?_, fun p c r hr g' => ?_⟩
  · rw [← hseq]
    exact hserial.outside hout
  · rw [← hseq, hserial.replies p]
    exact List.prefix_append _ _
  · rw [← hseq, hserial.replies p, hp]
    exact (List.append_nil _).symm
  · rw [refused_run h hr]
    exact run_unlocked c g'

theorem mem_returnedTo {p : P} {c : Call} {r : TableReply} {tr : List (Event P Call TableReply)}
    (h : .returned p c r ∈ tr) : (c, r) ∈ returnedTo p tr :=
  List.mem_filterMap.mpr ⟨_, h, if_pos rfl⟩

omit [DecidableEq P] in
theorem unmixed_of_mem_sequential {g : Segment} {calls : List (P × Call)} {p : P} {c : Call}
    {r : TableReply} (h : (p, c, r) ∈ (sequential g calls).1) {row : TermEntry}
    (hrow : Shows row r) : Unmixed g calls row := by
  obtain ⟨before, after, rfl, rfl⟩ := exists_of_mem_runAll h
  have hmem := mem_rows_of_shows hrow
  exact (unmixed_sequential g before row hmem).mono fun x hx => List.mem_append_left _ hx

/-- While nobody is killed the operations come to one at a time; no row handed
out mixes two `set_state` calls, no registration takes a row that is occupied or
a second row for its number, and each one that succeeds has its number listed. -/
theorem operations_atomic {g : Segment} {tr : List (Event P Call TableReply)} {s : State P}
    (h : Run (machine P) Undisturbed (.init g) tr s) :
    OneAtATime g tr s ∧
    (∀ p c r, .returned p c r ∈ tr → ∀ row, Shows row r → Unmixed g (entries tr) row) ∧
    g.Extends s.mem ∧ g.OrderlySince s.mem ∧ ∀ p isOpen n order,
      .returned p ⟨isOpen, .registerTerminal n order⟩ (.done true) ∈ tr → s.mem.Listed n := by
  have hone := oneAtATime h
  obtain ⟨hkept, hext⟩ := (keeper g).kept_run (kept_init g) h
  refine ⟨hone, ?_, hext, hkept.inv, ?_⟩
  · intro p c r hr row hrow
    have hmem := (hone.replies p).subset (mem_returnedTo hr)
    obtain ⟨⟨q, x⟩, hx, hq⟩ := List.mem_filterMap.mp hmem
    split at hq
    · obtain rfl := Option.some.inj hq
      exact unmixed_of_mem_sequential hx hrow
    · cases hq
  · intro p isOpen n order hr
    exact (listed_of_registered h.always hr).2

/-- Two registrations, the second of which waits while the first row is half
written, and a search. -/
theorem operations_atomic_two_registrations : ∃ tr s,
    Run (machine Bool) Undisturbed (.init .zero) tr s ∧
      .returned false ⟨true, .registerTerminal 1001 ⟨Field.all, .refl _⟩⟩ (.done true) ∈ tr ∧
      .returned true ⟨true, .registerTerminal 1002 ⟨Field.all, .refl _⟩⟩ (.done true) ∈ tr ∧
      .returned false ⟨true, .find 1002 .zero⟩ (.entry true (newRow 1002)) ∈ tr ∧
      OneAtATime .zero tr s ∧ Unmixed .zero (entries tr) (newRow 1002) ∧
      Segment.zero.OrderlySince s.mem ∧ s.mem.Listed 1001 ∧ s.mem.Listed 1002 := by
  let first : Call := ⟨true, .registerTerminal 1001 ⟨Field.all, .refl _⟩⟩
  let second : Call := ⟨true, .registerTerminal 1002 ⟨Field.all, .refl _⟩⟩
  let search : Call := ⟨true, .find 1002 .zero⟩
  let accesses (p : Bool) (k : ℕ) : List (Action Bool Call) := List.replicate k (.access p)
  obtain ⟨tr, s, h, hQ⟩ := (machine Bool).exists_run_of_exec Undisturbed (.init .zero)
    ([.call false first, .call true second, .lock false .ok] ++ accesses false 67 ++
      [.lock true .retry] ++ accesses false 3 ++ [.unlock false .ok, .lock true .ok, .ret false] ++
      accesses true 71 ++ [.unlock true .ok, .ret true, .call false search, .lock false .ok] ++
      accesses false 7 ++ [.unlock false .ok, .ret false])
    (fun r => decide (.returned false first (.done true) ∈ r.2 ∧
      .returned true second (.done true) ∈ r.2 ∧
      .returned false search (.entry true (newRow 1002)) ∈ r.2))
    (by decide +kernel) (by decide +kernel)
  obtain ⟨hfirst, hsecond, hsearch⟩ := of_decide_eq_true hQ
  obtain ⟨hone, hunmixed, -, horderly, hlisted⟩ := operations_atomic h
  exact ⟨tr, s, h, hfirst, hsecond, hsearch, hone, hunmixed _ _ _ hsearch _ ⟨rfl, rfl⟩, horderly,
    hlisted _ _ _ _ hfirst, hlisted _ _ _ _ hsecond⟩

end TableAccess

end Fleetcore
