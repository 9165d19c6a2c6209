import Fleetcore.Connections
import Fleetcore.TermdTable

/-!
The lives of a termd.

The segment outlives the processes. A termd may be killed between any two of
its calls on the table and be started again, and `register_terminal` leaves a
row that is there as it is: what a new life finds in its row is what its
earlier lives wrote last.
-/

namespace Fleetcore.Restart

open ByteOrder StateMachine Framing

/-! ### Lives -/

structure Life where
  termd : Termd
  /-- A terminal has been accepted. -/
  served : Bool
  /-- Between the two halves of `on_idle`. -/
  midway : Bool

structure World where
  table : Segment
  /-- The life of a termd, if it is running. -/
  life : Slot → Option Life

def World.init : World := ⟨.zero, fun _ => none⟩

inductive Action where
  | start (slot : Slot) (env : Env)
  | accept (slot : Slot) (env : Env)
  | read (slot : Slot) (env : Env)
  | recv (slot : Slot) (env : Env) (data : List UInt8)
  | kill (slot : Slot)

inductive Event where
  /-- The start-up was successful. -/
  | registered (slot : Slot)
  /-- A call of `set_state` that returned true. -/
  | wrote (slot : Slot) (state : UInt8) (capabilities : UInt32)
  | killed (slot : Slot)
  deriving DecidableEq

def World.live (w : World) (slot : Slot) (l : Option Life) (table : Segment) : World :=
  ⟨table, Function.update w.life slot l⟩

def wrote (slot : Slot) (table : Segment) (a : Access) (now : UInt64) (state : UInt8)
    (capabilities : UInt32) : List Event :=
  if (table.setState a now slot.number.val state capabilities).1 then
    [.wrote slot state capabilities]
  else []

/-- A life that is not held up, and where it is in `on_idle`. -/
def World.ready (w : World) (slot : Slot) (midway : Bool) : Option Life :=
  (w.life slot).filter fun l => l.midway == midway && !l.termd.tcp.spinning

def step (e : Endian) (w : World) : Action → Option (World × List Event)
  | .start slot env =>
      if (w.life slot).isSome then none
      else
        match Termd.onInit env slot.val w.table with
        | none => some (w, [])
        | some r => some (w.live slot (some ⟨r.loc, false, false⟩) r.shared, [.registered slot])
  | .accept slot env =>
      (w.ready slot false).map fun l =>
        let r := l.termd.accept env w.table
        (w.live slot (some ⟨r.loc, l.served || env.accepted.isSome, true⟩) r.shared,
          if r.obs = [.connected] then
            wrote slot w.table env.access env.now termStateConnected capLock
          else [])
  | .read slot env =>
      (w.ready slot true).map fun l =>
        let r := l.termd.read e env w.table
        (w.live slot (some ⟨r.loc, l.served, false⟩) r.shared,
          if r.obs = [.gone] then
            wrote slot w.table env.access' env.now termStateDisconnected 0
          else [])
  | .recv slot env data =>
      (w.ready slot false).map fun l =>
        let r := dispatch (l.termd.handlers e env w.table) ⟨l.termd, w.table, [], []⟩ data
        (w.live slot (some ⟨r.loc, l.served, false⟩) r.shared, [])
  | .kill slot =>
      if (w.life slot).isSome then some (w.live slot none w.table, [.killed slot]) else none

def machine (e : Endian) : Machine World Action Event := ⟨step e⟩

/-- A running termd that has not accepted a terminal since it was started. -/
def Fresh (w : World) (slot : Slot) : Prop := ∃ l, w.life slot = some l ∧ l.served = false

/-- The table knows the terminal, as one without a connection. -/
def Disconnected (w : World) (slot : Slot) : Prop :=
  ∃ row, w.table.find .granted slot.number.val .zero = (true, row) ∧
    row.state = termStateDisconnected ∧ row.capabilities = 0

def writes (slot : Slot) (tr : List Event) : List (UInt8 × UInt32) :=
  tr.filterMap fun
    | .wrote slot' state capabilities =>
        if slot' = slot then some (state, capabilities) else none
    | _ => none

/-- What they wrote last; a row is created without a connection. -/
def lastWritten (slot : Slot) (tr : List Event) : UInt8 × UInt32 :=
  (writes slot tr).getLastD (termStateDisconnected, 0)

theorem lastWritten_append_of_quiet {slot : Slot} {es : List Event} (h : writes slot es = [])
    (tr : List Event) : lastWritten slot (tr ++ es) = lastWritten slot tr := by
  have hwrites : writes slot (tr ++ es) = writes slot tr := by
    rw [writes, List.filterMap_append]
    exact (congrArg _ h).trans (List.append_nil _)
  rw [lastWritten, hwrites, lastWritten]

theorem lastWritten_append_wrote (slot slot' : Slot) (tr : List Event) (state : UInt8)
    (capabilities : UInt32) :
    lastWritten slot (tr ++ [.wrote slot' state capabilities]) =
      if slot' = slot then (state, capabilities) else lastWritten slot tr := by
  split
  · next h =>
      have hone : writes slot [.wrote slot' state capabilities] = [(state, capabilities)] := by
        simp [writes, h]
      rw [lastWritten, writes, List.filterMap_append]
      exact (congrArg (fun l => (writes slot tr ++ l).getLastD _) hone).trans (by simp)
  · next h => exact lastWritten_append_of_quiet (by simp [writes, h]) tr

/-! ### What a step does to the table -/

inductive Effect (table : Segment) : Segment → List Event → Prop
  | keep {es : List Event} (h : ∀ slot, writes slot es = []) : Effect table table es
  | register (slot : Slot) (a : Access) :
      Effect table (table.registerTerminal a slot.number.val).2 [.registered slot]
  | setState (slot : Slot) (a : Access) (now : UInt64) (state : UInt8) (capabilities : UInt32) :
      Effect table (table.setState a now slot.number.val state capabilities).2
        (wrote slot table a now state capabilities)

theorem ready_eq_some {w : World} {slot : Slot} {midway : Bool} {l : Life} :
    w.ready slot midway = some l ↔
      w.life slot = some l ∧ l.midway = midway ∧ l.termd.tcp.spinning = false := by
  simp [World.ready, Option.filter_eq_some_iff]

theorem number_eq {slot : Slot} {t : Termd} (h : t.slot = slot.val) :
    t.termNo = slot.number.val := by
  rw [Termd.termNo, h]
  rfl

structure Lives (slot : Slot) (table : Segment) (l : Life) (table' : Segment) (l' : Life)
    (es : List Event) : Prop where
  effect : Effect table table' es
  settled : l'.termd.slot = slot.val
  quiet : ∀ slot', .registered slot' ∉ es
  others : ∀ slot' ≠ slot, writes slot' es = []
  /-- Before it accepts a terminal it has nobody to lose, and writes nothing. -/
  fresh : l'.served = false → l.served = false ∧
    (l.termd.tcp.clientFd = none → l'.termd.tcp.clientFd = none ∧ writes slot es = [])

theorem Lives.keep {slot : Slot} {table : Segment} {l l' : Life} (hslot : l'.termd.slot = slot.val)
    (hserved : l'.served = l.served)
    (hclient : l.termd.tcp.clientFd = none → l'.termd.tcp.clientFd = none) :
    Lives slot table l table l' [] where
  effect := .keep fun _ => rfl
  settled := hslot
  quiet := fun _ => List.not_mem_nil
  others := fun _ _ => rfl
  fresh := fun h => ⟨hserved ▸ h, fun hc => ⟨hclient hc, rfl⟩⟩

theorem registered_not_mem_wrote (slot slot' : Slot) (table : Segment) (a : Access) (now : UInt64)
    (state : UInt8) (capabilities : UInt32) :
    .registered slot' ∉ wrote slot table a now state capabilities := by
  rw [wrote]
  split <;> simp

theorem writes_wrote_of_ne {slot slot' : Slot} (h : slot' ≠ slot) (table : Segment) (a : Access)
    (now : UInt64) (state : UInt8) (capabilities : UInt32) :
    writes slot' (wrote slot table a now state capabilities) = [] := by
  rw [wrote]
  split
  · simp [writes, Ne.symm h]
  · rfl

section Lives

variable {slot : Slot} {l : Life} (h : l.termd.slot = slot.val) (env : Env) (table : Segment)
include h

theorem lives_accept (midway : Bool) :
    Lives slot table l (l.termd.accept env table).shared
      ⟨(l.termd.accept env table).loc, l.served || env.accepted.isSome, midway⟩
      (if (l.termd.accept env table).obs = [.connected] then
        wrote slot table env.access env.now termStateConnected capLock
      else []) := by
  cases hacc : env.accepted with
  | none =>
      simp only [Termd.accept, TcpServer.pollAccept, hacc]
      exact .keep h (Bool.or_false _) id
  | some fd =>
      simp only [Termd.accept, TcpServer.pollAccept, hacc, number_eq h]
      exact ⟨.setState slot env.access env.now termStateConnected capLock, h,
        fun slot' => registered_not_mem_wrote slot slot' _ _ _ _ _,
        fun slot' hne => writes_wrote_of_ne hne _ _ _ _ _, fun hserved => by simp at hserved⟩

theorem lives_read (e : Endian) (midway : Bool) :
    Lives slot table l (l.termd.read e env table).shared
      ⟨(l.termd.read e env table).loc, l.served, midway⟩
      (if (l.termd.read e env table).obs = [.gone] then
        wrote slot table env.access' env.now termStateDisconnected 0
      else []) := by
  cases hc : l.termd.tcp.clientFd with
  | none =>
      have hres : l.termd.tcp.pollRead 1024 env.received = (.nothing, l.termd.tcp) := by
        simp [TcpServer.pollRead, hc]
      simp only [Termd.read, hres]
      exact .keep h rfl id
  | some fd =>
      have hlost : l.termd.tcp.clientFd ≠ none := by simp [hc]
      have hcases := l.termd.tcp.pollRead_cases 1024 env.received
      rw [Termd.read]
      generalize l.termd.tcp.pollRead 1024 env.received = result at hcases
      obtain hres | hres | ⟨chunk, hres⟩ := hcases
      · rw [hres, number_eq h]
        exact ⟨.setState slot env.access' env.now termStateDisconnected 0, h,
          fun slot' => registered_not_mem_wrote slot slot' _ _ _ _ _,
          fun slot' hne => writes_wrote_of_ne hne _ _ _ _ _,
          fun hserved => ⟨hserved, fun hnone => absurd hnone hlost⟩⟩
      · rw [hres]
        exact .keep h rfl id
      · rw [hres]
        simp only [List.cons.injEq, reduceCtorEq, false_and, if_false, TerminalLink.receive_fst]
        refine .keep ?_ rfl fun hnone => absurd hnone hlost
        cases (cutStream (l.termd.rx.data ++ chunk)).2 <;> exact h

theorem lives_recv (e : Endian) (data : List UInt8) (midway : Bool) :
    Lives slot table l
      (dispatch (l.termd.handlers e env table) ⟨l.termd, table, [], []⟩ data).shared
      ⟨(dispatch (l.termd.handlers e env table) ⟨l.termd, table, [], []⟩ data).loc, l.served,
        midway⟩ [] := by
  rw [Connections.dispatch_termd]
  split
  · by_cases hlen : data.length = IpcLockRequest.size
    · cases hc : l.termd.tcp.hasClient with
      | false =>
          rw [Termd.onLockRequest_of_no_client hlen hc]
          exact .keep h rfl id
      | true =>
          rw [Termd.onLockRequest_of_client hlen hc]
          refine .keep h rfl fun hnone => ?_
          simp [TcpServer.hasClient, hnone] at hc
    · rw [Termd.onLockRequest, if_pos hlen]
      exact .keep h rfl id
  · exact .keep h rfl id

end Lives

inductive Stepped (w : World) : World → List Event → Prop
  | refused : Stepped w w []
  | started (slot : Slot) (a : Access)
      (hok : (w.table.registerTerminal a slot.number.val).1 = true) :
      Stepped w (w.live slot (some ⟨.listening slot.val, false, false⟩)
        (w.table.registerTerminal a slot.number.val).2) [.registered slot]
  | lived {slot : Slot} {l l' : Life} {table' : Segment} {es : List Event}
      (hl : w.life slot = some l) (h : Lives slot w.table l table' l' es) :
      Stepped w (w.live slot (some l') table') es
  | killed (slot : Slot) : Stepped w (w.live slot none w.table) [.killed slot]

def Settled (w : World) : Prop := ∀ slot l, w.life slot = some l → l.termd.slot = slot.val

theorem step_cases {e : Endian} {w w' : World} {a : Action} {es : List Event} (h : Settled w)
    (hs : step e w a = some (w', es)) : Stepped w w' es := by
  cases a with
  | start slot env =>
      simp only [step, Option.ite_none_left_eq_some] at hs
      obtain ⟨-, hs⟩ := hs
      split at hs
      · obtain ⟨rfl, rfl⟩ := Prod.mk.inj (Option.some.inj hs)
        exact .refused
      · next r hr =>
          obtain ⟨rfl, rfl⟩ := Prod.mk.inj (Option.some.inj hs)
          simp only [Termd.onInit, Option.ite_none_right_eq_some, Option.some.injEq] at hr
          obtain ⟨hok, rfl⟩ := hr
          exact .started slot env.access hok
  | accept slot env =>
      simp only [step, Option.map_eq_some_iff, ready_eq_some] at hs
      obtain ⟨l, ⟨hl, -, -⟩, hs⟩ := hs
      obtain ⟨rfl, rfl⟩ := Prod.mk.inj hs
      exact .lived hl (lives_accept (h slot l hl) env w.table _)
  | read slot env =>
      simp only [step, Option.map_eq_some_iff, ready_eq_some] at hs
      obtain ⟨l, ⟨hl, -, -⟩, hs⟩ := hs
      obtain ⟨rfl, rfl⟩ := Prod.mk.inj hs
      exact .lived hl (lives_read (h slot l hl) env w.table e _)
  | recv slot env data =>
      simp only [step, Option.map_eq_some_iff, ready_eq_some] at hs
      obtain ⟨l, ⟨hl, -, -⟩, hs⟩ := hs
      obtain ⟨rfl, rfl⟩ := Prod.mk.inj hs
      exact .lived hl (lives_recv (h slot l hl) env w.table e data _)
  | kill slot =>
      simp only [step, Option.ite_none_right_eq_some, Option.some.injEq, Prod.mk.injEq] at hs
      obtain ⟨-, rfl, rfl⟩ := hs
      exact .killed slot

theorem Stepped.effect {w w' : World} {es : List Event} (h : Stepped w w' es) :
    Effect w.table w'.table es := by
  cases h with
  | refused => exact .keep fun _ => rfl
  | started slot a => exact .register slot a
  | lived hl h => exact h.effect
  | killed slot => exact .keep fun _ => rfl

/-- A property of lives, which may speak of the trace: a step keeps it when the
life that takes it does and the others do not notice. -/
theorem Stepped.lives {P : List Event → Segment → Slot → Life → Prop} {w w' : World}
    {tr es : List Event} (h : Stepped w w' es) (hP : ∀ slot l, w.life slot = some l →
      P tr w.table slot l)
    (hothers : ∀ slot l, P tr w.table slot l → .registered slot ∉ es → writes slot es = [] →
      P (tr ++ es) w'.table slot l)
    (hstart : ∀ slot a, (w.table.registerTerminal a slot.number.val).1 = true →
      P (tr ++ [.registered slot]) (w.table.registerTerminal a slot.number.val).2 slot
        ⟨.listening slot.val, false, false⟩)
    (hlives : ∀ slot l table' l' es, P tr w.table slot l → Lives slot w.table l table' l' es →
      P (tr ++ es) table' slot l') :
    ∀ slot l, w'.life slot = some l → P (tr ++ es) w'.table slot l := by
  intro slot l hl
  cases h with
  | refused => exact hothers slot l (hP slot l hl) List.not_mem_nil rfl
  | started slot' a hok =>
      by_cases heq : slot = slot'
      · subst heq
        obtain rfl : _ = l := by simpa [World.live] using hl
        exact hstart slot a hok
      · refine hothers slot l (hP slot l (by simpa [World.live, heq] using hl)) ?_ rfl
        simpa using heq
  | @lived slot' l₀ l' table' es hl₀ h =>
      -- the other lives see the table change, but not in their own row
      by_cases heq : slot = slot'
      · subst heq
        obtain rfl : l' = l := by simpa [World.live] using hl
        exact hlives slot l₀ _ _ _ (hP slot l₀ hl₀) h
      · exact hothers slot l (hP slot l (by simpa [World.live, heq] using hl)) (h.quiet slot)
          (h.others slot heq)
  | killed slot' =>
      by_cases heq : slot = slot'
      · subst heq
        simp [World.live] at hl
      · exact hothers slot l (hP slot l (by simpa [World.live, heq] using hl)) (by simp) rfl

/-! ### What a row says -/

def link (m : TerminalMap) (t : TerminalNumber) : UInt8 × UInt32 :=
  match m.map.get? t with
  | some i => (i.state, i.capabilities)
  | none => (termStateDisconnected, 0)

theorem link_register (m : TerminalMap) (t t' : TerminalNumber) :
    link (m.register t).2 t' = link m t' := by
  rw [TerminalMap.register]
  split
  · rfl
  · next hmem =>
      split
      · by_cases heq : t' = t
        · subst heq
          simp only [link, OrderedMap.get?_push_self, OrderedMap.get?_eq_none _ hmem]
          rfl
        · simp only [link, OrderedMap.get?_push_of_ne _ _ hmem heq]
      · rfl

theorem link_adjust (m : TerminalMap) (t t' : TerminalNumber) (now : UInt64) (state : UInt8)
    (capabilities : UInt32) :
    link (m.adjust t fun _ => ⟨state, capabilities, now⟩).2 t' =
      if (m.adjust t fun _ => ⟨state, capabilities, now⟩).1 = true ∧ t = t' then
        (state, capabilities)
      else link m t' := by
  rw [TerminalMap.adjust]
  split
  · next hmem =>
      by_cases heq : t = t'
      · subst heq
        obtain ⟨i, hi⟩ := Option.isSome_iff_exists.mp ((m.map.get?_isSome t).mpr hmem)
        simp [link, OrderedMap.get?_adjust_self, hi]
      · simp only [link, OrderedMap.get?_adjust_of_ne _ _ (Ne.symm heq), heq, and_false, if_false]
  · simp

/-- The rows say what the lives of the termds wrote last. -/
def Reflects (tr : List Event) (table : Segment) : Prop :=
  ∃ m : TerminalMap, table = m.toSegment ∧ ∀ slot : Slot, link m slot.number = lastWritten slot tr

theorem Reflects.effect {tr es : List Event} {table table' : Segment} (h : Reflects tr table)
    (he : Effect table table' es) : Reflects (tr ++ es) table' := by
  obtain ⟨m, rfl, hlink⟩ := h
  cases he with
  | keep hquiet =>
      exact ⟨m, rfl, fun slot => by rw [lastWritten_append_of_quiet (hquiet slot), hlink]⟩
  | register slot a =>
      have hquiet : ∀ slot', lastWritten slot' (tr ++ [.registered slot]) = lastWritten slot' tr :=
        fun slot' => lastWritten_append_of_quiet rfl tr
      rw [m.registerTerminal_eq]
      split
      · exact ⟨_, rfl, fun slot' => by rw [hquiet, link_register, hlink]⟩
      · exact ⟨m, rfl, fun slot' => by rw [hquiet, hlink]⟩
  | setState slot a now state capabilities =>
      rw [wrote, m.setState_eq]
      split
      · refine ⟨_, rfl, fun slot' => ?_⟩
        rw [link_adjust, hlink]
        cases (m.adjust slot.number fun _ => ⟨state, capabilities, now⟩).1 with
        | true =>
            have hsame : slot.number = slot'.number ↔ slot = slot' := Slot.number_injective.eq_iff
            simp only [hsame, true_and, if_true, lastWritten_append_wrote]
        | false => simp
      · exact ⟨m, rfl, fun slot' => by simp [hlink]⟩

theorem Effect.extends {table table' : Segment} {es : List Event} (h : Effect table table' es) :
    table.Extends table' := by
  cases h with
  | keep => exact .refl table
  | register slot a => exact table.extends_registerTerminal a _
  | setState slot a now state capabilities => exact table.extends_setState a now _ _ _

/-- What can be said of a life: its row is there, and since its start-up it has
written nothing unless it has accepted a terminal. -/
structure Account (tr : List Event) (table : Segment) (slot : Slot) (l : Life) : Prop where
  settled : l.termd.slot = slot.val
  listed : table.Listed slot.number.val
  began : ∃ pre suf, tr = pre ++ .registered slot :: suf ∧ .registered slot ∉ suf ∧
    (l.served = false → l.termd.tcp.clientFd = none ∧ writes slot suf = [])

theorem account_others {tr es : List Event} {table table' : Segment} {slot : Slot} {l : Life}
    (h : Account tr table slot l) (hext : table.Extends table') (hreg : .registered slot ∉ es)
    (hquiet : writes slot es = []) : Account (tr ++ es) table' slot l := by
  obtain ⟨pre, suf, rfl, hsuf, hfresh⟩ := h.began
  refine ⟨h.settled, hext.listed slot.number.ne_zero h.listed, pre, suf ++ es, by simp,
    by simp [hsuf, hreg], fun hserved => ?_⟩
  obtain ⟨hc, hwrites⟩ := hfresh hserved
  refine ⟨hc, ?_⟩
  rw [writes, List.filterMap_append]
  exact List.append_eq_nil_iff.mpr ⟨hwrites, hquiet⟩

theorem account_start {tr : List Event} {table : Segment} {slot : Slot} {a : Access}
    (hok : (table.registerTerminal a slot.number.val).1 = true) :
    Account (tr ++ [.registered slot]) (table.registerTerminal a slot.number.val).2 slot
      ⟨.listening slot.val, false, false⟩ :=
  ⟨rfl, Segment.listed_of_registerTerminal hok, tr, [], rfl, List.not_mem_nil,
    fun _ => ⟨rfl, rfl⟩⟩

theorem account_lives {tr es : List Event} {table table' : Segment} {slot : Slot} {l l' : Life}
    (h : Account tr table slot l) (hl : Lives slot table l table' l' es) :
    Account (tr ++ es) table' slot l' := by
  obtain ⟨pre, suf, rfl, hsuf, hfresh⟩ := h.began
  refine ⟨hl.settled, hl.effect.extends.listed slot.number.ne_zero h.listed, pre, suf ++ es,
    by simp, by simp [hsuf, hl.quiet slot], fun hserved => ?_⟩
  obtain ⟨hserved₀, hkeep⟩ := hl.fresh hserved
  obtain ⟨hc, hwrites⟩ := hfresh hserved₀
  obtain ⟨hc', hquiet⟩ := hkeep hc
  refine ⟨hc', ?_⟩
  rw [writes, List.filterMap_append]
  exact List.append_eq_nil_iff.mpr ⟨hwrites, hquiet⟩

/-- What a run has come to. -/
structure Inv (tr : List Event) (w : World) : Prop where
  reflects : Reflects tr w.table
  account : ∀ slot l, w.life slot = some l → Account tr w.table slot l

theorem inv_init : Inv [] .init where
  reflects := ⟨.empty, rfl, fun _ => rfl⟩
  account := fun _ _ h => by cases h

theorem inv_step {e : Endian} {tr es : List Event} {w w' : World} {a : Action} (h : Inv tr w)
    (hs : step e w a = some (w', es)) : Inv (tr ++ es) w' := by
  have hstep := step_cases (fun slot l hl => (h.account slot l hl).settled) hs
  exact ⟨h.reflects.effect hstep.effect, hstep.lives h.account
    (fun _ _ hacc => account_others hacc hstep.effect.extends) (fun _ _ => account_start)
    (fun _ _ _ _ _ => account_lives)⟩

theorem inv_run {e : Endian} {tr : List Event} {w : World}
    (h : Run (machine e) Always .init tr w) : Inv tr w :=
  h.invariant Inv inv_init fun _ _ _ _ _ hI _ hs => inv_step hI hs

theorem Inv.disconnected_iff {tr : List Event} {w : World} {slot : Slot} {l : Life} (h : Inv tr w)
    (hl : w.life slot = some l) :
    Disconnected w slot ↔ lastWritten slot tr = (termStateDisconnected, 0) := by
  obtain ⟨m, hm, hlink⟩ := h.reflects
  have hmem : slot.number ∈ m.map.keys :=
    (m.listed_toSegment slot.number).mp (hm ▸ (h.account slot l hl).listed)
  obtain ⟨i, hi⟩ := Option.isSome_iff_exists.mp ((m.map.get?_isSome slot.number).mpr hmem)
  have hsays : link m slot.number = (i.state, i.capabilities) := by simp only [link, hi]
  have hfind : w.table.find .granted slot.number.val .zero =
      (true, TerminalMap.row (slot.number, i)) := by
    rw [hm, m.find_toSegment, TerminalMap.find, hi]
  rw [← hlink, hsays, Prod.mk.injEq]
  constructor
  · rintro ⟨row, hrow, hstate, hcaps⟩
    obtain rfl : TerminalMap.row (slot.number, i) = row :=
      (Prod.mk.inj (hfind.symm.trans hrow)).2
    exact ⟨hstate, hcaps⟩
  · rintro ⟨hstate, hcaps⟩
    exact ⟨_, hfind, hstate, hcaps⟩

/-! ### Restarts -/

/-- In every run, a termd that has not accepted a terminal since its last
start-up finds its row without a connection if and only if the earlier lives
left it so: the last write among those before the start-up, if there is one,
was the one that `on_idle` makes when the terminal goes away. -/
theorem restart_disconnected_iff {e : Endian} {tr : List Event} {w : World} {slot : Slot}
    (h : Run (machine e) Always .init tr w) (hf : Fresh w slot) :
    ∃ earlier life, tr = earlier ++ .registered slot :: life ∧ .registered slot ∉ life ∧
      (Disconnected w slot ↔ lastWritten slot earlier = (termStateDisconnected, 0)) := by
  obtain ⟨l, hl, hserved⟩ := hf
  obtain ⟨earlier, life, htr, hlast, hfresh⟩ := ((inv_run h).account slot l hl).began
  refine ⟨earlier, life, htr, hlast, ?_⟩
  have hquiet : writes slot (.registered slot :: life) = [] := (hfresh hserved).2
  have hsame : lastWritten slot tr = lastWritten slot earlier := by
    rw [htr]
    exact lastWritten_append_of_quiet hquiet earlier
  rw [(inv_run h).disconnected_iff hl, hsame]

/-- Killed after its terminal has left, and started again. -/
theorem restart_disconnected_iff_left : ∃ tr w, ∃ slot : Slot,
    Run (machine .little) Always .init tr w ∧ Fresh w slot ∧ .killed slot ∈ tr ∧
      .wrote slot termStateConnected capLock ∈ tr ∧
      ∃ earlier life, tr = earlier ++ .registered slot :: life ∧ .registered slot ∉ life ∧
        (Disconnected w slot ↔ lastWritten slot earlier = (termStateDisconnected, 0)) := by
  let slot : Slot := ⟨1, by decide⟩
  obtain ⟨tr, w, h, hQ⟩ := (machine .little).exists_run_of_exec Always .init
    [.start slot .quiet, .accept slot { Env.quiet with accepted := some 5 }, .read slot .quiet,
      .accept slot .quiet, .read slot { Env.quiet with received := .data [] }, .kill slot,
      .start slot .quiet]
    (fun r => decide ((r.1.life slot).map Life.served = some false ∧ .killed slot ∈ r.2 ∧
      .wrote slot termStateConnected capLock ∈ r.2))
    (by decide +kernel) (by decide +kernel)
  obtain ⟨hlife, hkilled, hwrote⟩ := of_decide_eq_true hQ
  have hf : Fresh w slot := Option.map_eq_some_iff.mp hlife
  exact ⟨tr, w, slot, h, hf, hkilled, hwrote, restart_disconnected_iff h hf⟩

/-- Killed while its terminal is connected, it inherits a connection that is gone. -/
theorem restart_inherits_connection :
    ¬∀ tr w, Run (machine .little) Always .init tr w → ∀ slot, Fresh w slot →
      Disconnected w slot := by
  intro hall
  let slot : Slot := ⟨1, by decide⟩
  obtain ⟨tr, w, h, hQ⟩ := (machine .little).exists_run_of_exec Always .init
    [.start slot .quiet, .accept slot { Env.quiet with accepted := some 5 }, .kill slot,
      .start slot .quiet]
    (fun r => decide ((r.1.life slot).map Life.served = some false ∧
      (r.1.table.find .granted slot.number.val .zero).2.state = termStateConnected))
    (by decide +kernel) (by decide +kernel)
  obtain ⟨hlife, hconnected⟩ := of_decide_eq_true hQ
  obtain ⟨row, hrow, hstate, -⟩ := hall tr w h slot (Option.map_eq_some_iff.mp hlife)
  rw [hrow, hstate] at hconnected
  exact absurd hconnected (by decide)

end Fleetcore.Restart
