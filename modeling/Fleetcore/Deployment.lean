import Fleetcore.Commands
import Fleetcore.Identity
import Fleetcore.Lib.Links
import Fleetcore.ProcessRuns
import Fleetcore.Reception

/-!
The whole deployment: gateway, locator and the termds, the maintenance screen
that is connected to gateway, and for every slot the terminal that is connected
to its termd.

The screens are clients, gateway and the termds servers. Between a screen and its
server there is a port (`Links.Port`): the screen makes its connections, the
server accepts them when `on_idle` gets to it, and each reads on its last one
what the other has written there. Each step is one of one program, and what it
does at its socket has to be possible at its port.

Gateway, locator and the termds may crash at any moment and be brought up again.
What is pending at a port may be lost at any moment, as it is when the process
that listens there goes down.
-/

namespace Fleetcore.Deployment

open ByteOrder StateMachine Sessions Links Threads

/-! ### The programs -/

structure Hosts where
  server : Endian
  maint : Endian
  terminal : Slot → Endian

structure Parts where
  server : System.State
  maint : MaintScreen
  terminal : Slot → LockScreen

abbrev MaintAction := Threads.Action Happening MaintWorker.Moment MaintWindow.Use
abbrev MaintEvent := Threads.Event MaintWorker.Call (Out LockResponse) (Signal LockResponse)
  MaintWindow.Use
abbrev LockAction := Threads.Action Happening Unit LockWindow.Use
abbrev LockEvent := Threads.Event CommWorker.Call (Out LockRequest) (Signal LockRequest)
  LockWindow.Use

inductive Action where
  | server (a : System.Turn)
  | maint (a : MaintAction)
  | terminal (slot : Slot) (a : LockAction)

inductive Event where
  | server (ev : System.Event)
  | maint (ev : MaintEvent)
  | terminal (slot : Slot) (ev : LockEvent)

/-- Nothing is up. A terminal dials the port of its slot. -/
def Parts.init : Parts where
  server := System.init
  maint := MaintScreen.init
  terminal := fun slot => LockScreen.init ((Identity.port slot).getD 0)

variable (o : Hosts) (cap : Option ℕ)

def partsStep (p : Parts) : Action → Option (Parts × List Event)
  | .server a => ((System.mortal o.server cap).step p.server a).map fun r =>
      ({ p with server := r.1 }, r.2.map .server)
  | .maint a => ((maintScreen o.maint).step p.maint a).map fun r =>
      ({ p with maint := r.1 }, r.2.map .maint)
  | .terminal slot a => ((lockScreen (o.terminal slot)).step (p.terminal slot) a).map fun r =>
      ({ p with terminal := Function.update p.terminal slot r.1 }, r.2.map (.terminal slot))

def parts : Machine Parts Action Event := ⟨partsStep o cap⟩

/-! ### The ports -/

/-- The server at whose port a program is. -/
def Action.port : Action → ProcId
  | .server a => a.proc
  | .maint _ => .gateway
  | .terminal slot _ => .termd slot

/-- What a server does on its connections. -/
def noteMove : Note → Option (Move UInt8)
  | .connected => some .accept
  | .read bytes => some (.serverRead bytes)
  | .handed frame call => some (.serverWrite (frame.take call.sent))
  | _ => none

/-- What a screen does on its connections. -/
def outMove {M : Type} : Out M → Option (Move UInt8)
  | .linked => some .connect
  | .read bytes => some (.clientRead bytes)
  | .wrote frame taken => some (.clientWrite (frame.take taken.toNat))
  | .refused => none
  | .signal _ => none

def moveAt (p : ProcId) : Event → Option (Move UInt8)
  | .server (.saw q n) => if q = p then noteMove n else none
  | .server _ => none
  | .maint ev => if ProcId.gateway = p then (outputIn ev).bind outMove else none
  | .terminal slot ev => if ProcId.termd slot = p then (outputIn ev).bind outMove else none

def net : Net ProcId Parts Action Event UInt8 := ⟨parts o cap, Action.port, moveAt⟩

abbrev World := Parts × (ProcId → Port UInt8)

abbrev Act := Net.Act ProcId Action

def machine : Machine World Act Event := (net o cap).wired

def World.init : World := (Parts.init, Net.initPorts)

/-- The slots in use are those with a terminal number of four digits. No two of
them have one TCP port (`Identity.port_ne_of_ne`), so each server has its own. -/
def InUse : ProcId → Prop
  | .termd slot => slot.val.toInt ≤ Identity.maxSlot
  | _ => True

instance : DecidablePred InUse
  | .gateway => isTrue trivial
  | .locator => isTrue trivial
  | .termd slot => inferInstanceAs (Decidable (slot.val.toInt ≤ Identity.maxSlot))

/-- The socket of the maintenance screen buffers what is written: it takes a
frame as a whole or not at all. -/
def Buffered : Action → Prop
  | .maint (.call j) => j.taken = LockRequest.size ∨ j.taken = -1
  | _ => True

instance : DecidablePred Buffered
  | .maint (.call j) =>
      inferInstanceAs (Decidable (j.taken = LockRequest.size ∨ j.taken = -1))
  | .maint (.work _) => isTrue trivial
  | .maint .display => isTrue trivial
  | .maint (.use _) => isTrue trivial
  | .server _ => isTrue trivial
  | .terminal _ _ => isTrue trivial

/-- The steps of a deployment whose servers have ports of their own. -/
def Usual (_ : World) : Act → Prop
  | .of a => InUse a.port ∧ Buffered a
  | .drop _ => True

instance (w : World) : DecidablePred (Usual w)
  | .of a => inferInstanceAs (Decidable (InUse a.port ∧ Buffered a))
  | .drop _ => isTrue trivial

/-! ### The runs of the programs -/

section Views

def serverEvent : Event → Option System.Event
  | .server ev => some ev
  | _ => none

def maintEvent : Event → Option MaintEvent
  | .maint ev => some ev
  | _ => none

def lockEvent (slot : Slot) : Event → Option LockEvent
  | .terminal slot' ev => if slot' = slot then some ev else none
  | _ => none

def maintOuts (tr : List Event) : List (Out LockResponse) :=
  outputs (done (tr.filterMap maintEvent))

def lockOuts (slot : Slot) (tr : List Event) : List (Out LockRequest) :=
  outputs (done (tr.filterMap (lockEvent slot)))

theorem lockEvent_terminal (slot slot' : Slot) (es : List LockEvent) :
    (es.map (Event.terminal slot')).filterMap (lockEvent slot) =
      if slot' = slot then es else [] := by
  by_cases h : slot' = slot
  · rw [if_pos h]
    exact view_map_some (Event.terminal slot') (fun _ => if_pos h) es
  · rw [if_neg h]
    exact view_map_none (f := Event.terminal slot') (fun _ => if_neg h) es

end Views

inductive PartsStep (p : Parts) : Action → Parts → List Event → Prop
  | server {a s es} (h : (System.mortal o.server cap).step p.server a = some (s, es)) :
      PartsStep p (.server a) { p with server := s } (es.map .server)
  | maint {a s es} (h : (maintScreen o.maint).machine.step p.maint a = some (s, es)) :
      PartsStep p (.maint a) { p with maint := s } (es.map .maint)
  | terminal {slot a s es}
      (h : (lockScreen (o.terminal slot)).machine.step (p.terminal slot) a = some (s, es)) :
      PartsStep p (.terminal slot a) { p with terminal := Function.update p.terminal slot s }
        (es.map (.terminal slot))

variable {o cap}

theorem partsStep_cases {p p' : Parts} {a : Action} {es : List Event}
    (h : (parts o cap).step p a = some (p', es)) : PartsStep o cap p a p' es := by
  cases a with
  | server a =>
      obtain ⟨⟨s, os⟩, hs, heq⟩ := Option.map_eq_some_iff.mp h
      obtain ⟨rfl, rfl⟩ := Prod.mk.inj heq
      exact .server hs
  | maint a =>
      obtain ⟨⟨s, os⟩, hs, heq⟩ := Option.map_eq_some_iff.mp h
      obtain ⟨rfl, rfl⟩ := Prod.mk.inj heq
      exact .maint hs
  | terminal slot a =>
      obtain ⟨⟨s, os⟩, hs, heq⟩ := Option.map_eq_some_iff.mp h
      obtain ⟨rfl, rfl⟩ := Prod.mk.inj heq
      exact .terminal hs

section Runs

variable {ok : World → Act → Prop} {w : World} {tr : List Event}
  (h : Run (machine o cap) ok World.init tr w)

include h

theorem server_run : Run (System.mortal o.server cap) Always System.init
    (tr.filterMap serverEvent) w.1.server := by
  refine (Net.machine_run_always h).project Parts.server
    serverEvent fun p a p' es _ hstep => ?_
  cases partsStep_cases hstep with
  | @server a s es hs =>
      rw [view_map_some Event.server (fun _ => rfl)]
      exact .inl ⟨a, trivial, hs⟩
  | maint hs => exact .inr ⟨rfl, view_map_none (fun _ => rfl) _⟩
  | terminal hs => exact .inr ⟨rfl, view_map_none (fun _ => rfl) _⟩

theorem maint_run {ok' : MaintScreen → MaintAction → Prop}
    (hok : ∀ w a, ok w (.of (.maint a)) → ok' w.1.maint a) :
    Run (maintScreen o.maint).machine ok' MaintScreen.init (tr.filterMap maintEvent)
      w.1.maint := by
  have hparts : Run (parts o cap) (fun p a => ∀ a', a = .maint a' → ok' p.maint a') Parts.init
      tr w.1 := Net.machine_run h fun w a hw a' heq => hok w a' (heq ▸ hw)
  refine hparts.project Parts.maint maintEvent fun p a p' es hw hstep => ?_
  cases partsStep_cases hstep with
  | server hs => exact .inr ⟨rfl, view_map_none (fun _ => rfl) _⟩
  | @maint a s es hs =>
      rw [view_map_some Event.maint (fun _ => rfl)]
      exact .inl ⟨a, hw a rfl, hs⟩
  | terminal hs => exact .inr ⟨rfl, view_map_none (fun _ => rfl) _⟩

theorem maint_run_always : Run (maintScreen o.maint).machine Always MaintScreen.init
    (tr.filterMap maintEvent) w.1.maint := maint_run h fun _ _ _ => trivial

theorem lock_run (slot : Slot) : Run (lockScreen (o.terminal slot)).machine Always
    (LockScreen.init ((Identity.port slot).getD 0)) (tr.filterMap (lockEvent slot))
      (w.1.terminal slot) := by
  refine (Net.machine_run_always h).project
    (fun p => p.terminal slot) (lockEvent slot) fun p a p' es _ hstep => ?_
  cases partsStep_cases hstep with
  | server hs => exact .inr ⟨rfl, view_map_none (fun _ => rfl) _⟩
  | maint hs => exact .inr ⟨rfl, view_map_none (fun _ => rfl) _⟩
  | @terminal slot' a s es hs =>
      rw [lockEvent_terminal]
      by_cases hslot : slot' = slot
      · subst hslot
        simp only [if_true, Function.update_self]
        exact .inl ⟨a, trivial, hs⟩
      · rw [if_neg hslot]
        exact .inr ⟨Function.update_of_ne (Ne.symm hslot) _ _, rfl⟩

end Runs

/-! ### The connections -/

/-- What `p` shows of itself on its connections and queues. -/
def served (p : ProcId) (tr : List Event) : List Connections.Event :=
  (tr.filterMap serverEvent).filterMap (System.shows p)

def bytesWritten {M : Type} (os : List (Out M)) : List UInt8 :=
  os.flatMap fun
    | .wrote frame taken => frame.take taken.toNat
    | _ => []

theorem local_net : (net o cap).Local := by
  intro p a p' es hstep q hq
  cases partsStep_cases hstep with
  | @server a s es hs =>
      refine List.filterMap_eq_nil_iff.mpr fun ev hev => ?_
      obtain ⟨x, hx, rfl⟩ := List.mem_map.mp hev
      have hproc := Mailbox.proc_of_turn hs x hx
      cases x with
      | saw r n => exact if_neg fun heq => hq (heq.symm.trans hproc)
      | _ => rfl
  | @maint a s es hs =>
      exact view_map_none (f := Event.maint) (fun _ => if_neg (Ne.symm hq)) es
  | @terminal slot a s es hs =>
      exact view_map_none (f := Event.terminal slot) (fun _ => if_neg (Ne.symm hq)) es

def connMove : Connections.Event → Option (Move UInt8)
  | .saw n => noteMove n
  | .sent _ _ => none

theorem moveAt_server (p : ProcId) (ev : System.Event) :
    moveAt p (.server ev) = (System.shows p ev).bind connMove := by
  cases ev with
  | saw q n => by_cases hq : q = p <;> simp [moveAt, System.shows, connMove, hq]
  | posted q key m => by_cases hq : q = p <;> simp [moveAt, System.shows, connMove, hq]
  | _ => rfl

theorem connMove_eq (c : Connections.Event) :
    (connMove c).any accepts = Connections.opens c ∧ (connMove c).any connects = false ∧
      (connMove c).elim [] clientWrote = [] ∧ (connMove c).elim [] clientRead = [] := by
  cases c with
  | saw n => cases n <;> exact ⟨rfl, rfl, rfl, rfl⟩
  | sent key m => exact ⟨rfl, rfl, rfl, rfl⟩

theorem outMove_eq {M : Type} (x : Out M) :
    (outMove x).any connects = Worker.opens x ∧ (outMove x).any accepts = false ∧
      (outMove x).elim [] serverRead = [] ∧ (outMove x).elim [] serverWrote = [] := by
  cases x <;> exact ⟨rfl, rfl, rfl, rfl⟩

section Streams

variable {α F : Type} (p : ProcId) (k : ℕ) (tr : List Event)

/-- A move that neither opens a session nor is what `g` is about. -/
def Quiet (opening : Move UInt8 → Bool) (g : Move UInt8 → List α)
    (m : Option (Move UInt8)) : Prop :=
  m.any opening = false ∧ m.elim [] g = []

theorem Quiet.bind {opening : Move UInt8 → Bool} {g : Move UInt8 → List α}
    {mv : F → Option (Move UInt8)} (h : ∀ x, Quiet opening g (mv x)) (x : Option F) :
    Quiet opening g (x.bind mv) := by
  cases x with
  | none => exact ⟨rfl, rfl⟩
  | some x => exact h x

theorem Quiet.ite {opening : Move UInt8 → Bool} {g : Move UInt8 → List α}
    {m : Option (Move UInt8)} (h : Quiet opening g m) (c : Prop) [Decidable c] :
    Quiet opening g (if c then m else none) := by
  split
  · exact h
  · exact ⟨rfl, rfl⟩

theorem side_session {mv : F → Option (Move UInt8)} {f : Event → Option F}
    {opening : Move UInt8 → Bool} {opening' : F → Bool} {g : Move UInt8 → List α}
    {g' : F → List α}
    (hside : ∀ x, (mv x).any opening = opening' x ∧ (mv x).elim [] g = g' x)
    (hview : ∀ ev, moveAt p ev = (f ev).bind mv ∨ f ev = none ∧ Quiet opening g (moveAt p ev)) :
    (session opening k (tr.filterMap (moveAt p))).flatMap g =
      (session opening' k (tr.filterMap f)).flatMap g' := by
  have hboth : ∀ ev, (moveAt p ev).any opening = (f ev).any opening' ∧
      (moveAt p ev).elim [] g = (f ev).elim [] g' := fun ev => by
    rcases hview ev with heq | ⟨hnone, hopen, hshow⟩
    · rw [heq]
      cases f ev with
      | none => exact ⟨rfl, rfl⟩
      | some x => exact hside x
    · rw [hnone, hopen, hshow]
      exact ⟨rfl, rfl⟩
  exact flatMap_session_congr (fun ev => (hboth ev).1) (fun ev => (hboth ev).2) k tr

/-- What a server does on a connection is the part of the moves there that is its own. -/
theorem served_session {g : Move UInt8 → List α} {g' : Connections.Event → List α}
    (hserver : ∀ c, (connMove c).elim [] g = g' c)
    (hmaint : ∀ x : Out LockResponse, (outMove x).elim [] g = [])
    (hlock : ∀ x : Out LockRequest, (outMove x).elim [] g = []) :
    (session accepts k (tr.filterMap (moveAt p))).flatMap g =
      (Connections.onConnection k (served p tr)).flatMap g' := by
  rw [served, List.filterMap_filterMap]
  refine side_session p k tr (fun c => ⟨(connMove_eq c).1, hserver c⟩) fun ev => ?_
  cases ev with
  | server ev => exact .inl (moveAt_server p ev)
  | maint ev =>
      exact .inr ⟨rfl, (Quiet.bind (fun x => ⟨(outMove_eq x).2.1, hmaint x⟩) _).ite _⟩
  | terminal slot ev =>
      exact .inr ⟨rfl, (Quiet.bind (fun x => ⟨(outMove_eq x).2.1, hlock x⟩) _).ite _⟩

theorem serverGot_eq : serverGot (session accepts k (tr.filterMap (moveAt p))) =
    Connections.bytesRead (Connections.onConnection k (served p tr)) :=
  served_session p k tr
    (fun c => by
      cases c with
      | saw n => cases n <;> rfl
      | sent key m => rfl)
    (fun x => (outMove_eq x).2.2.1) fun x => (outMove_eq x).2.2.1

theorem serverSent_eq : serverSent (session accepts k (tr.filterMap (moveAt p))) =
    Connections.acceptedBytes (Connections.onConnection k (served p tr)) := by
  rw [Connections.acceptedBytes, Connections.handed, flatMap_filterMap]
  exact served_session p k tr
    (fun c => by
      cases c with
      | saw n => cases n <;> rfl
      | sent key m => rfl)
    (fun x => (outMove_eq x).2.2.2) fun x => (outMove_eq x).2.2.2

theorem maint_session {g : Move UInt8 → List α} {g' : Out LockResponse → List α}
    (hmaint : ∀ x, (outMove x).elim [] g = g' x) (hserver : ∀ c, (connMove c).elim [] g = []) :
    (session connects k (tr.filterMap (moveAt .gateway))).flatMap g =
      (onLink k (maintOuts tr)).flatMap g' := by
  rw [maintOuts, outputs_done, List.filterMap_filterMap]
  refine side_session .gateway k tr (fun x => ⟨(outMove_eq x).1, hmaint x⟩) fun ev => ?_
  cases ev with
  | server ev =>
      rw [moveAt_server]
      exact .inr ⟨rfl, Quiet.bind (fun c => ⟨(connMove_eq c).2.1, hserver c⟩) _⟩
  | maint ev => exact .inl rfl
  | terminal slot ev => exact .inl rfl

theorem lock_session {g : Move UInt8 → List α} {g' : Out LockRequest → List α} (slot : Slot)
    (hlock : ∀ x, (outMove x).elim [] g = g' x) (hserver : ∀ c, (connMove c).elim [] g = []) :
    (session connects k (tr.filterMap (moveAt (.termd slot)))).flatMap g =
      (onLink k (lockOuts slot tr)).flatMap g' := by
  rw [lockOuts, outputs_done, List.filterMap_filterMap]
  refine side_session (.termd slot) k tr (fun x => ⟨(outMove_eq x).1, hlock x⟩) fun ev => ?_
  cases ev with
  | server ev =>
      rw [moveAt_server]
      exact .inr ⟨rfl, Quiet.bind (fun c => ⟨(connMove_eq c).2.1, hserver c⟩) _⟩
  | maint ev => exact .inl rfl
  | terminal slot' ev =>
      refine .inl ?_
      by_cases hslot : slot' = slot
      · simp [moveAt, lockEvent, hslot]
      · simp [moveAt, lockEvent, hslot]

end Streams

section Runs

variable {ok : World → Act → Prop} {w : World} {tr : List Event}
  (h : Run (machine o cap) ok World.init tr w)

include h

/-- The connections a server accepts are numbered in the order they are made. -/
theorem conn_mono (p : ProcId) : StrictMono (w.2 p).conn := (Net.books local_net h p).conn_mono

/-- Gateway has read a beginning of what the maintenance screen has written. -/
theorem gateway_reads (k : ℕ) :
    Connections.bytesRead (Connections.onConnection k (served .gateway tr)) <+:
      bytesWritten (onLink ((w.2 .gateway).conn k) (maintOuts tr)) := by
  rw [← serverGot_eq, bytesWritten, ← maint_session _ tr (g := clientWrote) (fun x => by
    cases x <;> rfl) fun c => (connMove_eq c).2.2.1]
  exact (Net.books local_net h .gateway).serverGot_isPrefix k

theorem maint_reads (j : ℕ) : Worker.bytesRead (onLink j (maintOuts tr)) = [] ∨
    ∃ k, (w.2 .gateway).conn k = j ∧ Worker.bytesRead (onLink j (maintOuts tr)) <+:
      Connections.acceptedBytes (Connections.onConnection k (served .gateway tr)) := by
  simp only [← serverSent_eq]
  rw [Worker.bytesRead, ← maint_session j tr (g := clientRead) (fun x => by
    cases x <;> rfl) fun c => (connMove_eq c).2.2.2]
  exact (Net.books local_net h .gateway).clientGot_matched j

/-- A terminal has read a beginning of what the socket of its termd took. -/
theorem lock_reads (slot : Slot) (j : ℕ) : Worker.bytesRead (onLink j (lockOuts slot tr)) = [] ∨
    ∃ k, (w.2 (.termd slot)).conn k = j ∧ Worker.bytesRead (onLink j (lockOuts slot tr)) <+:
      Connections.acceptedBytes (Connections.onConnection k (served (.termd slot) tr)) := by
  simp only [← serverSent_eq]
  rw [Worker.bytesRead, ← lock_session j tr (g := clientRead) slot (fun x => by
    cases x <;> rfl) fun c => (connMove_eq c).2.2.2]
  exact (Net.books local_net h (.termd slot)).clientGot_matched j

end Runs

end Fleetcore.Deployment
