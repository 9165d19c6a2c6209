import Fleetcore.Lib.StateMachine

/-!
A worker and a window in two threads.

The worker reacts to events of its own and carries out calls, the window shows
what it is told and is used from outside. The two share nothing: what the
worker signals to the window and what the window asks of the worker is queued,
each in order, and taken up by the other thread when it gets there.

A run of the two is at the same time a run of the worker alone
(`worker_run`) and a run of the window alone (`window_run`), tied together by
the two queues: what has been signalled is what has been shown and then what is
still queued (`signalled_eq`), and the same holds of the calls (`issued_eq`).
-/

namespace Threads

open StateMachine

variable {W V I J C U G O : Type*}

/-- What the worker has to do: handle an event, or carry out a call. What a call
is told when it is carried out is its second argument. -/
inductive Task (I C J : Type*) where
  | event (i : I)
  | call (c : C) (j : J)

inductive Deed (C O : Type*) where
  | called (c : C)
  | did (o : O)
  deriving DecidableEq

def Task.noted : Task I C J → List (Deed C O)
  | .event _ => []
  | .call c _ => [.called c]

inductive Input (G U : Type*) where
  | shown (g : G)
  | used (u : U)
  deriving DecidableEq

/-- A worker with states `W`, events `I`, calls `C` and outputs `O`, some of
them signals `G` to a window with states `V` and uses `U`. -/
structure Program (W V I J C U G O : Type*) where
  work : W → I → Option (W × List O)
  call : W → C → J → Option (W × List O)
  signal : O → Option G
  display : V → G → Option V
  use : V → U → Option (V × List C)

structure State (W V C G : Type*) where
  worker : W
  window : V
  signals : List G
  calls : List C

inductive Action (I J U : Type*) where
  | work (i : I)
  | call (j : J)
  | display
  | use (u : U)

inductive Event (C O G U : Type*) where
  | worker (d : Deed C O)
  | window (b : Input G U)
  | issued (c : C)
  deriving DecidableEq

namespace Program

variable (g : Program W V I J C U G O)

def serve (w : W) : Task I C J → Option (W × List O)
  | .event i => g.work w i
  | .call c j => g.call w c j

def outputMachine : Machine W (Task I C J) O := ⟨g.serve⟩

/-- The worker on its own; that a call is carried out is noted first. -/
def workerStep (w : W) (t : Task I C J) : Option (W × List (Deed C O)) :=
  (g.serve w t).map fun r => (r.1, t.noted ++ r.2.map .did)

def workerMachine : Machine W (Task I C J) (Deed C O) := ⟨g.workerStep⟩

def windowStep (v : V) : Input G U → Option (V × List (Input G U))
  | .shown x => (g.display v x).map fun v' => (v', [.shown x])
  | .used u => (g.use v u).map fun r => (r.1, [.used u])

def windowMachine : Machine V (Input G U) (Input G U) := ⟨g.windowStep⟩

def signals (ds : List (Deed C O)) : List G :=
  ds.filterMap fun
    | .did o => g.signal o
    | .called _ => none

def step (s : State W V C G) : Action I J U → Option (State W V C G × List (Event C O G U))
  | .work i =>
      match g.workerStep s.worker (.event i) with
      | none => none
      | some (w, ds) =>
          some ({ s with worker := w, signals := s.signals ++ g.signals ds }, ds.map .worker)
  | .call j =>
      match s.calls with
      | [] => none
      | c :: cs =>
          match g.workerStep s.worker (.call c j) with
          | none => none
          | some (w, ds) =>
              some (⟨w, s.window, s.signals ++ g.signals ds, cs⟩, ds.map .worker)
  | .display =>
      match s.signals with
      | [] => none
      | x :: xs =>
          match g.display s.window x with
          | none => none
          | some v => some ({ s with window := v, signals := xs }, [.window (.shown x)])
  | .use u =>
      match g.use s.window u with
      | none => none
      | some (v, cs) =>
          some ({ s with window := v, calls := s.calls ++ cs },
            .window (.used u) :: cs.map .issued)

def machine : Machine (State W V C G) (Action I J U) (Event C O G U) := ⟨g.step⟩

end Program

/-- A step in which the worker does not carry out the call `c`. -/
def Spares (c : C) (s : State W V C G) : Action I J U → Prop
  | .call _ => s.calls.head? ≠ some c
  | _ => True

instance Spares.decidable [DecidableEq C] (c : C) (s : State W V C G) :
    ∀ a : Action I J U, Decidable (Spares c s a)
  | .call _ => inferInstanceAs (Decidable (_ ≠ _))
  | .work _ => isTrue trivial
  | .display => isTrue trivial
  | .use _ => isTrue trivial

def State.init (w : W) (v : V) : State W V C G := ⟨w, v, [], []⟩

/-! ### Views of a trace -/

def done (tr : List (Event C O G U)) : List (Deed C O) :=
  tr.filterMap fun
    | .worker d => some d
    | _ => none

def given (tr : List (Event C O G U)) : List (Input G U) :=
  tr.filterMap fun
    | .window b => some b
    | _ => none

def issued (tr : List (Event C O G U)) : List C :=
  tr.filterMap fun
    | .issued c => some c
    | _ => none

def called (ds : List (Deed C O)) : List C :=
  ds.filterMap fun
    | .called c => some c
    | .did _ => none

def outputs (ds : List (Deed C O)) : List O :=
  ds.filterMap fun
    | .did o => some o
    | .called _ => none

def outputIn : Event C O G U → Option O
  | .worker (.did o) => some o
  | _ => none

def shown (bs : List (Input G U)) : List G :=
  bs.filterMap fun
    | .shown x => some x
    | .used _ => none

/-! ### What one step can do -/

inductive Step (g : Program W V I J C U G O) (s : State W V C G) :
    Action I J U → State W V C G → List (Event C O G U) → Prop
  | work {i w ds} (h : g.workerStep s.worker (.event i) = some (w, ds)) :
      Step g s (.work i) ⟨w, s.window, s.signals ++ g.signals ds, s.calls⟩ (ds.map .worker)
  | call {j c cs w ds} (hc : s.calls = c :: cs)
      (h : g.workerStep s.worker (.call c j) = some (w, ds)) :
      Step g s (.call j) ⟨w, s.window, s.signals ++ g.signals ds, cs⟩ (ds.map .worker)
  | display {x xs v} (hx : s.signals = x :: xs) (h : g.display s.window x = some v) :
      Step g s .display ⟨s.worker, v, xs, s.calls⟩ [.window (.shown x)]
  | use {u v cs} (h : g.use s.window u = some (v, cs)) :
      Step g s (.use u) ⟨s.worker, v, s.signals, s.calls ++ cs⟩
        (.window (.used u) :: cs.map .issued)

theorem step_cases {g : Program W V I J C U G O} {s s' : State W V C G} {a : Action I J U}
    {es : List (Event C O G U)} (h : g.step s a = some (s', es)) : Step g s a s' es := by
  cases a with
  | work i =>
      simp only [Program.step] at h
      split at h
      · cases h
      · next w ds hw =>
          obtain ⟨rfl, rfl⟩ := Prod.mk.inj (Option.some.inj h)
          exact .work hw
  | call j =>
      simp only [Program.step] at h
      split at h
      · cases h
      · next c cs hc =>
          split at h
          · cases h
          · next w ds hw =>
              obtain ⟨rfl, rfl⟩ := Prod.mk.inj (Option.some.inj h)
              exact .call hc hw
  | display =>
      simp only [Program.step] at h
      split at h
      · cases h
      · next x xs hx =>
          split at h
          · cases h
          · next v hv =>
              obtain ⟨rfl, rfl⟩ := Prod.mk.inj (Option.some.inj h)
              exact .display hx hv
  | use u =>
      simp only [Program.step] at h
      split at h
      · cases h
      · next v cs hu =>
          obtain ⟨rfl, rfl⟩ := Prod.mk.inj (Option.some.inj h)
          exact .use hu

section Views

variable (ds : List (Deed C O)) (cs : List C) (os : List O)
  (b : Input G U) (tr tr' : List (Event C O G U))

@[simp] theorem done_append : done (tr ++ tr') = done tr ++ done tr' := List.filterMap_append

@[simp] theorem given_append : given (tr ++ tr') = given tr ++ given tr' := List.filterMap_append

@[simp] theorem issued_append : issued (tr ++ tr') = issued tr ++ issued tr' :=
  List.filterMap_append

@[simp] theorem done_map_worker : done (ds.map .worker : List (Event C O G U)) = ds :=
  view_map_some Event.worker (fun _ => rfl) _

@[simp] theorem given_map_worker : given (ds.map .worker : List (Event C O G U)) = [] :=
  view_map_none (fun _ => rfl) _

@[simp] theorem issued_map_worker : issued (ds.map .worker : List (Event C O G U)) = [] :=
  view_map_none (fun _ => rfl) _

@[simp] theorem done_window : done (.window b :: tr) = done tr := rfl

@[simp] theorem given_window : given (.window b :: tr) = b :: given tr := rfl

@[simp] theorem issued_window : issued (.window b :: tr) = issued tr := rfl

@[simp] theorem done_map_issued : done (cs.map .issued : List (Event C O G U)) = [] :=
  view_map_none (fun _ => rfl) _

@[simp] theorem given_map_issued : given (cs.map .issued : List (Event C O G U)) = [] :=
  view_map_none (fun _ => rfl) _

@[simp] theorem issued_map_issued : issued (cs.map .issued : List (Event C O G U)) = cs :=
  view_map_some Event.issued (fun _ => rfl) _

@[simp] theorem done_nil : done ([] : List (Event C O G U)) = [] := rfl

@[simp] theorem given_nil : given ([] : List (Event C O G U)) = [] := rfl

@[simp] theorem issued_nil : issued ([] : List (Event C O G U)) = [] := rfl

@[simp] theorem called_append (ds' : List (Deed C O)) :
    called (ds ++ ds') = called ds ++ called ds' := List.filterMap_append

@[simp] theorem called_called (c : C) : called (.called c :: ds) = c :: called ds := rfl

@[simp] theorem called_map_did : called (os.map .did : List (Deed C O)) = [] :=
  view_map_none (fun _ => rfl) _

@[simp] theorem shown_append (bs bs' : List (Input G U)) :
    shown (bs ++ bs') = shown bs ++ shown bs' := List.filterMap_append

@[simp] theorem shown_shown (x : G) (bs : List (Input G U)) :
    shown (.shown x :: bs) = x :: shown bs := rfl

@[simp] theorem shown_used (u : U) (bs : List (Input G U)) :
    shown (.used u :: bs) = shown bs := rfl

@[simp] theorem shown_nil : shown ([] : List (Input G U)) = [] := rfl

@[simp] theorem signals_append (g : Program W V I J C U G O) (ds' : List (Deed C O)) :
    g.signals (ds ++ ds') = g.signals ds ++ g.signals ds' := List.filterMap_append

@[simp] theorem signals_nil (g : Program W V I J C U G O) : g.signals [] = [] := rfl

@[simp] theorem outputs_append (ds' : List (Deed C O)) :
    outputs (ds ++ ds') = outputs ds ++ outputs ds' := List.filterMap_append

@[simp] theorem outputs_called (c : C) : outputs (.called c :: ds) = outputs ds := rfl

@[simp] theorem outputs_map_did : outputs (os.map .did : List (Deed C O)) = os :=
  view_map_some Deed.did (fun _ => rfl) _

@[simp] theorem outputs_nil : outputs ([] : List (Deed C O)) = [] := rfl

theorem outputs_done : outputs (done tr) = tr.filterMap outputIn := by
  rw [outputs, done, List.filterMap_filterMap]
  refine List.filterMap_congr fun ev _ => ?_
  cases ev with
  | worker d => cases d <;> rfl
  | _ => rfl

theorem signals_eq (g : Program W V I J C U G O) :
    g.signals ds = (outputs ds).filterMap g.signal := by
  induction ds with
  | nil => rfl
  | cons d ds ih =>
      cases d with
      | called c => exact ih
      | did o =>
          have hs : g.signals (.did o :: ds) = (g.signal o).toList ++ g.signals ds := by
            cases ho : g.signal o <;> simp [Program.signals, ho]
          have ho : outputs (.did o :: ds : List (Deed C O)) = o :: outputs ds := rfl
          rw [hs, ho, ih]
          cases ho : g.signal o <;> simp [ho]

theorem serve_of_workerStep {g : Program W V I J C U G O} {w w' : W} {t : Task I C J}
    (h : g.workerStep w t = some (w', ds)) :
    g.serve w t = some (w', outputs ds) ∧ called ds = called (t.noted : List (Deed C O)) := by
  simp only [Program.workerStep, Option.map_eq_some_iff, Prod.mk.injEq] at h
  obtain ⟨r, hr, rfl, rfl⟩ := h
  rw [called_append, called_map_did, List.append_nil]
  refine ⟨?_, rfl⟩
  cases t <;> simpa [Task.noted] using hr

theorem called_of_call {g : Program W V I J C U G O} {w w' : W} {c : C} {j : J}
    (h : g.workerStep w (.call c j) = some (w', ds)) : called ds = [c] :=
  (serve_of_workerStep ds h).2

theorem called_of_event {g : Program W V I J C U G O} {w w' : W} {i : I}
    (h : g.workerStep w (.event i) = some (w', ds)) : called ds = [] :=
  (serve_of_workerStep ds h).2

end Views

/-! ### Runs -/

section Runs

variable {g : Program W V I J C U G O} {ok : State W V C G → Action I J U → Prop} {w₀ : W} {v₀ : V}
  {s : State W V C G} {tr : List (Event C O G U)} (h : Run g.machine ok (State.init w₀ v₀) tr s)

include h

theorem worker_run {ok' : W → Task I C J → Prop}
    (hwork : ∀ s i, ok s (.work i) → ok' s.worker (.event i))
    (hcall : ∀ s j c cs, ok s (.call j) → s.calls = c :: cs → ok' s.worker (.call c j)) :
    Run g.workerMachine ok' w₀ (done tr) s.worker := by
  refine h.project State.worker _ fun s a s' es hok hs => ?_
  cases step_cases hs with
  | @work i w ds hw =>
      refine .inl ⟨.event i, hwork s i hok, hw.trans ?_⟩
      rw [← done, done_map_worker]
  | @call j c cs w ds hc hw =>
      refine .inl ⟨.call c j, hcall s j c cs hok hc, hw.trans ?_⟩
      rw [← done, done_map_worker]
  | display hx hv => exact .inr ⟨rfl, rfl⟩
  | @use u v cs hu => exact .inr ⟨rfl, by rw [← done, done_window, done_map_issued]⟩

theorem worker_run_always : Run g.workerMachine Always w₀ (done tr) s.worker :=
  worker_run h (fun _ _ _ => trivial) fun _ _ _ _ _ _ => trivial

omit h in
theorem output_run {ok' : W → Task I C J → Prop} {w : W} {ds : List (Deed C O)}
    (h : Run g.workerMachine ok' w₀ ds w) : Run g.outputMachine ok' w₀ (outputs ds) w :=
  h.project id _ fun _ t _ ds hok hs => .inl ⟨t, hok, (serve_of_workerStep ds hs).1⟩

theorem window_run : Run g.windowMachine Always v₀ (given tr) s.window := by
  refine h.project State.window _ fun s a s' es _ hs => ?_
  cases step_cases hs with
  | @work i w ds hw => exact .inr ⟨rfl, by rw [← given, given_map_worker]⟩
  | @call j c cs w ds hc hw => exact .inr ⟨rfl, by rw [← given, given_map_worker]⟩
  | @display x xs v hx hv =>
      refine .inl ⟨.shown x, trivial, ?_⟩
      rw [← given, given_window, given_nil]
      simp [Program.windowMachine, Program.windowStep, hv]
  | @use u v cs hu =>
      refine .inl ⟨.used u, trivial, ?_⟩
      rw [← given, given_window, given_map_issued]
      simp [Program.windowMachine, Program.windowStep, hu]

/-- What the worker has signalled has been shown, or is queued behind that. -/
theorem signalled_eq : g.signals (done tr) = shown (given tr) ++ s.signals := by
  refine h.invariant (fun tr s => g.signals (done tr) = shown (given tr) ++ s.signals) rfl
    fun tr s a s' es ih _ hs => ?_
  rw [done_append, given_append, signals_append, shown_append, ih]
  cases step_cases hs with
  | work hw => simp
  | call hc hw => simp
  | display hx hv => simp [hx]
  | use hu => simp

/-- What the window has asked for has been carried out, or is queued behind that. -/
theorem issued_eq : issued tr = called (done tr) ++ s.calls := by
  refine h.invariant (fun tr s => issued tr = called (done tr) ++ s.calls) rfl
    fun tr s a s' es ih _ hs => ?_
  rw [issued_append, done_append, called_append, ih]
  cases step_cases hs with
  | @work i w ds hw => simp [called_of_event ds hw]
  | @call j c cs w ds hc hw => simp [called_of_call ds hw, hc]
  | @display x xs v hx hv => simp [called]
  | @use u v cs hu => simp [called]

end Runs

end Threads
