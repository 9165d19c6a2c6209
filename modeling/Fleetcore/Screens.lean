import Fleetcore.Lib.Threads
import Fleetcore.SocketWorkers
import Mathlib.Data.List.GetD

/-!
The two screens (`term_gui/lock_window.cpp`, `maint_gui/maint_window.cpp` and the
two `main.cpp`).

Each program has a worker in a thread of its own and a window in the other one.
Signals of the worker are queued for the window and calls of the window for the
worker, so that a window shows what its worker was like some time ago.
-/

namespace Fleetcore

open ByteOrder StateMachine Threads

/-! ### The terminal -/

/-- What the terminal shows in large letters, and below. -/
inductive Face where
  | unlocked
  | locked (termNo : TermNo) (seq : UInt16) (timestamp : UInt64)
  deriving DecidableEq, Repr

structure LockWindow where
  face : Face
  link : Bool
  /-- `aboutToQuit` has been emitted. -/
  closing : Bool
  deriving DecidableEq, Repr

namespace LockWindow

def onLinkStateChanged (v : LockWindow) (connected : Bool) : LockWindow :=
  { v with link := connected }

def init : LockWindow := onLinkStateChanged ⟨.unlocked, false, false⟩ false

def onLockReceived (v : LockWindow) (req : LockRequest) : LockWindow :=
  { v with face := .locked req.termNo req.header.seq req.header.timestamp }

def onUnlockPressed (v : LockWindow) : LockWindow := { v with face := .unlocked }

inductive Use where
  | unlockPressed
  | aboutToQuit
  deriving DecidableEq, Repr

def display (v : LockWindow) (s : Signal LockRequest) : Option LockWindow :=
  if v.closing then none
  else
    match s with
    | .received req => some (v.onLockReceived req)
    | .linkStateChanged connected => some (v.onLinkStateChanged connected)
    | .logLine _ => some v

def use (v : LockWindow) : Use → Option (LockWindow × List CommWorker.Call)
  | .unlockPressed => if v.closing then none else some (v.onUnlockPressed, [])
  | .aboutToQuit => if v.closing then none else some ({ v with closing := true }, [.stop])

end LockWindow

def Out.signal? {M : Type} : Out M → Option (Signal M)
  | .signal s => some s
  | _ => none

def lockScreen (e : Endian) : Threads.Program CommWorker LockWindow Happening Unit
    CommWorker.Call LockWindow.Use (Signal LockRequest) (Out LockRequest) where
  work := CommWorker.react e
  call := fun w c _ => some (w.call c)
  signal := Out.signal?
  display := LockWindow.display
  use := LockWindow.use

abbrev LockScreen := Threads.State CommWorker LockWindow CommWorker.Call (Signal LockRequest)

def LockScreen.init (port : UInt16) : LockScreen :=
  State.init (Worker.init "127.0.0.1" port) LockWindow.init

/-! ### The maintenance screen -/

structure MaintWindow where
  /-- The current row of the terminal list. -/
  termSelect : ℕ
  lockEnabled : Bool
  link : Bool
  log : List LogLine
  closing : Bool
  deriving DecidableEq, Repr

namespace MaintWindow

/-- The rows of the terminal list: 1001 and 1002. -/
def items : List (List UInt8) := [[0x31, 0x30, 0x30, 0x31], [0x31, 0x30, 0x30, 0x32]]

def currentText (v : MaintWindow) : List UInt8 := items.getD v.termSelect []

def onLogLine (v : MaintWindow) (line : LogLine) : MaintWindow := { v with log := v.log ++ [line] }

def onAckReceived (v : MaintWindow) (rsp : LockResponse) : MaintWindow :=
  v.onLogLine (.ack rsp.termNo rsp.header.seq rsp.result)

def onLinkStateChanged (v : MaintWindow) (connected : Bool) : MaintWindow :=
  { v with link := connected, lockEnabled := connected }

def init : MaintWindow := onLinkStateChanged ⟨0, true, false, [], false⟩ false

inductive Use where
  | choose (row : ℕ)
  | lockClicked
  | aboutToQuit
  deriving DecidableEq, Repr

def display (v : MaintWindow) (s : Signal LockResponse) : Option MaintWindow :=
  if v.closing then none
  else
    match s with
    | .received rsp => some (v.onAckReceived rsp)
    | .linkStateChanged connected => some (v.onLinkStateChanged connected)
    | .logLine line => some (v.onLogLine line)

/-- A button that is not enabled cannot be clicked. -/
def use (v : MaintWindow) : Use → Option (MaintWindow × List MaintWorker.Call)
  | .choose row =>
      if v.closing ∨ items.length ≤ row then none else some ({ v with termSelect := row }, [])
  | .lockClicked =>
      if v.closing ∨ v.lockEnabled = false then none else some (v, [.sendLock v.currentText])
  | .aboutToQuit => if v.closing then none else some ({ v with closing := true }, [.stop])

end MaintWindow

def maintScreen (e : Endian) : Threads.Program MaintWorker MaintWindow Happening
    MaintWorker.Moment MaintWorker.Call MaintWindow.Use (Signal LockResponse)
    (Out LockResponse) where
  work := MaintWorker.react e
  call := fun w c j => some (w.call e j c)
  signal := Out.signal?
  display := MaintWindow.display
  use := MaintWindow.use

abbrev MaintScreen := Threads.State MaintWorker MaintWindow MaintWorker.Call (Signal LockResponse)

def MaintScreen.init : MaintScreen :=
  State.init (MaintWorker.init "127.0.0.1" gatewayPort) MaintWindow.init

/-! ### What the workers do with a task -/

namespace CommWorker

inductive Serves (e : Endian) (w : CommWorker) : CommWorker → List (Out LockRequest) → Prop
  | reacts {a w' es} (h : Worker.Reacts false (handleMessage e) w a w' es) : Serves e w w' es
  | stops {w' es} (h : Worker.Stops false w w' es) : Serves e w w' es

theorem serves {e : Endian} {w w' : CommWorker} {t : Task Happening Call Unit}
    {es : List (Out LockRequest)} (h : (lockScreen e).serve w t = some (w', es)) :
    Serves e w w' es := by
  cases t with
  | event i => exact .reacts (Worker.react_cases (judges_receiveMessage e _ _) h)
  | call c j =>
      cases c
      exact .stops (Worker.stops_of_stop (Option.some.inj h))

end CommWorker

namespace MaintWorker

def request (w : MaintWorker) (raw : List UInt8) (j : Moment) : LockRequest :=
  makeLockRequest (TermNo.ofBytes raw) w.nextSeq j.now

inductive Sends (w : MaintWorker) (raw : List UInt8) (j : Moment) :
    MaintWorker → List (Out LockResponse) → Prop
  | notConnected (hs : w.socket ≠ some .connected) : Sends w raw j w [log .notConnected]
  | badNumber (hs : w.socket = some .connected) (hlen : raw.length ≠ 4) :
      Sends w raw j w [log .badNumber]
  | short (hs : w.socket = some .connected) (hlen : raw.length = 4)
      (ht : j.taken ≠ LockRequest.size) :
      Sends w raw j w [.wrote (w.request raw j).wire j.taken, log .shortWrite]
  | sent (hs : w.socket = some .connected) (hlen : raw.length = 4)
      (ht : j.taken = LockRequest.size) :
      Sends w raw j { w with nextSeq := w.nextSeq + 1 }
        [.wrote (w.request raw j).wire LockRequest.size, log (.lockSent raw w.nextSeq)]

theorem sends_of_sendLock {e : Endian} {w w' : MaintWorker} {raw : List UInt8} {j : Moment}
    {es : List (Out LockResponse)} (h : w.sendLock e raw j = (w', es)) : Sends w raw j w' es := by
  have hpack : packLockRequest e (w.request raw j) outBuffer =
      (LockRequest.size, (w.request raw j).wire ++ outBuffer.drop LockRequest.size) :=
    packLockRequest_eq e _ (by simp [LockRequest.size, maxMessageLen])
  have hwire : ((w.request raw j).wire ++ outBuffer.drop LockRequest.size).take LockRequest.size =
      (w.request raw j).wire := List.take_left' (LockRequest.length_wire _)
  have hsize : LockRequest.size ≠ 0 := by decide
  simp only [sendLock] at h
  rw [← request, hpack] at h
  simp only [hsize, if_false, hwire, LockRequest.length_wire] at h
  split_ifs at h with hs hlen ht
  · obtain ⟨rfl, rfl⟩ := Prod.mk.inj h
    exact .notConnected hs
  · obtain ⟨rfl, rfl⟩ := Prod.mk.inj h
    exact .badNumber (not_not.mp hs) hlen
  · obtain ⟨rfl, rfl⟩ := Prod.mk.inj h
    exact .short (not_not.mp hs) (not_not.mp hlen) ht
  · obtain ⟨rfl, rfl⟩ := Prod.mk.inj h
    rw [not_not.mp ht]
    exact .sent (not_not.mp hs) (not_not.mp hlen) (not_not.mp ht)

inductive Serves (e : Endian) (w : MaintWorker) :
    Task Happening Call Moment → MaintWorker → List (Out LockResponse) → Prop
  | reacts {a v es} (h : Worker.Reacts true (handleMessage e) w.toWorker a v es) :
      Serves e w (.event a) { w with toWorker := v } es
  | stops {j v es} (h : Worker.Stops true w.toWorker v es) :
      Serves e w (.call .stop j) { w with toWorker := v } es
  | sends {raw j w' es} (h : Sends w raw j w' es) : Serves e w (.call (.sendLock raw) j) w' es

theorem serves {e : Endian} {w w' : MaintWorker} {t : Task Happening Call Moment}
    {es : List (Out LockResponse)} (h : (maintScreen e).serve w t = some (w', es)) :
    Serves e w t w' es := by
  cases t with
  | event a =>
      obtain ⟨⟨v, os⟩, hr, heq⟩ := Option.map_eq_some_iff.mp h
      obtain ⟨rfl, rfl⟩ := Prod.mk.inj heq
      exact .reacts (Worker.react_cases (judges_receiveMessage e _ _) hr)
  | call c j =>
      cases c with
      | sendLock raw => exact .sends (sends_of_sendLock (Option.some.inj h))
      | stop =>
          obtain ⟨rfl, rfl⟩ := Prod.mk.inj (Option.some.inj h)
          exact .stops (Worker.stops_of_stop rfl)

end MaintWorker

/-! ### What a window shows -/

section Following

variable {M : Type}

def Signal.message? : Signal M → Option M
  | .received m => some m
  | _ => none

theorem received_eq (os : List (Out M)) :
    Worker.received os = (os.filterMap Out.signal?).filterMap Signal.message? := by
  rw [List.filterMap_filterMap]
  refine List.filterMap_congr fun o _ => ?_
  cases o with
  | signal x => cases x <;> rfl
  | _ => rfl

theorem emitted_eq (os : List (Out M)) : Worker.emitted os = os.filterMap Out.signal? :=
  List.filterMap_congr fun o _ => by cases o <;> rfl

/-- What a worker signalled last is what its socket is like, when every task keeps it so. -/
theorem link_of_run {W V I J C U : Type} {g : Threads.Program W V I J C U (Signal M) (Out M)}
    (hg : g.signal = Out.signal?) {up : W → Bool}
    (hserve : ∀ w t w' es, g.serve w t = some (w', es) →
      Worker.lastLink (up w) (Worker.emitted es) = up w')
    {w₀ w : W} {ds : List (Deed C (Out M))} (h : Run g.workerMachine Always w₀ ds w)
    (h₀ : up w₀ = false) : Worker.lastLink false (g.signals ds) = up w := by
  rw [signals_eq, hg, ← emitted_eq]
  refine (output_run h).invariant (fun os w => Worker.lastLink false (Worker.emitted os) = up w)
    h₀.symm fun os w t w' es ih _ hs => ?_
  rw [Worker.emitted_append, Worker.lastLink_append, ih]
  exact hserve w t w' es hs

end Following

namespace LockWindow

/-- What replaces what is shown in large letters. -/
def replaces : Input (Signal LockRequest) Use → Bool
  | .shown (.received _) => true
  | .used .unlockPressed => true
  | _ => false

/-- `req` is the last command that was shown, and UNLOCK has not been pressed since. -/
def Standing (bs : List (Input (Signal LockRequest) Use)) (req : LockRequest) : Prop :=
  ∃ pre post, bs = pre ++ .shown (.received req) :: post ∧ ∀ b ∈ post, replaces b = false

theorem not_standing_nil (req : LockRequest) : ¬ Standing [] req := by
  rintro ⟨pre, post, heq, -⟩
  cases pre <;> cases heq

theorem standing_concat {bs : List (Input (Signal LockRequest) Use)}
    {b : Input (Signal LockRequest) Use} {req : LockRequest} : Standing (bs ++ [b]) req ↔
      b = .shown (.received req) ∨ replaces b = false ∧ Standing bs req := by
  constructor
  · rintro ⟨pre, post, heq, hpost⟩
    rcases post.eq_nil_or_concat' with rfl | ⟨post, c, rfl⟩
    · exact .inl (List.singleton_inj.mp (List.append_inj' heq rfl).2)
    · rw [← List.cons_append, ← List.append_assoc] at heq
      obtain ⟨rfl, hb⟩ := List.append_inj' heq rfl
      obtain rfl := List.singleton_inj.mp hb
      refine .inr ⟨hpost b (by simp), pre, post, rfl, fun c hc => hpost c (by simp [hc])⟩
  · rintro (rfl | ⟨hb, pre, post, rfl, hpost⟩)
    · exact ⟨bs, [], rfl, by simp⟩
    · refine ⟨pre, post ++ [b], by simp, fun c hc => ?_⟩
      rcases List.mem_append.mp hc with hc | hc
      · exact hpost c hc
      · rw [List.mem_singleton.mp hc, hb]

/-- What the window shows after it has been given `bs`. -/
structure Shows (bs : List (Input (Signal LockRequest) Use)) (v : LockWindow) : Prop where
  link : v.link = Worker.lastLink false (shown bs)
  locked : ∀ req, Standing bs req → v.face = .locked req.termNo req.header.seq req.header.timestamp
  unlocked : (∀ req, ¬ Standing bs req) → v.face = .unlocked

theorem Shows.init : Shows [] .init where
  link := rfl
  locked := fun req h => absurd h (not_standing_nil req)
  unlocked := fun _ => rfl

theorem Shows.keeps {bs : List (Input (Signal LockRequest) Use)} {v v' : LockWindow}
    {b : Input (Signal LockRequest) Use} (h : Shows bs v) (hb : replaces b = false)
    (hface : v'.face = v.face) (hlink : v'.link = Worker.lastLink v.link (shown [b])) :
    Shows (bs ++ [b]) v' := by
  have hiff : ∀ req, Standing (bs ++ [b]) req ↔ Standing bs req := fun req => by
    rw [standing_concat]
    refine ⟨fun hor => hor.elim (fun heq => ?_) And.right, fun hs => .inr ⟨hb, hs⟩⟩
    rw [heq] at hb
    cases hb
  refine ⟨?_, fun req hs => ?_, fun hnone => ?_⟩
  · rw [hlink, h.link, shown_append, Worker.lastLink_append]
  · rw [hface]
    exact h.locked req ((hiff req).mp hs)
  · rw [hface]
    exact h.unlocked fun req hs => hnone req ((hiff req).mpr hs)

theorem Shows.step {e : Endian} {bs es : List (Input (Signal LockRequest) Use)}
    {v v' : LockWindow} {b : Input (Signal LockRequest) Use} (h : Shows bs v)
    (hs : (lockScreen e).windowStep v b = some (v', es)) : Shows (bs ++ es) v' := by
  cases b with
  | shown x =>
      obtain ⟨_, hd, heq⟩ := Option.map_eq_some_iff.mp hs
      obtain ⟨rfl, rfl⟩ := Prod.mk.inj heq
      simp only [lockScreen, display, Option.ite_none_left_eq_some] at hd
      obtain ⟨-, hd⟩ := hd
      cases x with
      | received req =>
          obtain rfl := Option.some.inj hd
          refine ⟨?_, fun req' hstand => ?_, fun hnone => ?_⟩
          · rw [shown_append, Worker.lastLink_append, ← h.link]
            rfl
          · rcases standing_concat.mp hstand with heq | ⟨hb, -⟩
            · cases heq
              rfl
            · cases hb
          · exact absurd (standing_concat.mpr (.inl rfl)) (hnone req)
      | linkStateChanged connected =>
          obtain rfl := Option.some.inj hd
          exact h.keeps rfl rfl rfl
      | logLine line =>
          obtain rfl := Option.some.inj hd
          exact h.keeps rfl rfl rfl
  | used u =>
      obtain ⟨⟨_, cs⟩, hu, heq⟩ := Option.map_eq_some_iff.mp hs
      obtain ⟨rfl, rfl⟩ := Prod.mk.inj heq
      cases u with
      | unlockPressed =>
          simp only [lockScreen, use, Option.ite_none_left_eq_some, Option.some.injEq,
            Prod.mk.injEq] at hu
          obtain ⟨-, rfl, -⟩ := hu
          refine ⟨?_, fun req hstand => ?_, fun _ => rfl⟩
          · rw [shown_append, Worker.lastLink_append, ← h.link]
            rfl
          · rcases standing_concat.mp hstand with heq | ⟨hb, -⟩
            · cases heq
            · cases hb
      | aboutToQuit =>
          simp only [lockScreen, use, Option.ite_none_left_eq_some, Option.some.injEq,
            Prod.mk.injEq] at hu
          obtain ⟨-, rfl, -⟩ := hu
          exact h.keeps rfl rfl rfl

end LockWindow

namespace CommWorker

theorem Serves.link {e : Endian} {w w' : CommWorker} {es : List (Out LockRequest)}
    (h : Serves e w w' es) : Worker.lastLink w.up (Worker.emitted es) = w'.up := by
  cases h with
  | reacts h => exact h.link
  | stops h => exact h.link

end CommWorker

/-- The terminal's screen follows its worker: with the signals that are still
queued the link shown is the one there is, the commands shown and then the
queued ones are those the worker has taken, and the screen says LOCKED, with the
data of the last command shown, exactly as long as UNLOCK has not been pressed
since. -/
theorem lock_window_follows {e : Endian} {port : UInt16} {s : LockScreen}
    {tr : List (Threads.Event CommWorker.Call (Out LockRequest) (Signal LockRequest)
      LockWindow.Use)} (h : Run (lockScreen e).machine Always (LockScreen.init port) tr s) :
    Worker.lastLink s.window.link s.signals = s.worker.up ∧
      Worker.received (outputs (done tr)) = (shown (given tr)).filterMap Signal.message? ++
        s.signals.filterMap Signal.message? ∧
      (∀ req, LockWindow.Standing (given tr) req →
        s.window.face = .locked req.termNo req.header.seq req.header.timestamp) ∧
      ((∀ req, ¬ LockWindow.Standing (given tr) req) → s.window.face = .unlocked) := by
  have hworker := worker_run_always h
  have hshows : LockWindow.Shows (given tr) s.window :=
    (window_run h).invariant LockWindow.Shows .init fun _ _ _ _ _ ih _ hs => ih.step hs
  have hsignals := signalled_eq h
  refine ⟨?_, ?_, hshows.locked, hshows.unlocked⟩
  · rw [hshows.link, ← Worker.lastLink_append, ← hsignals]
    exact link_of_run rfl (fun _ _ _ _ hs => (CommWorker.serves hs).link) hworker rfl
  · rw [received_eq, ← List.filterMap_append, ← hsignals, signals_eq]
    rfl

/-- A command arrives in two chunks and is shown; that the connection is gone
since then is still queued. -/
theorem lock_window_follows_behind : ∃ tr s,
    Run (lockScreen .little).machine Always (LockScreen.init 9201) tr s ∧
      (s.window.link = true ∧ s.worker.up = false ∧
        s.window.face = .locked ⟨0x31, 0x30, 0x30, 0x31⟩ 7 9) ∧
      Worker.lastLink s.window.link s.signals = s.worker.up := by
  let frame := (makeLockRequest ⟨0x31, 0x30, 0x30, 0x31⟩ 7 9).wire
  obtain ⟨tr, s, hrun, hlast⟩ := (lockScreen .little).machine.exists_run_of_exec Always
    (LockScreen.init 9201)
    [.work .started, .work .connected, .work (.readyRead (frame.take 5)),
      .work (.readyRead (frame.drop 5)), .display, .display, .work .disconnected]
    (fun r => decide (r.1.window.link = true ∧ r.1.worker.up = false ∧
      r.1.window.face = .locked ⟨0x31, 0x30, 0x30, 0x31⟩ 7 9))
    (by decide +kernel) (by decide +kernel)
  exact ⟨tr, s, hrun, of_decide_eq_true hlast, (lock_window_follows hrun).1⟩

def Signal.line? : Signal LockResponse → Option LogLine
  | .logLine line => some line
  | .received rsp => some (.ack rsp.termNo rsp.header.seq rsp.result)
  | .linkStateChanged _ => none

namespace MaintWindow

/-- What the window shows after it has been given `bs`. -/
structure Shows (bs : List (Input (Signal LockResponse) Use)) (v : MaintWindow) : Prop where
  link : v.link = Worker.lastLink false (shown bs)
  enabled : v.lockEnabled = v.link
  log : v.log = (shown bs).filterMap Signal.line?
  row : v.termSelect < items.length

theorem Shows.init : Shows [] .init := ⟨rfl, rfl, rfl, by decide⟩

theorem Shows.display {bs : List (Input (Signal LockResponse) Use)} {v v' : MaintWindow}
    {x : Signal LockResponse} (h : Shows bs v) (hlink : v'.link = Worker.lastLink v.link [x])
    (henabled : v'.lockEnabled = v'.link) (hlog : v'.log = v.log ++ x.line?.toList)
    (hrow : v'.termSelect = v.termSelect) : Shows (bs ++ [.shown x]) v' := by
  refine ⟨?_, henabled, ?_, hrow ▸ h.row⟩
  · rw [hlink, h.link, shown_append, Worker.lastLink_append]
    rfl
  · rw [hlog, h.log, shown_append, List.filterMap_append]
    cases hx : x.line? <;> simp [hx]

theorem Shows.used {bs : List (Input (Signal LockResponse) Use)} {v v' : MaintWindow} {u : Use}
    (h : Shows bs v) (hlink : v'.link = v.link) (henabled : v'.lockEnabled = v.lockEnabled)
    (hlog : v'.log = v.log) (hrow : v'.termSelect < items.length) :
    Shows (bs ++ [.used u]) v' := by
  have hshown : shown (bs ++ [.used u]) = shown bs := by rw [shown_append]; simp
  exact ⟨by rw [hlink, hshown, h.link], by rw [henabled, hlink, h.enabled],
    by rw [hlog, hshown, h.log], hrow⟩

inductive Uses (v : MaintWindow) : Use → MaintWindow → List MaintWorker.Call → Prop
  | choose {row : ℕ} (hrow : row < items.length) :
      Uses v (.choose row) { v with termSelect := row } []
  | lockClicked (h : v.lockEnabled = true) : Uses v .lockClicked v [.sendLock v.currentText]
  | aboutToQuit : Uses v .aboutToQuit { v with closing := true } [.stop]

theorem uses_of_use {v v' : MaintWindow} {u : Use} {cs : List MaintWorker.Call}
    (h : v.use u = some (v', cs)) : Uses v u v' cs := by
  cases u with
  | choose row =>
      simp only [use, Option.ite_none_left_eq_some, not_or, not_le, Option.some.injEq,
        Prod.mk.injEq] at h
      obtain ⟨⟨-, hrow⟩, rfl, rfl⟩ := h
      exact .choose hrow
  | lockClicked =>
      simp only [use, Option.ite_none_left_eq_some, not_or, Bool.not_eq_false, Option.some.injEq,
        Prod.mk.injEq] at h
      obtain ⟨⟨-, henabled⟩, rfl, rfl⟩ := h
      exact .lockClicked henabled
  | aboutToQuit =>
      simp only [use, Option.ite_none_left_eq_some, Option.some.injEq, Prod.mk.injEq] at h
      obtain ⟨-, rfl, rfl⟩ := h
      exact .aboutToQuit

theorem Shows.step {e : Endian} {bs es : List (Input (Signal LockResponse) Use)}
    {v v' : MaintWindow} {b : Input (Signal LockResponse) Use} (h : Shows bs v)
    (hs : (maintScreen e).windowStep v b = some (v', es)) : Shows (bs ++ es) v' := by
  cases b with
  | shown x =>
      obtain ⟨_, hd, heq⟩ := Option.map_eq_some_iff.mp hs
      obtain ⟨rfl, rfl⟩ := Prod.mk.inj heq
      simp only [maintScreen, MaintWindow.display, Option.ite_none_left_eq_some] at hd
      obtain ⟨-, hd⟩ := hd
      cases x with
      | received rsp =>
          obtain rfl := Option.some.inj hd
          exact h.display rfl h.enabled rfl rfl
      | linkStateChanged connected =>
          obtain rfl := Option.some.inj hd
          exact h.display rfl rfl (List.append_nil _).symm rfl
      | logLine line =>
          obtain rfl := Option.some.inj hd
          exact h.display rfl h.enabled rfl rfl
  | used u =>
      obtain ⟨⟨_, cs⟩, hu, heq⟩ := Option.map_eq_some_iff.mp hs
      obtain ⟨rfl, rfl⟩ := Prod.mk.inj heq
      cases uses_of_use hu with
      | choose hrow => exact h.used rfl rfl rfl hrow
      | lockClicked => exact h.used rfl rfl rfl h.row
      | aboutToQuit => exact h.used rfl rfl rfl h.row

end MaintWindow

namespace MaintWorker

theorem Serves.link {e : Endian} {w w' : MaintWorker} {t : Task Happening Call Moment}
    {es : List (Out LockResponse)} (h : Serves e w t w' es) :
    Worker.lastLink w.up (Worker.emitted es) = w'.up := by
  cases h with
  | reacts h => exact h.link
  | stops h => exact h.link
  | sends h => cases h <;> rfl

end MaintWorker

namespace MaintWindow

/-- A command is asked for while the window shows the link as up, and for one of
the terminals listed. -/
def Asks (pre : List (Threads.Event MaintWorker.Call (Out LockResponse) (Signal LockResponse) Use))
    (ev : Threads.Event MaintWorker.Call (Out LockResponse) (Signal LockResponse) Use) : Prop :=
  ∀ raw, ev = .issued (.sendLock raw) →
    Worker.lastLink false (shown (given pre)) = true ∧ raw ∈ items

variable {e : Endian} {s s' : MaintScreen}
  {tr es : List (Threads.Event MaintWorker.Call (Out LockResponse) (Signal LockResponse) Use)}

theorem atEach_asks_of_not_mem (h : ∀ c, .issued c ∉ es) :
    AtEach (fun pre ev => Asks (tr ++ pre) ev) es := by
  intro n ev hn raw hev
  subst hev
  exact absurd (List.mem_of_getElem? hn) (h _)

theorem Asks.step {a : Threads.Action Happening MaintWorker.Moment Use}
    (h : Shows (given tr) s.window) (hs : (maintScreen e).step s a = some (s', es)) :
    AtEach (fun pre ev => Asks (tr ++ pre) ev) es := by
  cases step_cases hs with
  | work hw => exact atEach_asks_of_not_mem (by simp)
  | call hc hw => exact atEach_asks_of_not_mem (by simp)
  | display hx hv => exact atEach_asks_of_not_mem (by simp)
  | @use u v cs hu =>
      cases uses_of_use hu with
      | choose hrow => exact atEach_asks_of_not_mem (by simp)
      | aboutToQuit =>
          refine AtEach.nil.snoc (fun _ hev => by cases hev) |>.snoc fun _ hev => by cases hev
      | lockClicked henabled =>
          refine AtEach.nil.snoc (fun _ hev => by cases hev) |>.snoc fun raw hev => ?_
          cases hev
          constructor
          · -- the button is enabled exactly while the link is shown as up
            rw [given_append, shown_append, List.nil_append, given_window, given_nil, shown_used,
              shown_nil, List.append_nil, ← h.link, ← h.enabled, henabled]
          · rw [currentText, List.getD_eq_getElem _ _ h.row]
            exact List.getElem_mem _

end MaintWindow

section Runs

variable {e : Endian} {ok : MaintScreen → Threads.Action Happening MaintWorker.Moment
    MaintWindow.Use → Prop} {s : MaintScreen}
  {tr : List (Threads.Event MaintWorker.Call (Out LockResponse) (Signal LockResponse)
    MaintWindow.Use)} (h : Run (maintScreen e).machine ok MaintScreen.init tr s)

include h

theorem MaintWindow.shows_of_run : MaintWindow.Shows (given tr) s.window :=
  (window_run h).invariant MaintWindow.Shows .init fun _ _ _ _ _ ih _ hs => ih.step hs

/-- The log has the lines of the worker, as far as they have been shown. -/
theorem MaintScreen.lines_eq : (Worker.emitted (outputs (done tr))).filterMap Signal.line? =
    s.window.log ++ s.signals.filterMap Signal.line? := by
  rw [emitted_eq, (MaintWindow.shows_of_run h).log, ← List.filterMap_append, ← signalled_eq h,
    signals_eq]
  rfl

theorem MaintWindow.asks_of_run : AtEach MaintWindow.Asks tr := by
  induction h with
  | start => exact .nil
  | snoc hrun _ hs ih => exact ih.append (Asks.step (shows_of_run hrun) hs)

end Runs

/-- The maintenance screen follows its worker: with the signals that are still
queued the link shown is the one there is, the button is enabled exactly while
the link is shown as up, and the log has the lines of the worker in order. A
command is asked for only while the link is shown as up. -/
theorem maint_window_follows {e : Endian} {s : MaintScreen}
    {tr : List (Threads.Event MaintWorker.Call (Out LockResponse) (Signal LockResponse)
      MaintWindow.Use)} (h : Run (maintScreen e).machine Always MaintScreen.init tr s) :
    Worker.lastLink s.window.link s.signals = s.worker.up ∧
      s.window.lockEnabled = s.window.link ∧
      (Worker.emitted (outputs (done tr))).filterMap Signal.line? =
        s.window.log ++ s.signals.filterMap Signal.line? ∧
      AtEach MaintWindow.Asks tr := by
  have hworker := worker_run_always h
  have hshows := MaintWindow.shows_of_run h
  refine ⟨?_, hshows.enabled, MaintScreen.lines_eq h, MaintWindow.asks_of_run h⟩
  rw [hshows.link, ← Worker.lastLink_append, ← signalled_eq h]
  exact link_of_run rfl (fun _ _ _ _ hs => (MaintWorker.serves hs).link) hworker rfl

/-- A click while the window still shows a link that is gone: the command is
dropped, and the line that says so is queued. -/
theorem maint_window_follows_behind : ∃ tr s,
    Run (maintScreen .little).machine Always MaintScreen.init tr s ∧
      s.window.log = [.connecting "127.0.0.1" gatewayPort, .connected] ∧
      (Worker.emitted (outputs (done tr))).filterMap Signal.line? =
        s.window.log ++ [.disconnected, .notConnected] := by
  obtain ⟨tr, s, hrun, hlast⟩ := (maintScreen .little).machine.exists_run_of_exec Always
    MaintScreen.init
    [.work .started, .work .connected, .display, .display, .display, .use (.choose 1),
      .work .disconnected, .use .lockClicked, .call ⟨0, 24⟩]
    (fun r => decide (r.1.window.log = [.connecting "127.0.0.1" gatewayPort, .connected] ∧
      r.1.signals.filterMap Signal.line? = [.disconnected, .notConnected]))
    (by decide +kernel) (by decide +kernel)
  obtain ⟨hlog, hqueued⟩ := of_decide_eq_true hlast
  exact ⟨tr, s, hrun, hlog, hqueued ▸ (maint_window_follows hrun).2.2.1⟩

/-! ### Trying again -/

theorem Worker.Retries.init {M : Type} (Idle : Out M → Prop) (host : String) (port : UInt16) :
    Worker.Retries Idle [] (Worker.init host port) where
  few := Nat.zero_le _
  waiting := fun ht => absurd ht (Nat.lt_irrefl 0)
  ending := .inl ⟨by simp, fun hw => by cases hw.1⟩

end Fleetcore
