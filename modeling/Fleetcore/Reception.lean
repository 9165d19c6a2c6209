import Fleetcore.Draining
import Fleetcore.Screens

/-!
What the screens take off their connections.

Each connection of a screen is a stream of its own: what the worker makes of it
is decided by the bytes it has read there, whatever the chunks, and by nothing
that came before.
-/

namespace Fleetcore

open ByteOrder Framing StateMachine Sessions Threads

namespace Worker

/-! ### The buffer -/

def Fits (w : Worker) : Prop := w.rx.pending < maxMessageLen

theorem fits_of_empty {w : Worker} (h : w.rx = .empty) : w.Fits := by
  rw [Fits, h]
  decide

theorem length_of_parse_pending {d r : List UInt8} (h : (headerFramer.parse d).2 = .pending r) :
    r.length < maxMessageLen := by
  have hwait := Framer.look_of_parse_pending h
  cases hn : (StreamBuffer.mk r).next with
  | none => exact Draining.pending_lt_of_next_none hn
  | some msg =>
      rw [look_of_next hn] at hwait
      split at hwait
      · cases hwait
      · cases hwait

variable {M : Type} {logs : Bool} {handle : List UInt8 → Received M} {w w' : Worker}
  {a : Happening} {es : List (Out M)}

theorem Reacts.fits (h : Reacts logs handle w a w' es) (hw : w.Fits) : w'.Fits := by
  cases h with
  | started hs => exact hw
  | connected hs => exact fits_of_empty rfl
  | failed hs => exact hw
  | disconnected hs => exact fits_of_empty rfl
  | readyRead hs chunk =>
      cases hrest : (headerFramer.parse (w.rx.data ++ chunk)).2 with
      | pending d => exact length_of_parse_pending hrest
      | dead err => exact fits_of_empty rfl
  | redial ht hs => exact hw
  | idle ht hs => exact hw

theorem Stops.fits (h : Stops logs w w' es) (hw : w.Fits) : w'.Fits := by
  cases h with
  | connected hs => exact fits_of_empty rfl
  | other hs => exact hw

end Worker

/-! ### The sessions -/

/-- What a worker does on its `k`-th connection. -/
abbrev onLink {M : Type} (k : ℕ) (os : List (Out M)) : List (Out M) := session Worker.opens k os

theorem MaintWorker.Sends.outs {w w' : MaintWorker} {raw : List UInt8} {j : MaintWorker.Moment}
    {es : List (Out LockResponse)} (h : MaintWorker.Sends w raw j w' es) :
    (∀ o ∈ es, Worker.opens o = false) ∧ Worker.bytesRead es = [] ∧ Worker.received es = [] ∧
      w'.toWorker = w.toWorker := by
  cases h <;> simp [Worker.opens, Worker.bytesRead, Worker.received, MaintWorker.log]

theorem CommWorker.received_of_run {e : Endian} {w₀ w : CommWorker} {os : List (Out LockRequest)}
    (h : Run (lockScreen e).outputMachine Always w₀ os w) (h₀ : w₀.rx.data = []) (k : ℕ) :
    Worker.received (onLink k os) = (cutStream (Worker.bytesRead (onLink k os))).1.filterMap
      fun msg => (handleMessage e msg).emitted? := by
  refine Run.sessions h (Worker.Tuned (handleMessage e)) _ (fun _ _ h => h.received) (.start h₀)
    (fun cur w t w' es ih _ hs => ?_) k
  cases CommWorker.serves hs with
  | reacts hr => exact ih.reacts hr
  | stops hr => exact ih.stops hr

theorem MaintWorker.received_of_run {e : Endian} {w₀ w : MaintWorker}
    {os : List (Out LockResponse)} (h : Run (maintScreen e).outputMachine Always w₀ os w)
    (h₀ : w₀.rx.data = []) (k : ℕ) :
    Worker.received (onLink k os) = (cutStream (Worker.bytesRead (onLink k os))).1.filterMap
      fun msg => (handleMessage e msg).emitted? := by
  refine Run.sessions h (fun cur w => Worker.Tuned (handleMessage e) cur w.toWorker) _
    (fun _ _ h => h.received) (.start h₀) (fun cur w t w' es ih _ hs => ?_) k
  cases MaintWorker.serves hs with
  | reacts hr => exact .of_part MaintWorker.toWorker (ih.reacts hr)
  | stops hr => exact .of_part MaintWorker.toWorker (ih.stops hr)
  | sends hr =>
      obtain ⟨hopens, hread, hreceived, hsame⟩ := hr.outs
      refine .goes hopens (ih.quiet hread hreceived fun hup => ?_)
      rw [hsame] at hup ⊢
      exact ⟨hup, rfl⟩

/-- On each of its connections a screen's worker takes the messages of its kind
from the stream it has read there, cut at the lengths they announce; neither the
chunks nor another connection make a difference, and between two events less
than one message is pending. -/
theorem screens_read_streams (e : Endian) :
    (∀ port tr s, Run (lockScreen e).machine Always (LockScreen.init port) tr s →
      s.worker.Fits ∧ ∀ k, Worker.received (onLink k (outputs (done tr))) =
        (cutStream (Worker.bytesRead (onLink k (outputs (done tr))))).1.filterMap fun msg =>
          (CommWorker.handleMessage e msg).emitted?) ∧
    (∀ tr s, Run (maintScreen e).machine Always MaintScreen.init tr s →
      s.worker.Fits ∧ ∀ k, Worker.received (onLink k (outputs (done tr))) =
        (cutStream (Worker.bytesRead (onLink k (outputs (done tr))))).1.filterMap fun msg =>
          (MaintWorker.handleMessage e msg).emitted?) := by
  constructor
  · intro port tr s h
    have hrun := output_run (worker_run_always h)
    refine ⟨?_, CommWorker.received_of_run hrun rfl⟩
    refine hrun.invariant_state Worker.Fits (Worker.fits_of_empty rfl) fun w t w' es hw _ hs => ?_
    cases CommWorker.serves hs with
    | reacts hr => exact hr.fits hw
    | stops hr => exact hr.fits hw
  · intro tr s h
    have hrun := output_run (worker_run_always h)
    refine ⟨?_, MaintWorker.received_of_run hrun rfl⟩
    refine hrun.invariant_state (fun w => w.Fits) (Worker.fits_of_empty rfl)
      fun w t w' es hw _ hs => ?_
    cases MaintWorker.serves hs with
    | reacts hr => exact hr.fits hw
    | stops hr => exact hr.fits hw
    | sends hr =>
        rw [Worker.Fits, hr.outs.2.2.2]
        exact hw

/-- A connection breaks in the middle of a command; on the next one a whole
command arrives in two chunks. -/
theorem screens_read_streams_torn : ∃ tr s,
    Run (lockScreen .little).machine Always (LockScreen.init 9201) tr s ∧
      (Worker.bytesRead (onLink 1 (outputs (done tr)))).length = 10 ∧
      Worker.received (onLink 2 (outputs (done tr))) =
        [makeLockRequest ⟨0x31, 0x30, 0x30, 0x31⟩ 8 9] ∧
      s.worker.Fits ∧ Worker.received (onLink 2 (outputs (done tr))) =
        (cutStream (Worker.bytesRead (onLink 2 (outputs (done tr))))).1.filterMap fun msg =>
          (CommWorker.handleMessage .little msg).emitted? := by
  let first := (makeLockRequest ⟨0x31, 0x30, 0x30, 0x31⟩ 7 9).wire
  let second := (makeLockRequest ⟨0x31, 0x30, 0x30, 0x31⟩ 8 9).wire
  obtain ⟨tr, s, hrun, hlast⟩ := (lockScreen .little).machine.exists_run_of_exec Always
    (LockScreen.init 9201)
    [.work .started, .work .connected, .work (.readyRead (first.take 10)), .work .disconnected,
      .work .timeout, .work .connected, .work (.readyRead (second.take 20)),
      .work (.readyRead (second.drop 20))]
    (fun r => decide ((Worker.bytesRead (onLink 1 (outputs (done r.2)))).length = 10 ∧
      Worker.received (onLink 2 (outputs (done r.2))) =
        [makeLockRequest ⟨0x31, 0x30, 0x30, 0x31⟩ 8 9]))
    (by decide +kernel) (by decide +kernel)
  obtain ⟨htorn, hwhole⟩ := of_decide_eq_true hlast
  obtain ⟨hfits, hreads⟩ := (screens_read_streams .little).1 9201 tr s hrun
  exact ⟨tr, s, hrun, htorn, hwhole, hfits, hreads 2⟩

end Fleetcore
