import Fleetcore.Process

/-!
The two main loops (`Process::run` and `StreamProcess::run_stream`).

Both receive from the process's own queue and dispatch what they get. `run`
looks at the shutdown flags and at the severity after every message. In
`run_stream` the queue is drained by `poll_queue_once`, which returns whether a
message was handled and nothing else: a severity is discarded, a failed receive
is taken for an empty queue, and the flags are looked at when the queue has been
found empty.

A round is one receive. What the callbacks come back with is part of the input,
so a handler may do anything, depending on anything.
-/

namespace Fleetcore.ProcessLoops

/-- What a callback comes back with, and whether it requested the end of the job
or of the system. -/
structure Answer where
  severity : Severity
  ends : Bool
  deriving DecidableEq, Repr

/-- The result of one receive; with a message comes the answer of the handler
that is registered for it. -/
inductive Receive where
  | message (data : List UInt8) (answer : Answer)
  | timeout
  | error
  deriving DecidableEq, Repr

/-- One receive, and what the callbacks have in store in case they are called:
whether `on_idle` requests an end, and what `on_stream_data` comes back with. -/
structure Round where
  received : Receive
  idle : Bool
  stream : Answer
  deriving DecidableEq, Repr

inductive Event where
  | dispatched (data : List UInt8) (sev : Severity)
  | failed
  | idled
  | streamed (sev : Severity)
  deriving DecidableEq, Repr

structure Outcome where
  events : List Event
  exit : Option ℕ
  deriving DecidableEq, Repr

def Outcome.after (o : Outcome) (ev : Event) : Outcome := { o with events := ev :: o.events }

@[simp] theorem Outcome.events_after (o : Outcome) (ev : Event) :
    (o.after ev).events = ev :: o.events := rfl

@[simp] theorem Outcome.exit_after (o : Outcome) (ev : Event) : (o.after ev).exit = o.exit := rfl

/-- Dispatching a message: without a handler it is dropped. -/
def answerOf (registered : UInt8 → Bool) (data : List UInt8) (answer : Answer) : Answer :=
  dispatch (fun code => if registered code then some fun _ => answer else none)
    ⟨.message, false⟩ data

/-! ### The loops

When the rounds are used up the queue stays empty and the callbacks request
nothing any more: what remains of the loop is the look at the flags. -/

/-- `Process::run`; `ended` tells whether one of the flags is set. -/
def run (registered : UInt8 → Bool) : Bool → List Round → Outcome
  | ended, [] => ⟨[], if ended then some 0 else none⟩
  | ended, r :: rs =>
      if ended then ⟨[], some 0⟩
      else
        match r.received with
        | .timeout => (run registered (ended || r.idle) rs).after .idled
        | .error => ⟨[.failed], some 1⟩
        | .message data answer =>
            let a := answerOf registered data answer
            if a.severity = .process then ⟨[.dispatched data a.severity], some 1⟩
            else (run registered (ended || a.ends) rs).after (.dispatched data a.severity)

/-- `Process::poll_queue_once`: whether a message was handled, what happened, and
whether its handler requested an end. -/
def pollQueueOnce (registered : UInt8 → Bool) : Receive → Bool × List Event × Bool
  | .timeout => (false, [], false)
  | .error => (false, [.failed], false)
  | .message data answer =>
      let a := answerOf registered data answer
      (true, [.dispatched data a.severity], a.ends)

/-- `StreamProcess::run_stream`, at the head of the outer loop or inside the drain. -/
def runStream (registered : UInt8 → Bool) : (draining ended : Bool) → List Round → Outcome
  | _, ended, [] => ⟨[], if ended then some 0 else none⟩
  | draining, ended, r :: rs =>
      if !draining && ended then ⟨[], some 0⟩
      else
        let polled := pollQueueOnce registered r.received
        if polled.1 then
          let rest := runStream registered true (ended || polled.2.2) rs
          { rest with events := polled.2.1 ++ rest.events }
        else
          let sev := r.stream.severity
          if sev = .stream then ⟨polled.2.1 ++ [.streamed sev], some 0⟩
          else if sev = .process then ⟨polled.2.1 ++ [.streamed sev], some 1⟩
          else
            let rest := runStream registered false (ended || r.stream.ends) rs
            { rest with events := polled.2.1 ++ .streamed sev :: rest.events }

/-! ### What is expected of a loop -/

def Event.fatal : Event → Bool
  | .dispatched _ sev => sev == .process
  | .failed => true
  | .idled => false
  | .streamed _ => false

/-- What may be the last thing before a loop returns. -/
def Event.final : Event → Bool
  | .streamed sev => sev == .stream || sev == .process
  | ev => ev.fatal

def Event.data? : Event → Option (List UInt8)
  | .dispatched data _ => some data
  | _ => none

def Receive.data? : Receive → Option (List UInt8)
  | .message data _ => some data
  | _ => none

def Outcome.dispatched (o : Outcome) : List (List UInt8) := o.events.filterMap Event.data?

def messages (rounds : List Round) : List (List UInt8) :=
  rounds.filterMap fun r => r.received.data?

def Unended (registered : UInt8 → Bool) (r : Round) : Prop :=
  r.idle = false ∧ r.stream.ends = false ∧
    ∀ data answer, r.received = .message data answer →
      (answerOf registered data answer).ends = false

/-- The messages are dispatched in their order, and all of them by a loop that
has not returned. -/
structure Fifo (o : Outcome) (msgs : List (List UInt8)) : Prop where
  ordered : o.dispatched <+: msgs
  complete : o.exit = none → o.dispatched = msgs

structure Obeys (registered : UInt8 → Bool) (rounds : List Round) (o : Outcome) : Prop where
  fifo : Fifo o (messages rounds)
  /-- A fatal event is the last one, and the exit code is 1. -/
  stops : ∀ pre ev post, o.events = pre ++ ev :: post → ev.fatal = true →
    post = [] ∧ o.exit = some 1
  /-- Nothing else that comes from the queue ends the loop. -/
  lasts : (∀ r ∈ rounds, Unended registered r) → ∀ c, o.exit = some c →
    ∃ pre ev, o.events = pre ++ [ev] ∧ ev.final = true

/-- Apart from the queue nothing ends either loop. -/
def Neutral (r : Round) : Prop :=
  r.idle = false ∧ r.stream.ends = false ∧
    (r.stream.severity = .message ∨ r.stream.severity = .peer)

/-- The two loops do what is expected of them and agree, whatever the callbacks
besides the handlers come back with. -/
structure Agree (registered : UInt8 → Bool) (queue : List Receive) : Prop where
  obeys : ∀ rounds, rounds.map Round.received = queue →
    Obeys registered rounds (run registered false rounds) ∧
      Obeys registered rounds (runStream registered false false rounds)
  same : ∀ rounds, rounds.map Round.received = queue → (∀ r ∈ rounds, Neutral r) →
    (runStream registered false false rounds).dispatched =
        (run registered false rounds).dispatched ∧
      (runStream registered false false rounds).exit = (run registered false rounds).exit

/-- No receive fails and no handler asks the process to stop, up to the first
message whose handler requests an end; and behind that one the queue is empty. -/
def Calm (registered : UInt8 → Bool) : List Receive → Prop
  | [] => True
  | .timeout :: queue => Calm registered queue
  | .error :: _ => False
  | .message data answer :: queue =>
      let a := answerOf registered data answer
      a.severity ≠ .process ∧
        if a.ends then queue = [] ∨ queue.head? = some .timeout else Calm registered queue

variable {registered : UInt8 → Bool}

@[simp] theorem dispatched_after (o : Outcome) (ev : Event) :
    (o.after ev).dispatched = ev.data?.toList ++ o.dispatched := by
  cases h : ev.data? <;> simp [Outcome.dispatched, h]

/-! ### `run` -/

section Run

variable {r : Round} {rs : List Round}

theorem run_ended (rounds : List Round) : run registered true rounds = ⟨[], some 0⟩ := by
  cases rounds <;> simp [run]

theorem run_timeout (h : r.received = .timeout) :
    run registered false (r :: rs) = (run registered r.idle rs).after .idled := by
  simp [run, h]

theorem run_error (h : r.received = .error) :
    run registered false (r :: rs) = ⟨[.failed], some 1⟩ := by
  simp [run, h]

theorem run_message {data : List UInt8} {answer : Answer} (h : r.received = .message data answer) :
    run registered false (r :: rs) =
      if (answerOf registered data answer).severity = .process then
        ⟨[.dispatched data .process], some 1⟩
      else (run registered (answerOf registered data answer).ends rs).after
        (.dispatched data (answerOf registered data answer).severity) := by
  by_cases hsev : (answerOf registered data answer).severity = .process <;> simp [run, h, hsev]

end Run

theorem messages_cons (r : Round) (rs : List Round) :
    messages (r :: rs) = r.received.data?.toList ++ messages rs := by
  cases h : r.received <;> simp [messages, h, Receive.data?]

theorem Fifo.after {o : Outcome} {msgs : List (List UInt8)} (h : Fifo o msgs) (ev : Event) :
    Fifo (o.after ev) (ev.data?.toList ++ msgs) where
  ordered := by
    rw [dispatched_after]
    exact (List.prefix_append_right_inj _).mpr h.ordered
  complete := fun hexit => by
    rw [dispatched_after, h.complete hexit]

/-- A loop that has returned may have left messages behind. -/
theorem Fifo.returned {events : List Event} {msgs : List (List UInt8)} (c : ℕ)
    (h : events.filterMap Event.data? <+: msgs) : Fifo ⟨events, some c⟩ msgs where
  ordered := h
  complete := fun hexit => by cases hexit

theorem fifo_run (ended : Bool) (rounds : List Round) :
    Fifo (run registered ended rounds) (messages rounds) := by
  induction rounds generalizing ended with
  | nil => exact ⟨List.nil_prefix, fun _ => rfl⟩
  | cons r rs ih =>
      cases ended with
      | true =>
          rw [run_ended]
          exact .returned 0 List.nil_prefix
      | false =>
          rw [messages_cons]
          cases hr : r.received with
          | timeout =>
              rw [run_timeout hr]
              exact (ih r.idle).after .idled
          | error =>
              rw [run_error hr]
              exact .returned 1 List.nil_prefix
          | message data answer =>
              rw [run_message hr]
              split
              · exact .returned 1 (List.prefix_append [data] (messages rs))
              · exact (ih _).after _

def Stops (o : Outcome) : Prop :=
  ∀ pre ev post, o.events = pre ++ ev :: post → ev.fatal = true → post = [] ∧ o.exit = some 1

theorem Stops.after {o : Outcome} {ev : Event} (h : Stops o) (hev : ev.fatal = false) :
    Stops (o.after ev) := by
  intro pre ev' post heq hfatal
  cases pre with
  | nil =>
      obtain ⟨rfl, -⟩ := List.cons.inj heq
      rw [hev] at hfatal
      cases hfatal
  | cons ev'' pre =>
      obtain ⟨-, hrest⟩ := List.cons.inj heq
      exact h pre ev' post hrest hfatal

theorem Stops.nil (exit : Option ℕ) : Stops ⟨[], exit⟩ := by
  intro pre ev post heq
  simp at heq

theorem Stops.last (ev : Event) : Stops ⟨[ev], some 1⟩ := by
  intro pre ev' post heq _
  have hlength := congrArg List.length heq
  simp only [List.length_append, List.length_cons, List.length_nil] at hlength
  exact ⟨List.eq_nil_of_length_eq_zero (by omega), rfl⟩

theorem stops_run (ended : Bool) (rounds : List Round) :
    Stops (run registered ended rounds) := by
  induction rounds generalizing ended with
  | nil => exact .nil _
  | cons r rs ih =>
      cases ended with
      | true =>
          rw [run_ended]
          exact .nil _
      | false =>
          cases hr : r.received with
          | timeout =>
              rw [run_timeout hr]
              exact (ih _).after rfl
          | error =>
              rw [run_error hr]
              exact .last _
          | message data answer =>
              rw [run_message hr]
              split
              · exact .last _
              · next hsev => exact (ih _).after (by simpa [Event.fatal] using hsev)

def Lasts (o : Outcome) : Prop :=
  ∀ c, o.exit = some c → ∃ pre ev, o.events = pre ++ [ev] ∧ ev.final = true

theorem Lasts.after {o : Outcome} (h : Lasts o) (ev : Event) : Lasts (o.after ev) := by
  intro c hc
  obtain ⟨pre, ev', heq, hfinal⟩ := h c hc
  exact ⟨ev :: pre, ev', by simp [heq], hfinal⟩

theorem Lasts.going (events : List Event) : Lasts ⟨events, none⟩ := by
  intro c hc
  cases hc

theorem Lasts.snoc (pre : List Event) {ev : Event} (h : ev.final = true) (c : ℕ) :
    Lasts ⟨pre ++ [ev], some c⟩ := fun _ _ => ⟨pre, ev, rfl, h⟩

theorem lasts_run (rounds : List Round) (h : ∀ r ∈ rounds, Unended registered r) :
    Lasts (run registered false rounds) := by
  induction rounds with
  | nil => exact .going _
  | cons r rs ih =>
      obtain ⟨⟨hidle, -, hanswer⟩, hrs⟩ := List.forall_mem_cons.mp h
      cases hr : r.received with
      | timeout =>
          rw [run_timeout hr, hidle]
          exact (ih hrs).after _
      | error =>
          rw [run_error hr]
          exact .snoc [] rfl 1
      | message data answer =>
          rw [run_message hr]
          split
          · exact .snoc [] rfl 1
          · rw [hanswer data answer hr]
            exact (ih hrs).after _

/-! ### `run_stream` -/

section RunStream

variable {r : Round} {rs : List Round} {draining ended : Bool}

theorem runStream_ended (rounds : List Round) :
    runStream registered false true rounds = ⟨[], some 0⟩ := by
  cases rounds <;> simp [runStream]

theorem runStream_draining (rounds : List Round) :
    runStream registered draining false rounds = runStream registered false false rounds := by
  cases rounds <;> simp [runStream]

theorem runStream_message {data : List UInt8} {answer : Answer}
    (h : r.received = .message data answer) (hgo : draining = true ∨ ended = false) :
    runStream registered draining ended (r :: rs) =
      (runStream registered true (ended || (answerOf registered data answer).ends) rs).after
        (.dispatched data (answerOf registered data answer).severity) := by
  have hhead : (!draining && ended) = false := by rcases hgo with rfl | rfl <;> simp
  simp [runStream, hhead, h, pollQueueOnce, Outcome.after]

theorem runStream_timeout (h : r.received = .timeout) (hgo : draining = true ∨ ended = false) :
    runStream registered draining ended (r :: rs) =
      if r.stream.severity = .stream then ⟨[.streamed .stream], some 0⟩
      else if r.stream.severity = .process then ⟨[.streamed .process], some 1⟩
      else (runStream registered false (ended || r.stream.ends) rs).after
        (.streamed r.stream.severity) := by
  have hhead : (!draining && ended) = false := by rcases hgo with rfl | rfl <;> simp
  simp only [runStream, hhead, h, pollQueueOnce, Outcome.after, Bool.false_eq_true, if_false,
    List.nil_append]
  split_ifs with hstream hprocess
  · rw [hstream]
  · rw [hprocess]
  · rfl

/-- A receive that fails is taken for one that found nothing. -/
theorem runStream_error (h : r.received = .error) (hgo : draining = true ∨ ended = false) :
    runStream registered draining ended (r :: rs) =
      (runStream registered draining ended ({ r with received := .timeout } :: rs)).after
        .failed := by
  have hhead : (!draining && ended) = false := by rcases hgo with rfl | rfl <;> simp
  simp only [runStream, hhead, h, pollQueueOnce, Outcome.after, Bool.false_eq_true, if_false,
    List.nil_append]
  split_ifs <;> rfl

end RunStream

/-- The ways a round of `run_stream` can go, each with what the loop does behind it. -/
inductive Streams (registered : UInt8 → Bool) : Bool → Bool → List Round → Outcome → Prop
  | out (draining ended : Bool) :
      Streams registered draining ended [] ⟨[], if ended then some 0 else none⟩
  | ended (rounds : List Round) : Streams registered false true rounds ⟨[], some 0⟩
  | message {draining ended : Bool} {r : Round} {rs : List Round} {o : Outcome}
      (hgo : draining = true ∨ ended = false) (data : List UInt8) (answer : Answer)
      (h : r.received = .message data answer)
      (rest : Streams registered true
        (ended || (answerOf registered data answer).ends) rs o) :
      Streams registered draining ended (r :: rs)
        (o.after (.dispatched data (answerOf registered data answer).severity))
  | stream {draining ended : Bool} {r : Round} {rs : List Round} (h : r.received = .timeout)
      (hsev : r.stream.severity = .stream) :
      Streams registered draining ended (r :: rs) ⟨[.streamed .stream], some 0⟩
  | process {draining ended : Bool} {r : Round} {rs : List Round} (h : r.received = .timeout)
      (hsev : r.stream.severity = .process) :
      Streams registered draining ended (r :: rs) ⟨[.streamed .process], some 1⟩
  | again {draining ended : Bool} {r : Round} {rs : List Round} {o : Outcome}
      (h : r.received = .timeout)
      (rest : Streams registered false (ended || r.stream.ends) rs o) :
      Streams registered draining ended (r :: rs) (o.after (.streamed r.stream.severity))
  /-- The loop goes on as if the queue had been empty. -/
  | failed {draining ended : Bool} {r : Round} {rs : List Round} {o : Outcome}
      (hgo : draining = true ∨ ended = false) (h : r.received = .error)
      (rest : Streams registered draining ended ({ r with received := .timeout } :: rs) o) :
      Streams registered draining ended (r :: rs) (o.after .failed)

theorem streams_runStream (draining ended : Bool) (rounds : List Round) :
    Streams registered draining ended rounds (runStream registered draining ended rounds) := by
  induction rounds generalizing draining ended with
  | nil => exact .out draining ended
  | cons r rs ih =>
      by_cases hgo : draining = true ∨ ended = false
      · have htimeout : ∀ r' : Round, r'.received = .timeout →
            Streams registered draining ended (r' :: rs)
              (runStream registered draining ended (r' :: rs)) := by
          intro r' hr'
          rw [runStream_timeout hr' hgo]
          split_ifs with hstream hprocess
          · exact .stream hr' hstream
          · exact .process hr' hprocess
          · exact .again hr' (ih _ _)
        cases hr : r.received with
        | timeout => exact htimeout r hr
        | error =>
            rw [runStream_error hr hgo]
            exact .failed hgo hr (htimeout _ rfl)
        | message data answer =>
            rw [runStream_message hr hgo]
            exact .message hgo data answer hr (ih _ _)
      · obtain ⟨rfl, rfl⟩ : draining = false ∧ ended = true := by simpa using hgo
        rw [runStream_ended]
        exact .ended _

theorem Streams.fifo {draining ended : Bool} {rounds : List Round} {o : Outcome}
    (h : Streams registered draining ended rounds o) : Fifo o (messages rounds) := by
  induction h with
  | out draining ended => exact ⟨List.nil_prefix, fun _ => rfl⟩
  | ended rounds => exact .returned 0 List.nil_prefix
  | message hgo data answer h rest ih =>
      rw [messages_cons, h]
      exact ih.after _
  | stream h hsev => exact .returned 0 List.nil_prefix
  | process h hsev => exact .returned 1 List.nil_prefix
  | again h rest ih =>
      rw [messages_cons, h]
      exact ih.after _
  | failed hgo h rest ih =>
      rw [messages_cons, h]
      exact ih.after _

theorem Streams.lasts {draining ended : Bool} {rounds : List Round} {o : Outcome}
    (h : Streams registered draining ended rounds o) (hended : ended = false)
    (hrounds : ∀ r ∈ rounds, Unended registered r) : Lasts o := by
  induction h with
  | out draining ended =>
      rw [hended]
      exact .going _
  | ended rounds => cases hended
  | message hgo data answer h rest ih =>
      obtain ⟨⟨-, -, hanswer⟩, hrs⟩ := List.forall_mem_cons.mp hrounds
      have hrest := ih (by rw [hended, hanswer data answer h]; rfl) hrs
      exact hrest.after _
  | stream h hsev => exact .snoc [] rfl 0
  | process h hsev => exact .snoc [] rfl 1
  | again h rest ih =>
      obtain ⟨⟨-, hends, -⟩, hrs⟩ := List.forall_mem_cons.mp hrounds
      have hrest := ih (by rw [hended, hends]; rfl) hrs
      exact hrest.after _
  | failed hgo h rest ih =>
      obtain ⟨⟨hidle, hends, -⟩, hrs⟩ := List.forall_mem_cons.mp hrounds
      have hrest := ih hended (List.forall_mem_cons.mpr ⟨⟨hidle, hends, by simp⟩, hrs⟩)
      exact hrest.after _

/-- What is left of a calm queue, with the flags set or not: a drain that goes on
behind a flag has to find the queue empty. -/
def CalmFrom (registered : UInt8 → Bool) (draining ended : Bool) (queue : List Receive) : Prop :=
  if ended then draining = true → queue = [] ∨ queue.head? = some .timeout
  else Calm registered queue

theorem Streams.not_fatal {draining ended : Bool} {rounds : List Round} {o : Outcome}
    (h : Streams registered draining ended rounds o)
    (hcalm : CalmFrom registered draining ended (rounds.map Round.received)) :
    ∀ ev ∈ o.events, ev.fatal = false := by
  induction h with
  | out draining ended => simp
  | ended rounds => simp
  | @message draining ended r rs o hgo data answer h rest ih =>
      rw [List.map_cons, h] at hcalm
      cases ended with
      | true =>
          -- the queue should have been empty here
          obtain rfl : draining = true := by simpa using hgo
          have hempty := hcalm rfl
          simp at hempty
      | false =>
          obtain ⟨hsev, hrest⟩ := hcalm
          rw [Outcome.events_after, List.forall_mem_cons]
          refine ⟨by simpa [Event.fatal] using hsev, ih ?_⟩
          rw [Bool.false_or]
          split at hrest
          · next hends =>
              rw [hends]
              exact fun _ => hrest
          · next hends =>
              rw [Bool.not_eq_true] at hends
              rw [hends]
              exact hrest
  | stream h hsev => simp [Event.fatal]
  | process h hsev => simp [Event.fatal]
  | @again draining ended r rs o h rest ih =>
      rw [List.map_cons, h] at hcalm
      rw [Outcome.events_after, List.forall_mem_cons]
      refine ⟨rfl, ih ?_⟩
      cases hend : ended || r.stream.ends with
      | true => exact fun hdraining => absurd hdraining Bool.false_ne_true
      | false =>
          obtain rfl := (Bool.or_eq_false_iff.mp hend).1
          exact hcalm
  | @failed draining ended r rs o hgo h rest ih =>
      rw [List.map_cons, h] at hcalm
      cases ended with
      | true =>
          obtain rfl : draining = true := by simpa using hgo
          have hempty := hcalm rfl
          simp at hempty
      | false => exact hcalm.elim

/-! ### Agreement -/

/-- On a calm queue the two loops dispatch the same messages and end in the same
way. -/
theorem same_of_calm (rounds : List Round) (h : Calm registered (rounds.map Round.received))
    (hneutral : ∀ r ∈ rounds, Neutral r) :
    (runStream registered false false rounds).dispatched =
        (run registered false rounds).dispatched ∧
      (runStream registered false false rounds).exit = (run registered false rounds).exit := by
  induction rounds with
  | nil => exact ⟨rfl, rfl⟩
  | cons r rs ih =>
      obtain ⟨⟨hidle, hends, hsev⟩, hrs⟩ := List.forall_mem_cons.mp hneutral
      have hnot : ∀ r' : Round, Neutral r' →
          r'.stream.severity ≠ .stream ∧ r'.stream.severity ≠ .process := by
        rintro r' ⟨-, -, h | h⟩ <;> simp [h]
      cases hr : r.received with
      | timeout =>
          simp only [List.map_cons, hr, Calm] at h
          obtain ⟨hstream, hprocess⟩ := hnot r ⟨hidle, hends, hsev⟩
          rw [run_timeout hr, runStream_timeout hr (.inr rfl), if_neg hstream, if_neg hprocess,
            hidle, hends]
          simpa [Event.data?] using ih h hrs
      | error => simp [hr, Calm] at h
      | message data answer =>
          simp only [List.map_cons, hr, Calm] at h
          obtain ⟨hgo, hrest⟩ := h
          rw [run_message hr, if_neg hgo, runStream_message hr (.inr rfl), Bool.false_or]
          split at hrest
          · next hflag =>
              -- `run` returns here, `run_stream` when it has found the queue empty
              rw [hflag, run_ended]
              cases rs with
              | nil => simp [runStream, Outcome.dispatched, Event.data?]
              | cons r' rs =>
                  have hr' : r'.received = .timeout := by simpa using hrest
                  obtain ⟨hstream, hprocess⟩ := hnot r' (hrs r' List.mem_cons_self)
                  rw [runStream_timeout hr' (.inl rfl), if_neg hstream, if_neg hprocess,
                    Bool.true_or, runStream_ended]
                  simp [Outcome.dispatched, Event.data?]
          · next hflag =>
              rw [Bool.not_eq_true] at hflag
              rw [hflag, runStream_draining]
              simpa using ih hrest hrs

def plain (queue : List Receive) : List Round :=
  queue.map fun p => ⟨p, false, ⟨.message, false⟩⟩

theorem received_plain (queue : List Receive) : (plain queue).map Round.received = queue := by
  simp [plain, Function.comp_def]

theorem neutral_of_mem_plain {queue : List Receive} {r : Round} (h : r ∈ plain queue) :
    Neutral r := by
  obtain ⟨p, -, rfl⟩ := List.mem_map.mp h
  exact ⟨rfl, rfl, .inl rfl⟩

/-- The queue alone never makes `run_stream` return 1. -/
theorem Streams.exit_ne_one {draining ended : Bool} {rounds : List Round} {o : Outcome}
    (h : Streams registered draining ended rounds o) (hrounds : ∀ r ∈ rounds, Neutral r) :
    o.exit ≠ some 1 := by
  induction h with
  | out draining ended => cases ended <;> simp
  | ended rounds => simp
  | message hgo data answer h rest ih => exact ih (List.forall_mem_cons.mp hrounds).2
  | stream h hsev => simp
  | process h hsev =>
      obtain ⟨⟨-, -, hneutral⟩, -⟩ := List.forall_mem_cons.mp hrounds
      simp [hsev] at hneutral
  | again h rest ih => exact ih (List.forall_mem_cons.mp hrounds).2
  | failed hgo h rest ih =>
      obtain ⟨hneutral, hrs⟩ := List.forall_mem_cons.mp hrounds
      exact ih (List.forall_mem_cons.mpr ⟨hneutral, hrs⟩)

/-- A queue on which `run_stream` meets nothing fatal, and dispatches what `run`
dispatches, is calm. -/
theorem calm_of_same (queue : List Receive)
    (hfatal : ∀ ev ∈ (runStream registered false false (plain queue)).events, ev.fatal = false)
    (hsame : (runStream registered false false (plain queue)).dispatched =
      (run registered false (plain queue)).dispatched) : Calm registered queue := by
  induction queue with
  | nil => trivial
  | cons p queue ih =>
      have hplain : plain (p :: queue) = ⟨p, false, ⟨.message, false⟩⟩ :: plain queue := rfl
      rw [hplain] at hfatal hsame
      cases p with
      | timeout =>
          rw [runStream_timeout rfl (.inr rfl)] at hfatal hsame
          rw [run_timeout rfl] at hsame
          exact ih (by simpa [Event.fatal] using hfatal) (by simpa [Event.data?] using hsame)
      | error =>
          rw [runStream_error rfl (.inr rfl)] at hfatal
          simp [Event.fatal] at hfatal
      | message data answer =>
          rw [runStream_message rfl (.inr rfl), Bool.false_or] at hfatal hsame
          simp only [Outcome.events_after, List.forall_mem_cons] at hfatal
          obtain ⟨hsev, hrest⟩ := hfatal
          have hgo : (answerOf registered data answer).severity ≠ .process := by
            simpa [Event.fatal] using hsev
          rw [run_message rfl, if_neg hgo] at hsame
          refine ⟨hgo, ?_⟩
          split
          · next hflag =>
              -- the drain goes on behind the message that raised the flag
              rw [hflag] at hrest hsame
              cases queue with
              | nil => exact .inl rfl
              | cons p' queue =>
                  have hplain' : plain (p' :: queue) =
                      ⟨p', false, ⟨.message, false⟩⟩ :: plain queue := rfl
                  rw [hplain'] at hrest hsame
                  cases p' with
                  | timeout => exact .inr rfl
                  | error =>
                      rw [runStream_error rfl (.inl rfl)] at hrest
                      simp [Event.fatal] at hrest
                  | message data' answer' =>
                      rw [runStream_message rfl (.inl rfl), run_ended] at hsame
                      simp [Event.data?, Outcome.dispatched] at hsame
          · next hflag =>
              rw [Bool.not_eq_true] at hflag
              rw [hflag, runStream_draining] at hrest hsame
              exact ih hrest (by simpa using hsame)

/-- For all handlers and every queue: the two loops do what is expected of them
and agree, whatever `on_idle` and `on_stream_data` do, exactly when the queue is
calm. `run` does what is expected of it on every queue. -/
theorem loops_agree_iff (registered : UInt8 → Bool) (queue : List Receive) :
    (Agree registered queue ↔ Calm registered queue) ∧
      ∀ rounds, Obeys registered rounds (run registered false rounds) := by
  have hrun : ∀ rounds, Obeys registered rounds (run registered false rounds) := fun rounds =>
    ⟨fifo_run _ _, stops_run _ _, lasts_run rounds⟩
  refine ⟨⟨fun h => ?_, fun h => ⟨fun rounds hq => ⟨hrun rounds, ?_⟩, fun rounds hq hn => ?_⟩⟩,
    hrun⟩
  · have hreceived := received_plain queue
    have hneutral : ∀ r ∈ plain queue, Neutral r := fun r => neutral_of_mem_plain
    apply calm_of_same queue
    · intro ev hev
      obtain ⟨pre, post, hevents⟩ := List.append_of_mem hev
      by_contra hfatal
      have hstop := (h.obeys _ hreceived).2.stops pre ev post hevents (by simpa using hfatal)
      exact (streams_runStream false false _).exit_ne_one hneutral hstop.2
    · exact (h.same _ hreceived hneutral).1
  · have hcalm : Calm registered (rounds.map Round.received) := hq ▸ h
    have hstreams : Streams registered false false rounds _ := streams_runStream _ _ rounds
    refine ⟨hstreams.fifo, fun pre ev post hevents hfatal => ?_, hstreams.lasts rfl⟩
    have hnot := hstreams.not_fatal hcalm ev (by simp [hevents])
    rw [hnot] at hfatal
    cases hfatal
  · exact same_of_calm rounds (hq ▸ h) hn

/-- Two messages with a handler for their code; the first time it cannot go on. -/
def stopping : List Receive :=
  [.message [1, 0, 0, 0, 0, 0, 0, 0] ⟨.process, false⟩,
    .message [1, 0, 0, 0, 7, 0, 0, 0] ⟨.message, false⟩]

/-- `run` returns 1 behind the first message; `run_stream` dispatches the second
as well and does not return. -/
theorem run_stream_goes_on :
    let registered : UInt8 → Bool := fun code => code = ipcLockRequest
    run registered false (plain stopping) =
        ⟨[.dispatched [1, 0, 0, 0, 0, 0, 0, 0] .process], some 1⟩ ∧
      runStream registered false false (plain stopping) =
        ⟨[.dispatched [1, 0, 0, 0, 0, 0, 0, 0] .process,
          .dispatched [1, 0, 0, 0, 7, 0, 0, 0] .message], none⟩ ∧
      ¬Agree registered stopping := by
  refine ⟨by decide, by decide, fun h => ?_⟩
  have hsame := h.same _ (received_plain stopping) fun r => neutral_of_mem_plain
  exact absurd hsame.2 (by decide)

end Fleetcore.ProcessLoops
