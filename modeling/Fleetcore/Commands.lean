import Fleetcore.Screens

/-!
The commands of the maintenance screen, from the button to the socket.

A command that cannot be sent is dropped with a line in the log and takes no
number. The ones that are sent are numbered without a gap, over all
connections, and each has its own line.
-/

namespace Fleetcore

open ByteOrder StateMachine Threads

/-! ### What no command makes a worker do -/

def LogLine.ofLink : LogLine → Bool
  | .connecting _ _ => true
  | .connected => true
  | .disconnected => true
  | .stream _ => true
  | .notHandled _ => true
  | .message _ => true
  | _ => false

def Out.ofLink {M : Type} : Out M → Bool
  | .wrote _ _ => false
  | .signal (.logLine line) => line.ofLink
  | _ => true

namespace Worker

variable {M : Type} {logs : Bool} {handle : List UInt8 → Received M} {w w' : Worker}
  {a : Happening} {es : List (Out M)}

theorem quiet_say {line : LogLine} (h : line.ofLink = true) :
    ∀ o ∈ (say logs line : List (Out M)), o.ofLink = true := fun o ho => by
  cases logs with
  | false => cases ho
  | true => rw [List.mem_singleton.mp ho, ← h]; rfl

theorem quiet_gained : ∀ o ∈ (gained logs : List (Out M)), o.ofLink = true :=
  List.forall_mem_append.mpr ⟨quiet_say rfl, by simp [Out.ofLink]⟩

theorem quiet_lost : ∀ o ∈ (lost logs : List (Out M)), o.ofLink = true :=
  List.forall_mem_append.mpr ⟨quiet_say rfl, by simp [Out.ofLink]⟩

theorem quiet_told (buf : List UInt8) : ∀ o ∈ told logs handle buf, o.ofLink = true := by
  unfold told
  split
  · exact quiet_say rfl
  · exact quiet_say rfl
  · exact quiet_say rfl
  · simp [Out.ofLink]

theorem quiet_looped (data : List UInt8) : ∀ o ∈ looped logs handle data, o.ofLink = true := by
  refine List.forall_mem_append.mpr ⟨fun o ho => ?_, ?_⟩
  · obtain ⟨msg, -, hmsg⟩ := List.mem_flatMap.mp ho
    exact quiet_told msg o hmsg
  · cases (Framing.Framer.parse headerFramer data).2 with
    | pending d => simp [restOuts]
    | dead err => exact List.forall_mem_append.mpr ⟨quiet_say rfl, quiet_lost⟩

theorem Reacts.quiet (h : Reacts logs handle w a w' es) : ∀ o ∈ es, o.ofLink = true := by
  cases h with
  | started hs => exact quiet_say rfl
  | connected hs => exact List.forall_mem_cons.mpr ⟨rfl, quiet_gained⟩
  | failed hs => simp [Out.ofLink]
  | disconnected hs => exact quiet_lost
  | readyRead hs chunk => exact List.forall_mem_cons.mpr ⟨rfl, quiet_looped _⟩
  | redial ht hs => exact quiet_say rfl
  | idle ht hs => simp

theorem Stops.quiet (h : Stops logs w w' es) : ∀ o ∈ es, o.ofLink = true := by
  cases h with
  | connected hs => exact quiet_lost
  | other hs => simp

end Worker

/-! ### Commands and their numbers -/

/-- A command that is sent: the text of the terminal number, and the clock. -/
abbrev Sent := List UInt8 × UInt64

def requestsFor (cs : List Sent) : List LockRequest :=
  cs.mapIdx fun i c => makeLockRequest (TermNo.ofBytes c.1) (UInt16.ofNat (i + 1)) c.2

def framesOf (cs : List Sent) : List (List UInt8) := (requestsFor cs).map LockRequest.wire

def linesOf (cs : List Sent) : List (List UInt8 × UInt16) :=
  cs.mapIdx fun i c => (c.1, UInt16.ofNat (i + 1))

def LogLine.lockSent? : LogLine → Option (List UInt8 × UInt16)
  | .lockSent raw seq => some (raw, seq)
  | _ => none

namespace MaintWorker

def sent (os : List (Out LockResponse)) : List (List UInt8) :=
  os.filterMap fun
    | .wrote frame taken => if taken = frame.length then some frame else none
    | _ => none

def lines (os : List (Out LockResponse)) : List LogLine :=
  (Worker.emitted os).filterMap Signal.line?

def asked (cs : List Call) : List (List UInt8) :=
  cs.filterMap fun
    | .sendLock raw => some raw
    | .stop => none

theorem sent_append (os os' : List (Out LockResponse)) : sent (os ++ os') = sent os ++ sent os' :=
  List.filterMap_append

theorem lines_append (os os' : List (Out LockResponse)) :
    lines (os ++ os') = lines os ++ lines os' := by
  rw [lines, Worker.emitted_append, List.filterMap_append, lines, lines]

theorem asked_append (cs cs' : List Call) : asked (cs ++ cs') = asked cs ++ asked cs' :=
  List.filterMap_append

theorem sent_of_ofLink {os : List (Out LockResponse)} (h : ∀ o ∈ os, o.ofLink = true) :
    sent os = [] := by
  refine List.filterMap_eq_nil_iff.mpr fun o ho => ?_
  have hlink := h o ho
  cases o with
  | wrote frame taken => cases hlink
  | _ => rfl

theorem line_of_ofLink {os : List (Out LockResponse)} (h : ∀ o ∈ os, o.ofLink = true) :
    ∀ line ∈ lines os, line.ofLink = true ∨ ∃ termNo seq result, line = .ack termNo seq result := by
  intro line hline
  obtain ⟨x, hx, hxl⟩ := List.mem_filterMap.mp hline
  obtain ⟨o, ho, hox⟩ := List.mem_filterMap.mp hx
  have hlink := h o ho
  cases o with
  | signal y =>
      obtain rfl := Option.some.inj hox
      cases y with
      | logLine l =>
          obtain rfl := Option.some.inj hxl
          exact .inl hlink
      | received rsp =>
          obtain rfl := Option.some.inj hxl
          exact .inr ⟨_, _, _, rfl⟩
      | linkStateChanged b => cases hxl
  | _ => cases hox

theorem lockSent?_of_ofLink {os : List (Out LockResponse)} (h : ∀ o ∈ os, o.ofLink = true) :
    (lines os).filterMap LogLine.lockSent? = [] := by
  refine List.filterMap_eq_nil_iff.mpr fun line hline => ?_
  rcases line_of_ofLink h line hline with hlink | ⟨termNo, seq, result, rfl⟩
  · cases line with
    | lockSent raw seq => cases hlink
    | _ => rfl
  · rfl

/-- Every request can be packed, and a number is refused only if it was asked
for with the wrong length. -/
def Regular (ds : List (Deed Call (Out LockResponse))) : Prop :=
  ∀ line ∈ lines (outputs ds), line ≠ .packFailed ∧
    (line = .badNumber → ∃ raw ∈ asked (called ds), raw.length ≠ 4)

theorem Regular.append {ds ds' : List (Deed Call (Out LockResponse))} (h : Regular ds)
    (h' : Regular ds') : Regular (ds ++ ds') := by
  intro line hline
  rw [outputs_append, lines_append] at hline
  rw [called_append, asked_append]
  rcases List.mem_append.mp hline with hold | hnew
  · refine ⟨(h line hold).1, fun heq => ?_⟩
    obtain ⟨raw, hraw, hlen⟩ := (h line hold).2 heq
    exact ⟨raw, List.mem_append_left _ hraw, hlen⟩
  · refine ⟨(h' line hnew).1, fun heq => ?_⟩
    obtain ⟨raw, hraw, hlen⟩ := (h' line hnew).2 heq
    exact ⟨raw, List.mem_append_right _ hraw, hlen⟩

/-- The commands `cs` have been sent, one line each; they are among those asked for. -/
structure Numbered (ds : List (Deed Call (Out LockResponse))) (w : MaintWorker)
    (cs : List Sent) : Prop where
  sent : sent (outputs ds) = framesOf cs
  lines : (lines (outputs ds)).filterMap LogLine.lockSent? = linesOf cs
  asked : (cs.map Prod.fst).Sublist (asked (called ds))
  next : w.nextSeq = UInt16.ofNat (cs.length + 1)
  regular : Regular ds

theorem Numbered.init (host : String) (port : UInt16) :
    Numbered [] (MaintWorker.init host port) [] where
  sent := rfl
  lines := rfl
  asked := List.Sublist.refl _
  next := rfl
  regular := fun _ h => by cases h

variable {e : Endian} {ds ds' : List (Deed Call (Out LockResponse))} {w w' : MaintWorker}
  {cs : List Sent}

theorem Numbered.other (h : Numbered ds w cs) (hsent : MaintWorker.sent (outputs ds') = [])
    (hlines : (MaintWorker.lines (outputs ds')).filterMap LogLine.lockSent? = [])
    (hseq : w'.nextSeq = w.nextSeq) (hregular : Regular ds') : Numbered (ds ++ ds') w' cs where
  sent := by rw [outputs_append, sent_append, hsent, List.append_nil, h.sent]
  lines := by
    rw [outputs_append, lines_append, List.filterMap_append, hlines, List.append_nil, h.lines]
  asked := by
    rw [called_append, asked_append]
    exact h.asked.trans (List.sublist_append_left _ _)
  next := hseq.trans h.next
  regular := h.regular.append hregular

theorem Numbered.quiet (h : Numbered ds w cs) (hquiet : ∀ o ∈ outputs ds', o.ofLink = true)
    (hseq : w'.nextSeq = w.nextSeq) : Numbered (ds ++ ds') w' cs := by
  refine h.other (sent_of_ofLink hquiet) (lockSent?_of_ofLink hquiet) hseq fun line hline => ?_
  rcases line_of_ofLink hquiet line hline with hlink | ⟨termNo, seq, result, rfl⟩
  · constructor
    · rintro rfl
      cases hlink
    · rintro rfl
      cases hlink
  · exact ⟨LogLine.noConfusion, fun heq => by cases heq⟩

/-- A command is dropped, with one line that says so. -/
theorem Numbered.drop (h : Numbered ds w cs) (line : LogLine)
    (hsent : MaintWorker.sent (outputs ds') = []) (hline : MaintWorker.lines (outputs ds') = [line])
    (hnone : line.lockSent? = none) (hpack : line ≠ .packFailed)
    (hbad : line = .badNumber → ∃ raw ∈ MaintWorker.asked (called ds'), raw.length ≠ 4) :
    Numbered (ds ++ ds') w cs := by
  refine h.other hsent (by rw [hline, List.filterMap_cons_none hnone]; rfl) rfl fun l hl => ?_
  rw [hline] at hl
  obtain rfl := List.mem_singleton.mp hl
  exact ⟨hpack, hbad⟩

theorem Numbered.send (h : Numbered ds w cs) {raw : List UInt8} {j : Moment}
    (hcalled : called ds' = [.sendLock raw])
    (houts : outputs ds' =
      [.wrote (w.request raw j).wire LockRequest.size, log (.lockSent raw w.nextSeq)])
    (hseq : w'.nextSeq = w.nextSeq + 1) : Numbered (ds ++ ds') w' (cs ++ [(raw, j.now)]) := by
  have hnext := h.next
  have hframe : (LockRequest.size : ℤ) = (w.request raw j).wire.length := by
    rw [LockRequest.length_wire]
  refine ⟨?_, ?_, ?_, ?_, h.regular.append fun line hline => ?_⟩
  · rw [outputs_append, sent_append, h.sent, houts, framesOf, framesOf, requestsFor, requestsFor,
      List.mapIdx_concat, List.map_append, List.map_singleton]
    simp only [MaintWorker.sent, List.filterMap_cons, log, hframe, if_true, request, hnext,
      List.filterMap_nil]
  · rw [outputs_append, lines_append, List.filterMap_append, h.lines, houts, linesOf, linesOf,
      List.mapIdx_concat, hnext]
    rfl
  · rw [called_append, asked_append, hcalled, List.map_append]
    exact h.asked.append (List.Sublist.refl _)
  · rw [hseq, hnext, List.length_append, List.length_singleton]
    exact (UInt16.ofNat_add _ 1).symm
  · rw [houts] at hline
    obtain rfl : line = .lockSent raw w.nextSeq := List.mem_singleton.mp hline
    exact ⟨LogLine.noConfusion, fun heq => by cases heq⟩

theorem Numbered.step {t : Task Happening Call Moment} (h : Numbered ds w cs)
    (hs : (maintScreen e).workerStep w t = some (w', ds')) :
    ∃ cs', Numbered (ds ++ ds') w' cs' := by
  obtain ⟨hserve, hcalled⟩ := serve_of_workerStep ds' hs
  generalize houts : outputs ds' = os at hserve
  cases serves hserve with
  | reacts hr => exact ⟨cs, h.quiet (houts ▸ hr.quiet) rfl⟩
  | stops hr => exact ⟨cs, h.quiet (houts ▸ hr.quiet) rfl⟩
  | @sends raw j _ _ hr =>
      have hasked : MaintWorker.asked (called ds') = [raw] := congrArg MaintWorker.asked hcalled
      cases hr with
      | notConnected hc =>
          exact ⟨cs, h.drop .notConnected (congrArg MaintWorker.sent houts)
            (congrArg MaintWorker.lines houts) rfl LogLine.noConfusion fun heq => by cases heq⟩
      | badNumber hc hlen =>
          exact ⟨cs, h.drop .badNumber (congrArg MaintWorker.sent houts)
            (congrArg MaintWorker.lines houts) rfl LogLine.noConfusion
            fun _ => ⟨raw, by simp [hasked], hlen⟩⟩
      | short hc hlen ht =>
          have hnone : MaintWorker.sent (outputs ds') = [] := by
            simp [houts, MaintWorker.sent, log, LockRequest.length_wire, ht]
          exact ⟨cs, h.drop .shortWrite hnone (congrArg MaintWorker.lines houts) rfl
            LogLine.noConfusion fun heq => by cases heq⟩
      | sent hc hlen ht => exact ⟨_, h.send hcalled houts rfl⟩

end MaintWorker

/-- The commands of the maintenance screen are numbered from 1 on over all its
connections, modulo 2^16 and without a gap: what does not get out takes no
number. Each that gets out is one whole frame, built from a terminal number that
was asked for and with one line of its own; the window never complains about
the text of a number or about packing. -/
theorem commands_numbered {e : Endian} {s : MaintScreen}
    {tr : List (Threads.Event MaintWorker.Call (Out LockResponse) (Signal LockResponse)
      MaintWindow.Use)} (h : Run (maintScreen e).machine Always MaintScreen.init tr s) :
    (∃ cs : List Sent,
      MaintWorker.sent (outputs (done tr)) = framesOf cs ∧
      s.window.log.filterMap LogLine.lockSent? ++
        (s.signals.filterMap Signal.line?).filterMap LogLine.lockSent? = linesOf cs ∧
      (cs.map Prod.fst).Sublist (MaintWorker.asked (issued tr)) ∧
      (∀ c ∈ cs, c.1 ∈ MaintWindow.items) ∧
      s.worker.nextSeq = UInt16.ofNat (cs.length + 1)) ∧
    .packFailed ∉ s.window.log ∧ .badNumber ∉ s.window.log := by
  have hworker := worker_run_always h
  obtain ⟨cs, hnumbered⟩ := hworker.invariant
    (fun ds w => ∃ cs, MaintWorker.Numbered ds w cs) ⟨[], .init _ _⟩ <| by
      rintro ds w t w' ds' ⟨cs, ih⟩ - hs
      exact ih.step hs
  have hlog : MaintWorker.lines (outputs (done tr)) =
      s.window.log ++ s.signals.filterMap Signal.line? := MaintScreen.lines_eq h
  have hissued : (MaintWorker.asked (called (done tr))).Sublist
      (MaintWorker.asked (issued tr)) := by
    rw [issued_eq h, MaintWorker.asked_append]
    exact List.sublist_append_left _ _
  -- the window offers the numbers of its list only
  have hitems : ∀ raw ∈ MaintWorker.asked (issued tr), raw ∈ MaintWindow.items := fun raw hraw => by
    obtain ⟨c, hc, hcraw⟩ := List.mem_filterMap.mp hraw
    obtain ⟨ev, hev, hevc⟩ := List.mem_filterMap.mp hc
    obtain ⟨n, hn⟩ := List.mem_iff_getElem?.mp hev
    refine (MaintWindow.asks_of_run h n ev hn raw ?_).2
    cases ev with
    | issued c' =>
        obtain rfl := Option.some.inj hevc
        cases c' with
        | sendLock raw' => rw [Option.some.inj hcraw]
        | stop => cases hcraw
    | worker d => cases hevc
    | window b => cases hevc
  refine ⟨⟨cs, hnumbered.sent, ?_, hnumbered.asked.trans hissued, fun c hc => ?_,
    hnumbered.next⟩, fun hmem => ?_, fun hmem => ?_⟩
  · rw [← List.filterMap_append, ← hlog, hnumbered.lines]
  · exact hitems _ ((hnumbered.asked.trans hissued).subset (List.mem_map_of_mem hc))
  · exact (hnumbered.regular _ (hlog ▸ List.mem_append_left _ hmem)).1 rfl
  · obtain ⟨raw, hraw, hlen⟩ := (hnumbered.regular _ (hlog ▸ List.mem_append_left _ hmem)).2 rfl
    have hfour : ∀ raw ∈ MaintWindow.items, raw.length = 4 := by decide
    exact hlen (hfour raw (hitems raw (hissued.subset hraw)))

/-- Two commands and between them one the socket does not take; the second has
number 2. -/
theorem commands_numbered_refused : ∃ tr s,
    Run (maintScreen .little).machine Always MaintScreen.init tr s ∧
      s.window.log.filterMap LogLine.lockSent? =
        [([0x31, 0x30, 0x30, 0x31], 1), ([0x31, 0x30, 0x30, 0x32], 2)] ∧
      ∃ cs : List Sent, MaintWorker.sent (outputs (done tr)) = framesOf cs ∧
        (cs.map Prod.fst).Sublist (MaintWorker.asked (issued tr)) := by
  obtain ⟨tr, s, hrun, hlast⟩ := (maintScreen .little).machine.exists_run_of_exec Always
    MaintScreen.init
    [.work .started, .work .connected, .display, .display, .display, .use .lockClicked,
      .call ⟨7, 24⟩, .use .lockClicked, .call ⟨8, -1⟩, .use (.choose 1), .use .lockClicked,
      .call ⟨9, 24⟩, .display, .display, .display]
    (fun r => decide (r.1.window.log.filterMap LogLine.lockSent? =
      [([0x31, 0x30, 0x30, 0x31], 1), ([0x31, 0x30, 0x30, 0x32], 2)]))
    (by decide +kernel) (by decide +kernel)
  obtain ⟨⟨cs, hsent, -, hasked, -⟩, -⟩ := commands_numbered hrun
  exact ⟨tr, s, hrun, of_decide_eq_true hlast, cs, hsent, hasked⟩

end Fleetcore
