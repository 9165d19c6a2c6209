import Fleetcore.Gateway
import Fleetcore.HeaderFraming

/-!
The receive path of gateway does not depend on how the stream was cut into
chunks: its loop is the parse of the header framer, with each message handled
as it is cut.
-/

namespace Fleetcore

open ByteOrder Framing

namespace Gateway

variable (e : Endian)

/-! ### One message -/

def requestIn (msg : List UInt8) : Option IpcLockRequest :=
  if (Header.ofWire msg).code = codeLockRequest ∧ msg.length = LockRequest.size then
    some ⟨⟨ipcLockRequest, 0⟩, LockRequest.ofWire msg⟩
  else none

theorem handleFromMaint_of_bad {buf : List UInt8} (h : Header.size ≤ buf.length)
    (hc : (Header.ofWire buf).check ≠ .ok) :
    handleFromMaint e buf = .desync (Header.ofWire buf).check := by
  rw [handleFromMaint, unpackHeader_eq e default h, if_pos hc]

theorem handleFromMaint_of_good {buf : List UInt8} (h : Header.size ≤ buf.length)
    (hc : (Header.ofWire buf).check = .ok) (err : WireError) :
    handleFromMaint e buf ≠ .desync err := by
  simp only [handleFromMaint, unpackHeader_eq e default h, hc, ne_eq, not_true_eq_false, if_false]
  split_ifs <;> simp

theorem request?_handleFromMaint {buf : List UInt8} (h : Header.size ≤ buf.length)
    (hlen : (Header.ofWire buf).length.toNat = buf.length)
    (hc : (Header.ofWire buf).check = .ok) :
    (handleFromMaint e buf).request? = requestIn buf := by
  simp only [handleFromMaint, unpackHeader_eq e default h, hc, ne_eq, not_true_eq_false, if_false,
    requestIn]
  by_cases hcode : (Header.ofWire buf).code = codeLockRequest
  · by_cases hsize : buf.length = LockRequest.size
    · have hok := unpackLockRequest_of_rules e default hsize.ge hc hcode (hlen.trans hsize)
      simp [hcode, hsize, hok, Handled.request?]
    · have hbad : (unpackLockRequest e buf default).1 ≠ .ok := fun hok => by
        obtain ⟨-, hm, -, -, hl⟩ := unpackLockRequest_ok
          (show unpackLockRequest e buf default = (.ok, (unpackLockRequest e buf default).2) from
            Prod.ext hok rfl)
        rw [hm] at hl
        exact hsize (hlen.symm.trans hl)
      simp [hcode, hsize, hbad, Handled.request?]
  · simp [hcode, Handled.request?]

/-! ### The loop is the parse of the framer -/

/-- What a stretch of the stream comes to: the requests forwarded, and either
the error the connection was dropped for or the bytes still pending. -/
structure Parsed where
  forwarded : List IpcLockRequest
  dropped : Option WireError
  pending : List UInt8
  deriving DecidableEq, Repr

/-- The messages cut from a stream and what is left of it; nothing is pending
after a drop. -/
def Parsed.of (msgs : List (List UInt8)) : Rest UInt8 WireError → Parsed
  | .pending d => ⟨msgs.filterMap requestIn, none, d⟩
  | .dead err => ⟨msgs.filterMap requestIn, some err, []⟩

def Drained.parsed (d : Drained) : Parsed := ⟨d.forwarded, d.dropped, d.rx.data⟩

theorem Parsed.of_cons (msg : List UInt8) (msgs : List (List UInt8))
    (rest : Rest UInt8 WireError) :
    Parsed.of (msg :: msgs) rest =
      { Parsed.of msgs rest with
        forwarded := (requestIn msg).toList ++ (Parsed.of msgs rest).forwarded } := by
  cases rest <;> cases hreq : requestIn msg <;> simp [Parsed.of, hreq]

theorem drain_succ {rx : StreamBuffer} {msg : List UInt8} (fuel : ℕ) (hn : rx.next = some msg)
    (hh : ∀ err, handleFromMaint e msg ≠ .desync err) :
    drain e (fuel + 1) rx =
      let d := drain e fuel (rx.consume msg.length)
      ⟨(msg, handleFromMaint e msg) :: d.handled, d.rx, d.dropped⟩ := by
  simp only [drain, hn]

theorem drain_parsed {fuel : ℕ} {rx : StreamBuffer} (h : rx.pending < fuel) :
    (drain e fuel rx).parsed =
      .of (headerFramer.parse rx.data).1 (headerFramer.parse rx.data).2 := by
  induction fuel generalizing rx with
  | zero => omega
  | succ fuel ih =>
      cases hn : rx.next with
      | none =>
          have hl := look_of_next_none hn
          simp [drain, hn, Framer.parse_wait hl, Drained.parsed, Drained.forwarded, Parsed.of]
      | some msg =>
          have hl := look_of_next hn
          obtain ⟨-, hmin, -⟩ := StreamBuffer.next_eq_some hn
          by_cases hc : (Header.ofWire msg).check = .ok
          · rw [if_pos hc] at hl
            have hmem : msg ∈ (headerFramer.parse rx.data).1 := by
              rw [Framer.parse_frame hl]
              exact List.mem_cons_self
            have hreq := request?_handleFromMaint e hmin (check_of_mem_parse hmem).2.1 hc
            -- a frame is never empty, so the fuel lasts for the rest
            have hless : (rx.consume msg.length).pending < fuel := by
              have := StreamBuffer.pending_consume_lt hn
              omega
            have hrest := ih hless
            rw [StreamBuffer.data_consume] at hrest
            rw [Framer.parse_frame hl, Parsed.of_cons, ← hrest,
              drain_succ e fuel hn (handleFromMaint_of_good e hmin hc), ← hreq]
            cases hreq' : (handleFromMaint e msg).request? <;>
              simp [Drained.parsed, Drained.forwarded, hreq']
          · rw [if_neg hc] at hl
            simp [drain, hn, handleFromMaint_of_bad e hmin hc, Framer.parse_reject hl,
              Drained.parsed, Drained.forwarded, Parsed.of, Handled.request?]

theorem receive_parsed (rx : StreamBuffer) (chunk : List UInt8) :
    (receive e rx chunk).parsed = .of (headerFramer.parse (rx.data ++ chunk)).1
      (headerFramer.parse (rx.data ++ chunk)).2 :=
  drain_parsed e (Nat.lt_succ_self _)

/-- The chunks of one connection arrive one after the other. After a drop the
bytes belong to no connection. -/
def receiveAll : StreamBuffer → List (List UInt8) → Parsed
  | rx, [] => ⟨[], none, rx.data⟩
  | rx, chunk :: chunks =>
      let d := receive e rx chunk
      match d.dropped with
      | some err => ⟨d.forwarded, some err, []⟩
      | none =>
          let p := receiveAll d.rx chunks
          { p with forwarded := d.forwarded ++ p.forwarded }

theorem receiveAll_eq (rx : StreamBuffer) (chunks : List (List UInt8)) :
    receiveAll e rx chunks = .of (headerFramer.feedAll (.pending rx.data) chunks).1
      (headerFramer.feedAll (.pending rx.data) chunks).2 := by
  induction chunks generalizing rx with
  | nil => rfl
  | cons chunk chunks ih =>
      have hd := receive_parsed e rx chunk
      simp only [receiveAll, Framer.feedAll, Framer.feed]
      cases hp : (headerFramer.parse (rx.data ++ chunk)).2 with
      | dead err =>
          obtain ⟨hf, hdrop, -⟩ := Parsed.mk.inj (hd.trans (by rw [hp, Parsed.of]))
          simp [hdrop, hf, Framer.feedAll_dead, Parsed.of]
      | pending d =>
          obtain ⟨hf, hdrop, hrx⟩ := Parsed.mk.inj (hd.trans (by rw [hp, Parsed.of]))
          simp only [hdrop, ih, hrx, hf]
          cases (headerFramer.feedAll (.pending d) chunks).2 <;> simp [Parsed.of]

/-! ### What is forwarded -/

/-- A frame `unpack_lock_request` accepts. -/
def Accepts (frame : List UInt8) : Prop :=
  frame.length = LockRequest.size ∧
    unpackLockRequest e frame default = (.ok, LockRequest.ofWire frame)

def forward (frame : List UInt8) : IpcLockRequest :=
  ⟨⟨ipcLockRequest, 0⟩, LockRequest.ofWire frame⟩

theorem handleFromMaint_eq_forwarded {msg : List UInt8} {m : IpcLockRequest}
    (h : handleFromMaint e msg = .forwarded m) :
    unpackLockRequest e msg default = (.ok, LockRequest.ofWire msg) ∧ m = forward msg := by
  simp only [handleFromMaint] at h
  split_ifs at h with hhead hcode hreq
  obtain rfl := Handled.forwarded.inj h
  have hok : unpackLockRequest e msg default =
      (.ok, (unpackLockRequest e msg default).2) := Prod.ext (not_not.mp hreq) rfl
  have hm := (unpackLockRequest_ok hok).2.1
  exact ⟨hm ▸ hok, by rw [forward, hm]⟩

/-- Each message the loop took off is one `next` reported, handled by itself. -/
theorem mem_drain_handled {fuel : ℕ} {rx : StreamBuffer} {x : List UInt8 × Handled}
    (h : x ∈ (drain e fuel rx).handled) :
    x.2 = handleFromMaint e x.1 ∧ ∃ b : StreamBuffer, b.next = some x.1 := by
  induction fuel generalizing rx with
  | zero => simp [drain] at h
  | succ fuel ih =>
      cases hn : rx.next with
      | none => simp [drain, hn] at h
      | some msg =>
          simp only [drain, hn] at h
          split at h
          · next err hh =>
              obtain rfl := List.mem_singleton.mp h
              exact ⟨rfl, rx, hn⟩
          · rcases List.mem_cons.mp h with rfl | h
            · exact ⟨rfl, rx, hn⟩
            · exact ih h

theorem accepts_of_mem_frames {rx : StreamBuffer} {chunk frame : List UInt8}
    (h : frame ∈ (receive e rx chunk).frames) : Accepts e frame := by
  obtain ⟨x, hx, rfl⟩ := List.mem_map.mp h
  obtain ⟨hmem, hsome⟩ := List.mem_filter.mp hx
  obtain ⟨hh, b, hb⟩ := mem_drain_handled e hmem
  cases hm : handleFromMaint e x.1 with
  | forwarded m =>
      obtain ⟨hok, -⟩ := handleFromMaint_eq_forwarded e hm
      obtain ⟨-, -, hc, -, hl⟩ := unpackLockRequest_ok hok
      exact ⟨(length_of_next hb hc).symm.trans hl, hok⟩
  | desync err => simp [hh, hm, Handled.request?] at hsome
  | skipped w => simp [hh, hm, Handled.request?] at hsome

theorem forwarded_receive (rx : StreamBuffer) (chunk : List UInt8) :
    (receive e rx chunk).forwarded = (receive e rx chunk).frames.map forward := by
  have hall : ∀ x ∈ (receive e rx chunk).handled, x.2 = handleFromMaint e x.1 := fun x hx =>
    (mem_drain_handled e hx).1
  unfold Drained.forwarded Drained.frames
  generalize (receive e rx chunk).handled = handled at hall
  induction handled with
  | nil => rfl
  | cons x hs ih =>
      have ih := ih fun y hy => hall y (List.mem_cons_of_mem _ hy)
      have hx := hall x List.mem_cons_self
      have hreq : x.2.request? = none ∨ x.2.request? = some (forward x.1) := by
        cases hm : handleFromMaint e x.1 with
        | forwarded m =>
            obtain ⟨-, rfl⟩ := handleFromMaint_eq_forwarded e hm
            exact .inr (by rw [hx, hm, Handled.request?])
        | desync err => exact .inl (by rw [hx, hm]; rfl)
        | skipped err => exact .inl (by rw [hx, hm]; rfl)
      rcases hreq with hnone | hsome
      · rw [List.filter_cons_of_neg (by simp [hnone]), ← ih]
        simp [hnone]
      · rw [List.filter_cons_of_pos (by simp [hsome]), List.map_cons, List.map_cons, ← ih]
        simp [hsome]

theorem sends_receive (rx : StreamBuffer) (chunk : List UInt8) :
    ((receive e rx chunk).forwarded.flatMap fun m => sendTo idxLocator (m.image e)) =
      (receive e rx chunk).frames.map fun f => (queueKey idxLocator, (forward f).image e) := by
  simp only [sendTo_image_request, forwarded_receive, List.flatMap_map, ← List.map_eq_flatMap]

def cuts (notes : List Note) : List (List UInt8) :=
  notes.filterMap fun
    | .cut frame => some frame
    | _ => none

theorem cuts_append (notes notes' : List Note) :
    cuts (notes ++ notes') = cuts notes ++ cuts notes' := List.filterMap_append

theorem cuts_read (chunk : List UInt8) (notes : List Note) :
    cuts (.read chunk :: notes) = cuts notes := rfl

theorem cuts_map_cut (frames : List (List UInt8)) : cuts (frames.map .cut) = frames := by
  simp [cuts, List.filterMap_map]

/-- What a step of `on_idle` sends are the frames it cut, and nothing else. -/
theorem onIdle_sends (env : Env) (w : Gateway) (table : Segment) :
    (w.onIdle e env table).sends =
      (cuts (w.onIdle e env table).obs).map fun f =>
        (queueKey idxLocator, (forward f).image e) := by
  simp only [onIdle]
  generalize (if (w.tcp.pollAccept env.accepted).1 then w.rx.reset else w.rx) = rx
  have hnotes : cuts (if (w.tcp.pollAccept env.accepted).1 then [Note.connected] else []) = [] := by
    split <;> rfl
  split
  · rw [cuts_append, hnotes]
    rfl
  · rw [hnotes]
    rfl
  · next chunk tcp hread =>
      split
      · rw [cuts_append, cuts_append, hnotes, cuts_read, cuts_map_cut, sends_receive]
        exact congrArg _ (List.append_nil _).symm
      · rw [cuts_append, hnotes, cuts_read, cuts_map_cut, sends_receive]
        rfl

theorem onLockResponse_silent (env : Env) (w : Gateway) (table : Segment) (data : List UInt8) :
    (w.onLockResponse e env table data).sends = [] ∧
      cuts (w.onLockResponse e env table data).obs = [] := by
  simp only [onLockResponse]
  split
  · exact ⟨rfl, rfl⟩
  · split
    · exact ⟨rfl, rfl⟩
    · split
      · exact ⟨rfl, rfl⟩
      · exact ⟨rfl, rfl⟩

/-! ### Over any number of connections -/

instance : DecidablePred (Accepts e) := fun frame =>
  inferInstanceAs (Decidable (frame.length = LockRequest.size ∧ _))

def hear : List (List UInt8) × List UInt8 → Note → List (List UInt8) × List UInt8
  | (past, now), .connected => (past ++ [now], [])
  | (past, now), .read bytes => (past, now ++ bytes)
  | heard, _ => heard

def streams (notes : List Note) : List (List UInt8) × List UInt8 := notes.foldl hear ([], [])

/-- The requests in one stream: its greedy parse, and of that the messages
`unpack_lock_request` accepts. -/
def requestsOf (stream : List UInt8) : List (List UInt8) :=
  (cutStream stream).1.filter fun frame => decide (Accepts e frame)

/-- The requests in everything received, connection by connection. -/
def accepted (notes : List Note) : List (List UInt8) :=
  ((streams notes).1 ++ [(streams notes).2]).flatMap (requestsOf e)

@[simp] theorem accepted_nil : accepted e [] = [] := by
  simp [accepted, streams, requestsOf, cutStream, Header.size]

theorem wire_forward {frame : List UInt8} (h : Accepts e frame) :
    (forward frame).msg.wire = frame := by
  rw [forward, LockRequest.wire_ofWire h.1.ge, ← h.1, List.take_length]

theorem requestIn_eq {msg : List UInt8} (hc : (Header.ofWire msg).check = .ok)
    (hlen : (Header.ofWire msg).length.toNat = msg.length) :
    requestIn msg = if Accepts e msg then some (forward msg) else none := by
  have hiff : ((Header.ofWire msg).code = codeLockRequest ∧ msg.length = LockRequest.size) ↔
      Accepts e msg := by
    constructor
    · exact fun ⟨hcode, hsize⟩ =>
        ⟨hsize, unpackLockRequest_of_rules e default hsize.ge hc hcode (hlen.trans hsize)⟩
    · exact fun ⟨hsize, hok⟩ => ⟨(unpackLockRequest_ok hok).2.2.2.1, hsize⟩
  simp only [requestIn, hiff, forward]

theorem accepts_of_mem_requestsOf {stream frame : List UInt8} (h : frame ∈ requestsOf e stream) :
    Accepts e frame := of_decide_eq_true (List.mem_filter.mp h).2

theorem accepts_of_mem_accepted {notes : List Note} {frame : List UInt8}
    (h : frame ∈ accepted e notes) : Accepts e frame := by
  obtain ⟨stream, -, hframe⟩ := List.mem_flatMap.mp h
  exact accepts_of_mem_requestsOf e hframe

theorem map_wire_forward {frames : List (List UInt8)} (h : ∀ f ∈ frames, Accepts e f) :
    (frames.map forward).map (fun m => m.msg.wire) = frames := by
  rw [List.map_map]
  exact (List.map_congr_left fun f hf => wire_forward e (h f hf)).trans (List.map_id _)

theorem frames_receive (rx : StreamBuffer) (chunk : List UInt8) :
    (receive e rx chunk).frames = requestsOf e (rx.data ++ chunk) := by
  have hfwd : (receive e rx chunk).forwarded =
      (headerFramer.parse (rx.data ++ chunk)).1.filterMap requestIn := by
    have hp := congrArg Parsed.forwarded (receive_parsed e rx chunk)
    simp only [Drained.parsed] at hp
    rw [hp]
    cases (headerFramer.parse (rx.data ++ chunk)).2 <;> rfl
  have hreq : (headerFramer.parse (rx.data ++ chunk)).1.filterMap requestIn =
      (requestsOf e (rx.data ++ chunk)).map forward := by
    rw [requestsOf, cutStream_eq_parse, ← List.filterMap_eq_map, List.filterMap_filter]
    refine List.filterMap_congr fun msg hmsg => ?_
    obtain ⟨hc, hlen, -⟩ := check_of_mem_parse hmsg
    simp [requestIn_eq e hc hlen]
  have hmap : (receive e rx chunk).frames.map forward =
      (requestsOf e (rx.data ++ chunk)).map forward := by
    rw [← forwarded_receive, hfwd, hreq]
  rw [← map_wire_forward e fun f hf => accepts_of_mem_frames e hf, hmap,
    map_wire_forward e fun f hf => accepts_of_mem_requestsOf e hf]

@[simp] theorem requestsOf_nil : requestsOf e [] = [] := by
  simp [requestsOf, cutStream, Header.size]

/-- More of a stream whose beginning is cut adds what the rest comes to. -/
theorem requestsOf_append {d r : List UInt8} (chunk : List UInt8)
    (h : (cutStream d).2 = .pending r) :
    requestsOf e (d ++ chunk) = requestsOf e d ++ requestsOf e (r ++ chunk) := by
  rw [cutStream_eq_parse] at h
  simp only [requestsOf, cutStream_eq_parse, Framer.parse_append d chunk, h, List.filter_append]

theorem cutStream_append {d r : List UInt8} (chunk : List UInt8)
    (h : (cutStream d).2 = .pending r) :
    (cutStream (d ++ chunk)).2 = (cutStream (r ++ chunk)).2 := by
  rw [cutStream_eq_parse] at h
  simp only [cutStream_eq_parse, Framer.parse_append d chunk, h]

theorem pending_receive {d : List UInt8} {rx : StreamBuffer} {chunk : List UInt8}
    (h : (cutStream d).2 = .pending rx.data) (hdrop : (receive e rx chunk).dropped = none) :
    (cutStream (d ++ chunk)).2 = .pending (receive e rx chunk).rx.data := by
  have hp := receive_parsed e rx chunk
  rw [cutStream_append chunk h, cutStream_eq_parse]
  cases hr : (headerFramer.parse (rx.data ++ chunk)).2 with
  | pending d =>
      rw [hr] at hp
      exact congrArg Rest.pending (congrArg Parsed.pending hp).symm
  | dead err =>
      rw [hr] at hp
      have hsome : (receive e rx chunk).dropped = some err := congrArg Parsed.dropped hp
      rw [hdrop] at hsome
      cases hsome

theorem streams_append (notes notes' : List Note) :
    streams (notes ++ notes') = notes'.foldl hear (streams notes) := List.foldl_append

theorem foldl_hear_read (heard : List (List UInt8) × List UInt8) (chunk : List UInt8)
    (frames : List (List UInt8)) :
    (Note.read chunk :: frames.map .cut).foldl hear heard = hear heard (.read chunk) := by
  rw [List.foldl_cons]
  induction frames with
  | nil => rfl
  | cons f frames ih => exact ih

/-- The requests that a pass of `on_idle` completes. -/
def batch (w : Gateway) (env : Env) : List (List UInt8) :=
  match ((w.tcp.pollAccept env.accepted).2.pollRead 1024 env.received).1 with
  | .bytes chunk =>
      requestsOf e ((if (w.tcp.pollAccept env.accepted).1 then [] else w.rx.data) ++ chunk)
  | _ => []

theorem cuts_onIdle (env : Env) (w : Gateway) (table : Segment) :
    cuts (w.onIdle e env table).obs = w.batch e env := by
  have hfirst : cuts (if (w.tcp.pollAccept env.accepted).1 then [Note.connected] else []) = [] := by
    split <;> rfl
  have hrx : (if (w.tcp.pollAccept env.accepted).1 then w.rx.reset else w.rx).data =
      if (w.tcp.pollAccept env.accepted).1 then [] else w.rx.data := by
    split <;> rfl
  simp only [onIdle, batch]
  generalize (if (w.tcp.pollAccept env.accepted).1 then w.rx.reset else w.rx) = rx at hrx
  split
  · next tcp hread =>
      rw [hread, cuts_append, hfirst]
      rfl
  · next tcp hread =>
      rw [hread, hfirst]
  · next chunk tcp hread =>
      simp only [hread, ← hrx, ← frames_receive]
      split
      · rw [cuts_append, cuts_append, hfirst, cuts_read, cuts_map_cut]
        exact List.append_nil _
      · rw [cuts_append, hfirst, cuts_read, cuts_map_cut]
        rfl

/-- Gateway has cut the requests in what it received, and its buffer holds what
the parse of the current connection leaves pending. -/
structure Abreast (w : Gateway) (notes : List Note) : Prop where
  cuts : cuts notes = accepted e notes
  pending : w.tcp.hasClient = true → (cutStream (streams notes).2).2 = .pending w.rx.data

namespace Abreast

variable {e} {w w' : Gateway} {notes : List Note}

theorem init : Abreast e .init [] where
  cuts := by simp [Gateway.cuts]
  pending := fun h => by cases h

theorem quiet (h : Abreast e w notes) {notes' : List Note} (hcuts : Gateway.cuts notes' = [])
    (hhear : ∀ heard, notes'.foldl hear heard = heard) (hrx : w'.rx = w.rx)
    (hclient : w'.tcp.hasClient = true → w.tcp.hasClient = true) :
    Abreast e w' (notes ++ notes') where
  cuts := by rw [cuts_append, hcuts, List.append_nil, h.cuts, accepted, accepted, streams_append,
    hhear]
  pending := fun hc => by rw [streams_append, hhear, hrx, h.pending (hclient hc)]

theorem gone (h : Abreast e w notes) (hclient : w'.tcp.hasClient = false) :
    Abreast e w' (notes ++ [.gone]) where
  cuts := by rw [cuts_append, h.cuts, accepted, accepted, streams_append]; simp [hear, Gateway.cuts]
  pending := fun hc => by rw [hclient] at hc; cases hc

theorem connected (h : Abreast e w notes) (hrx : w'.rx.data = []) :
    Abreast e w' (notes ++ [.connected]) where
  cuts := by
    rw [cuts_append, h.cuts, accepted, accepted, streams_append]
    simp [hear, Gateway.cuts]
  pending := fun _ => by
    rw [streams_append, hrx]
    simp [hear, cutStream, Header.size]

/-- A chunk arrives and is cut; a client that is left has what the loop left. -/
theorem read (h : Abreast e w notes) {chunk : List UInt8} {notes' : List Note}
    (hc : w.tcp.hasClient = true)
    (hcuts : Gateway.cuts notes' = (receive e w.rx chunk).frames)
    (hhear : ∀ heard, notes'.foldl hear heard = hear heard (.read chunk))
    (hclient : w'.tcp.hasClient = true →
      (receive e w.rx chunk).dropped = none ∧ w'.rx = (receive e w.rx chunk).rx) :
    Abreast e w' (notes ++ notes') where
  cuts := by
    have hpend := h.pending hc
    rw [cuts_append, hcuts, h.cuts, frames_receive, accepted, accepted, streams_append, hhear]
    simp only [hear, List.flatMap_append, List.flatMap_singleton, List.append_assoc,
      requestsOf_append e chunk hpend]
  pending := fun hc' => by
    obtain ⟨hdrop, hrx⟩ := hclient hc'
    rw [streams_append, hhear, hrx]
    exact pending_receive e (h.pending hc) hdrop

theorem accept (h : Abreast e w notes) (accepted : Option ℕ) :
    Abreast e ⟨(w.tcp.pollAccept accepted).2,
        if (w.tcp.pollAccept accepted).1 then w.rx.reset else w.rx⟩
      (notes ++ if (w.tcp.pollAccept accepted).1 then [.connected] else []) := by
  cases accepted with
  | none => simpa [TcpServer.pollAccept] using h
  | some fd => exact h.connected rfl

theorem onIdle (h : Abreast e w notes) (env : Env) (table : Segment) :
    Abreast e (w.onIdle e env table).loc (notes ++ (w.onIdle e env table).obs) := by
  have haccept := h.accept env.accepted
  simp only [Gateway.onIdle]
  -- from here on it does not matter whether a client was accepted
  generalize (if (w.tcp.pollAccept env.accepted).1 then w.rx.reset else w.rx) = rx at haccept
  generalize (if (w.tcp.pollAccept env.accepted).1 then [Note.connected] else []) = first
    at haccept
  generalize (w.tcp.pollAccept env.accepted).2 = tcp₀ at haccept
  split
  · next tcp hread =>
      rw [← List.append_assoc]
      exact haccept.gone (by rw [TcpServer.pollRead_gone hread]; rfl)
  · next tcp hread =>
      rw [TcpServer.pollRead_nothing hread]
      exact haccept
  · next chunk tcp hread =>
      obtain ⟨hc, -⟩ := TcpServer.pollRead_bytes.mp (congrArg Prod.fst hread)
      split
      · next err hdrop =>
          rw [List.append_assoc first, ← List.append_assoc notes]
          have hcuts : Gateway.cuts (.read chunk :: (receive e rx chunk).frames.map .cut ++
              [.desync err]) = (receive e rx chunk).frames := by
            rw [cuts_append, cuts_read, cuts_map_cut]
            exact List.append_nil _
          refine haccept.read hc hcuts (fun heard => ?_) (fun hc' => by cases hc')
          rw [List.foldl_append, foldl_hear_read]
          rfl
      · next hdrop =>
          rw [← List.append_assoc notes]
          exact haccept.read hc (by rw [cuts_read, cuts_map_cut])
            (fun heard => foldl_hear_read heard chunk _) fun _ => ⟨hdrop, rfl⟩

theorem onLockResponse (h : Abreast e w notes) (env : Env) (table : Segment)
    (data : List UInt8) :
    Abreast e (w.onLockResponse e env table data).loc
      (notes ++ (w.onLockResponse e env table data).obs) := by
  have hsame : Abreast e w (notes ++ []) := by rwa [List.append_nil]
  simp only [Gateway.onLockResponse]
  split
  · exact hsame
  · split
    · exact hsame
    · split
      · exact hsame
      · exact h.quiet rfl (fun _ => rfl) rfl fun hc => TcpServer.hasClient_of_send hc

end Abreast

end Gateway

/-- Whatever way a connection's bytes are cut into chunks, the receive loop
forwards the same requests, drops the connection or not, for the same reason,
and leaves the same bytes pending: those of the greedy parse of the bytes. -/
theorem receive_chunking_invariant (e : Endian) {chunks chunks' : List (List UInt8)}
    (h : chunks.flatten = chunks'.flatten) :
    Gateway.receiveAll e .empty chunks = Gateway.receiveAll e .empty chunks' ∧
      Gateway.receiveAll e .empty chunks =
        .of (cutStream chunks.flatten).1 (cutStream chunks.flatten).2 := by
  have hparse : ∀ cs : List (List UInt8), Gateway.receiveAll e .empty cs =
      .of (cutStream cs.flatten).1 (cutStream cs.flatten).2 := fun cs => by
    rw [Gateway.receiveAll_eq, StreamBuffer.data_empty, Framer.feedAll_eq_parse,
      cutStream_eq_parse]
  exact ⟨by rw [hparse, hparse, h], hparse chunks⟩

/-- A header that announces an impossible length, whole and split in three. -/
theorem receive_chunking_invariant_garbage :
    Gateway.receiveAll .little .empty [[0x46, 0x43, 1, 0x10, 0xFF, 0xFF] ++ List.replicate 20 7] =
      Gateway.receiveAll .little .empty
        [[0x46, 0x43, 1], [0x10, 0xFF, 0xFF] ++ List.replicate 14 7, List.replicate 6 7] :=
  (receive_chunking_invariant .little (by decide)).1

end Fleetcore
