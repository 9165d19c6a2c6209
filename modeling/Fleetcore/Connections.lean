import Fleetcore.Receive
import Fleetcore.TerminalLink
import Fleetcore.Lib.Sessions

/-!
One process over the connections it accepts.

Gateway and termd serve one client at a time with one receive buffer. Here each
of them runs on its own: what the queue delivers, what the kernel answers and
what the table holds is different from step to step and left open. The trace of
a run falls into sessions, one for every accepted connection, and what a
session comes to depends on the bytes read in it and on nothing before.
-/

namespace Fleetcore.Connections

open ByteOrder StateMachine Framing Sessions

/-! ### A process on its own -/

inductive Action where
  | idle (env : Env) (table : Segment)
  | recv (env : Env) (table : Segment) (data : List UInt8)

inductive Event where
  | saw (n : Note)
  /-- Put on the queue of a key. -/
  | sent (key : ℤ) (data : List UInt8)
  deriving DecidableEq

def events {L : Type} (r : Reaction L) : List Event :=
  r.obs.map .saw ++ r.sends.map fun x => .sent x.1 x.2

/-- A process that has not come back from `send` takes no step. -/
def gatewayStep (e : Endian) (w : Gateway) : Action → Option (Gateway × List Event)
  | .idle env table =>
      if w.tcp.spinning then none
      else
        let r := w.onIdle e env table
        some (r.loc, events r)
  | .recv env table data =>
      if w.tcp.spinning then none
      else
        let r := dispatch (w.handlers e env table) ⟨w, table, [], []⟩ data
        some (r.loc, events r)

def termdStep (e : Endian) (t : Termd) : Action → Option (Termd × List Event)
  | .idle env table =>
      if t.tcp.spinning then none
      else
        let r := t.onIdle e env table
        some (r.loc, events r)
  | .recv env table data =>
      if t.tcp.spinning then none
      else
        let r := dispatch (t.handlers e env table) ⟨t, table, [], []⟩ data
        some (r.loc, events r)

def gatewayMachine (e : Endian) : Machine Gateway Action Event := ⟨gatewayStep e⟩

def termdMachine (e : Endian) : Machine Termd Action Event := ⟨termdStep e⟩

def opens : Event → Bool
  | .saw .connected => true
  | _ => false

/-- The events of the `k`-th connection accepted. -/
abbrev onConnection (k : ℕ) (tr : List Event) : List Event := session opens k tr

def bytesRead (es : List Event) : List UInt8 :=
  es.flatMap fun
    | .saw (.read bytes) => bytes
    | _ => []

def commands (es : List Event) : List (ℤ × List UInt8) :=
  es.filterMap fun
    | .sent key data => some (key, data)
    | _ => none

def decoded (es : List Event) : List (List UInt8) :=
  es.filterMap fun
    | .saw (.decoded frame) => some frame
    | _ => none

theorem bytesRead_append (es es' : List Event) :
    bytesRead (es ++ es') = bytesRead es ++ bytesRead es' := List.flatMap_append

theorem commands_append (es es' : List Event) :
    commands (es ++ es') = commands es ++ commands es' := List.filterMap_append

theorem decoded_append (es es' : List Event) :
    decoded (es ++ es') = decoded es ++ decoded es' := List.filterMap_append

/-! ### Gateway -/

def commandsIn (e : Endian) (stream : List UInt8) : List (ℤ × List UInt8) :=
  (Gateway.requestsOf e stream).map fun f => (queueKey idxLocator, (Gateway.forward f).image e)

def accept (env : Env) (w : Gateway) : Gateway :=
  ⟨(w.tcp.pollAccept env.accepted).2,
    if (w.tcp.pollAccept env.accepted).1 then w.rx.reset else w.rx⟩

def read (e : Endian) (env : Env) (w : Gateway) (table : Segment) : Reaction Gateway :=
  match w.tcp.pollRead 1024 env.received with
  | (.gone, tcp) => ⟨⟨tcp, w.rx.reset⟩, table, [], [.gone]⟩
  | (.nothing, tcp) => ⟨⟨tcp, w.rx⟩, table, [], []⟩
  | (.bytes chunk, tcp) =>
      let d := Gateway.receive e w.rx chunk
      let sends := d.forwarded.flatMap fun m => sendTo idxLocator (m.image e)
      let notes := .read chunk :: d.frames.map .cut
      match d.dropped with
      | some err => ⟨⟨tcp.dropClient, d.rx⟩, table, sends, notes ++ [.desync err]⟩
      | none => ⟨⟨tcp, d.rx⟩, table, sends, notes⟩

theorem onIdle_eq (e : Endian) (env : Env) (w : Gateway) (table : Segment) :
    w.onIdle e env table =
      let r := read e env (accept env w) table
      ⟨r.loc, r.shared, r.sends, (if env.accepted.isSome then [.connected] else []) ++ r.obs⟩ := by
  have hacc : (w.tcp.pollAccept env.accepted).1 = env.accepted.isSome := by
    cases env.accepted <;> rfl
  simp only [Gateway.onIdle, read, accept, hacc]
  generalize (if env.accepted.isSome then w.rx.reset else w.rx) = rx
  generalize (w.tcp.pollAccept env.accepted).2.pollRead 1024 env.received = result
  obtain ⟨chunk | _ | _, tcp⟩ := result
  · cases hdrop : (Gateway.receive e rx chunk).dropped with
    | none => simp [hdrop]
    | some err => simp [hdrop]
  · simp
  · rfl

/-- The session that is going on has come to its commands, and the buffer holds
what it leaves pending. -/
structure Abreast (e : Endian) (cur : List Event) (w : Gateway) : Prop where
  commands : commands cur = commandsIn e (bytesRead cur)
  pending : w.tcp.hasClient = true → (cutStream (bytesRead cur)).2 = .pending w.rx.data

theorem commandsIn_nil (e : Endian) : commandsIn e [] = [] := by
  simp [commandsIn]

theorem Abreast.start (e : Endian) {w : Gateway} (hrx : w.rx.data = []) : Abreast e [] w where
  commands := (commandsIn_nil e).symm
  pending := fun _ => by
    rw [hrx]
    simp [bytesRead, cutStream, Header.size]

theorem Abreast.quiet {e : Endian} {cur es : List Event} {w w' : Gateway} (h : Abreast e cur w)
    (hcommands : Connections.commands es = []) (hread : bytesRead es = [])
    (hpending : w'.tcp.hasClient = true → w.tcp.hasClient = true ∧ w'.rx = w.rx) :
    Abreast e (cur ++ es) w' where
  commands := by
    rw [commands_append, hcommands, bytesRead_append, hread, List.append_nil, List.append_nil,
      h.commands]
  pending := fun hc => by
    obtain ⟨hc', hrx⟩ := hpending hc
    rw [bytesRead_append, hread, List.append_nil, hrx, h.pending hc']

theorem Abreast.read {e : Endian} {cur es : List Event} {w w' : Gateway} {chunk : List UInt8}
    (h : Abreast e cur w) (hc : w.tcp.hasClient = true)
    (hcommands : Connections.commands es = commandsIn e (w.rx.data ++ chunk))
    (hread : bytesRead es = chunk)
    (hclient : w'.tcp.hasClient = true → (Gateway.receive e w.rx chunk).dropped = none ∧
      w'.rx = (Gateway.receive e w.rx chunk).rx) : Abreast e (cur ++ es) w' where
  commands := by
    rw [commands_append, hcommands, bytesRead_append, hread, h.commands]
    simp only [commandsIn, Gateway.requestsOf_append e chunk (h.pending hc), List.map_append]
  pending := fun hc' => by
    obtain ⟨hdrop, hrx⟩ := hclient hc'
    rw [bytesRead_append, hread, hrx]
    exact Gateway.pending_receive e (h.pending hc) hdrop

theorem bytesRead_notes {notes : List Note} (chunk : List UInt8)
    (hnotes : ∀ bytes, .read bytes ∉ notes) :
    bytesRead ((Note.read chunk :: notes).map .saw) = chunk := by
  have hquiet : bytesRead (notes.map .saw) = [] := by
    refine List.flatMap_eq_nil_iff.mpr fun ev hev => ?_
    obtain ⟨n, hn, rfl⟩ := List.mem_map.mp hev
    cases n with
    | read bytes => exact absurd hn (hnotes bytes)
    | _ => rfl
  have hfirst : bytesRead [.saw (.read chunk)] = chunk := List.append_nil chunk
  rw [List.map_cons, ← List.singleton_append, bytesRead_append, hquiet, hfirst, List.append_nil]

theorem bytesRead_sent (sends : List (ℤ × List UInt8)) :
    bytesRead (sends.map fun x => .sent x.1 x.2) = [] := by
  apply List.flatMap_eq_nil_iff.mpr
  intro ev hev
  obtain ⟨x, -, rfl⟩ := List.mem_map.mp hev
  rfl

theorem decoded_sent (sends : List (ℤ × List UInt8)) :
    decoded (sends.map fun x => .sent x.1 x.2) = [] := by
  apply List.filterMap_eq_nil_iff.mpr
  intro ev hev
  obtain ⟨x, -, rfl⟩ := List.mem_map.mp hev
  rfl

theorem bytesRead_events {notes : List Note} (chunk : List UInt8)
    (sends : List (ℤ × List UInt8)) (hnotes : ∀ bytes, .read bytes ∉ notes) :
    bytesRead ((Note.read chunk :: notes).map .saw ++ sends.map fun x => .sent x.1 x.2) =
      chunk := by
  rw [bytesRead_append, bytesRead_sent, bytesRead_notes chunk hnotes, List.append_nil]

theorem commands_events (notes : List Note) (sends : List (ℤ × List UInt8)) :
    commands (notes.map .saw ++ sends.map fun x => .sent x.1 x.2) = sends := by
  have hnotes : commands (notes.map .saw) = [] := by
    refine List.filterMap_eq_nil_iff.mpr fun ev hev => ?_
    obtain ⟨n, -, rfl⟩ := List.mem_map.mp hev
    rfl
  rw [commands_append, hnotes, commands, List.filterMap_map, List.nil_append]
  exact List.filterMap_some

theorem opens_sent (sends : List (ℤ × List UInt8)) :
    ∀ ev ∈ sends.map fun x => Event.sent x.1 x.2, opens ev = false := by
  intro ev hev
  obtain ⟨x, -, rfl⟩ := List.mem_map.mp hev
  rfl

theorem opens_events {notes : List Note} (h : .connected ∉ notes)
    (sends : List (ℤ × List UInt8)) :
    ∀ ev ∈ notes.map .saw ++ sends.map fun x => Event.sent x.1 x.2, opens ev = false := by
  intro ev hev
  rcases List.mem_append.mp hev with hnote | hsent
  · obtain ⟨n, hn, rfl⟩ := List.mem_map.mp hnote
    cases n with
    | connected => exact absurd hn h
    | _ => rfl
  · exact opens_sent sends ev hsent

/-- The second half of `on_idle` adds to the session that is going on. -/
theorem Abreast.read_step {e : Endian} {cur : List Event} {w : Gateway} (h : Abreast e cur w)
    (env : Env) (table : Segment) :
    Abreast e (cur ++ events (Connections.read e env w table))
        (Connections.read e env w table).loc ∧
      ∀ ev ∈ events (Connections.read e env w table), opens ev = false := by
  simp only [Connections.read]
  split
  · next tcp hread =>
      refine ⟨h.quiet rfl rfl fun hc => ?_, by simp [events, opens]⟩
      rw [TcpServer.pollRead_gone hread] at hc
      cases hc
  · next tcp hread =>
      refine ⟨h.quiet rfl rfl fun hc => ?_, by simp [events]⟩
      rw [TcpServer.pollRead_nothing hread] at hc
      exact ⟨hc, rfl⟩
  · next chunk tcp hread =>
      obtain ⟨hc, -⟩ := TcpServer.pollRead_bytes.mp (congrArg Prod.fst hread)
      have hsends := Gateway.sends_receive e w.rx chunk
      rw [Gateway.frames_receive] at hsends
      split
      · next err hdrop =>
          refine ⟨h.read hc ?_ (bytesRead_events chunk _ ?_) (fun hc' => by cases hc'),
            opens_events (by simp) _⟩
          · rw [events, commands_events, hsends]
            rfl
          · simp
      · next hdrop =>
          refine ⟨h.read hc ?_ (bytesRead_events chunk _ ?_) fun _ => ⟨hdrop, rfl⟩,
            opens_events (by simp) _⟩
          · rw [events, commands_events, hsends]
            rfl
          · simp

theorem dispatch_gateway (e : Endian) (env : Env) (w : Gateway) (table : Segment)
    (data : List UInt8) :
    dispatch (w.handlers e env table) ⟨w, table, [], []⟩ data =
      if IpcHeader.size ≤ data.length ∧ data.getD 0 0 = ipcLockResponse then
        w.onLockResponse e env table data
      else ⟨w, table, [], []⟩ := dispatch_single ipcLockResponse _ _ data

theorem dispatch_termd (e : Endian) (env : Env) (t : Termd) (table : Segment)
    (data : List UInt8) :
    dispatch (t.handlers e env table) ⟨t, table, [], []⟩ data =
      if IpcHeader.size ≤ data.length ∧ data.getD 0 0 = ipcLockRequest then
        t.onLockRequest e env table data
      else ⟨t, table, [], []⟩ := dispatch_single ipcLockRequest _ _ data

/-- What a step of gateway shows: a read, behind a connection that has been
accepted or not, a frame handed over, or nothing. -/
inductive GatewayStep (e : Endian) (w : Gateway) : Gateway → List Event → Prop
  | read (env : Env) (table : Segment) :
      GatewayStep e w (Connections.read e env w table).loc
        (events (Connections.read e env w table))
  | connect {env : Env} (hrx : (accept env w).rx.data = []) (table : Segment) :
      GatewayStep e w (Connections.read e env (accept env w) table).loc
        (.saw .connected :: events (Connections.read e env (accept env w) table))
  | hand (hc : w.tcp.hasClient = true) (frame : List UInt8) (os : List SendOutcome) :
      GatewayStep e w { w with tcp := (w.tcp.send frame.length os).2 }
        [.saw (.handed frame (w.tcp.send frame.length os).1)]
  | nothing : GatewayStep e w w []

theorem gatewayStep_cases {e : Endian} {w w' : Gateway} {a : Action} {es : List Event}
    (hs : gatewayStep e w a = some (w', es)) :
    w.tcp.spinning = false ∧ GatewayStep e w w' es := by
  cases a with
  | idle env table =>
      simp only [gatewayStep, Option.ite_none_left_eq_some, Option.some.injEq, Prod.mk.injEq,
        Bool.not_eq_true] at hs
      obtain ⟨hspin, rfl, rfl⟩ := hs
      refine ⟨hspin, ?_⟩
      rw [onIdle_eq]
      cases hacc : env.accepted with
      | none =>
          have hsame : accept env w = w := by simp [accept, TcpServer.pollAccept, hacc]
          rw [hsame]
          exact .read env table
      | some fd => exact .connect (by simp [accept, TcpServer.pollAccept, hacc]) table
  | recv env table data =>
      simp only [gatewayStep, Option.ite_none_left_eq_some, Option.some.injEq, Prod.mk.injEq,
        Bool.not_eq_true] at hs
      obtain ⟨hspin, rfl, rfl⟩ := hs
      refine ⟨hspin, ?_⟩
      rw [dispatch_gateway]
      split
      · simp only [Gateway.onLockResponse]
        split
        · exact .nothing
        · split
          · exact .nothing
          · next hc =>
              split
              · exact .nothing
              · exact .hand (by simpa using hc) _ env.sends
      · exact .nothing

theorem Abreast.step {e : Endian} {cur es : List Event} {w w' : Gateway} {a : Action}
    (h : Abreast e cur w) (hs : gatewayStep e w a = some (w', es)) :
    Advance opens (Abreast e) cur es w' := by
  cases (gatewayStep_cases hs).2 with
  | read env table =>
      obtain ⟨hread, hopens⟩ := h.read_step env table
      exact .goes hopens hread
  | @connect env hrx table =>
      obtain ⟨hread, hopens⟩ := (Abreast.start e hrx).read_step env table
      exact .starts rfl rfl hopens hread
  | hand hc frame os =>
      exact .goes (by simp [opens])
        (h.quiet rfl rfl fun hc' => ⟨TcpServer.hasClient_of_send hc', rfl⟩)
  | nothing => exact .goes (by simp) (h.quiet rfl rfl fun hc => ⟨hc, rfl⟩)

theorem commands_gateway {e : Endian} {tr : List Event} {w : Gateway}
    (h : Run (gatewayMachine e) Always .init tr w) (k : ℕ) :
    commands (onConnection k tr) = commandsIn e (bytesRead (onConnection k tr)) :=
  Run.sessions h (Abreast e) (fun es => commands es = commandsIn e (bytesRead es))
    (fun _ _ h => h.commands) (.start e rfl) (fun _ _ _ _ _ h _ hs => h.step hs) k

/-! ### Termd -/

def restNotes : Rest UInt8 WireError → List Note
  | .pending _ => []
  | .dead err => [.desync err]

/-- The receive loop notes the messages the parse of the stream cuts. -/
theorem drain_snd (e : Endian) {fuel : ℕ} {t : Termd} (h : t.rx.pending < fuel) :
    (Termd.drain e fuel t).2 = (headerFramer.parse t.rx.data).1.map .decoded ++
      restNotes (headerFramer.parse t.rx.data).2 := by
  induction fuel generalizing t with
  | zero => omega
  | succ fuel ih =>
      cases hn : t.rx.next with
      | none =>
          rw [Framer.parse_wait (look_of_next_none hn)]
          simp only [Termd.drain, hn, restNotes, List.map_nil, List.append_nil]
      | some msg =>
          have hl := look_of_next hn
          obtain ⟨-, hmin, -⟩ := StreamBuffer.next_eq_some hn
          have hshort := StreamBuffer.pending_consume_lt hn
          simp only [Termd.drain, hn, Termd.handleFromTerminal, unpackHeader_eq e default hmin]
          by_cases hc : (Header.ofWire msg).check = .ok
          · rw [if_pos hc] at hl
            have hrest := ih (t := { t with rx := t.rx.consume msg.length }) (by
              simp only
              omega)
            simp only [StreamBuffer.data_consume] at hrest
            rw [if_neg (not_not.mpr hc), Framer.parse_frame hl, hrest]
            rfl
          · rw [if_neg hc] at hl
            rw [if_pos hc, Framer.parse_reject hl]
            -- the buffer was reset, so the loop ends with the next turn
            have hreset : t.rx.reset.consume msg.length = .empty := by
              simp [StreamBuffer.reset, StreamBuffer.consume, StreamBuffer.empty]
            have hend : ∀ t' : Termd, t'.rx = .empty → (Termd.drain e fuel t').2 = [] :=
              fun t' ht' => by cases fuel <;> simp [Termd.drain, ht', StreamBuffer.empty,
                StreamBuffer.next_nil]
            rw [hend _ hreset, List.append_nil]
            rfl

theorem receive_snd (e : Endian) (t : Termd) (chunk : List UInt8) :
    (Termd.receive e t chunk).2 = (cutStream (t.rx.data ++ chunk)).1.map .decoded ++
      restNotes (cutStream (t.rx.data ++ chunk)).2 := by
  rw [Termd.receive, drain_snd e (Nat.lt_succ_self _), cutStream_eq_parse]
  rfl

structure TermdAbreast (cur : List Event) (t : Termd) : Prop where
  decoded : decoded cur = (cutStream (bytesRead cur)).1
  pending : t.tcp.hasClient = true → (cutStream (bytesRead cur)).2 = .pending t.rx.data

theorem TermdAbreast.start {t : Termd} (hrx : t.rx.data = []) : TermdAbreast [] t where
  decoded := by simp [Connections.decoded, bytesRead, cutStream, Header.size]
  pending := fun _ => by
    rw [hrx]
    simp [bytesRead, cutStream, Header.size]

theorem TermdAbreast.quiet {cur es : List Event} {t t' : Termd} (h : TermdAbreast cur t)
    (hdecoded : Connections.decoded es = []) (hread : bytesRead es = [])
    (hpending : t'.tcp.hasClient = true → t.tcp.hasClient = true ∧ t'.rx = t.rx) :
    TermdAbreast (cur ++ es) t' where
  decoded := by
    rw [decoded_append, hdecoded, bytesRead_append, hread, List.append_nil, List.append_nil,
      h.decoded]
  pending := fun hc => by
    obtain ⟨hc', hrx⟩ := hpending hc
    rw [bytesRead_append, hread, List.append_nil, hrx, h.pending hc']

theorem decoded_events (chunk : List UInt8) (frames : List (List UInt8))
    (rest : Rest UInt8 WireError) :
    decoded ((Note.read chunk :: (frames.map .decoded ++ restNotes rest)).map .saw) = frames := by
  have hrest : decoded ((restNotes rest).map .saw) = [] := by cases rest <;> rfl
  have hframes : decoded ((frames.map Note.decoded).map .saw) = frames := by
    simp only [decoded, List.map_map, List.filterMap_map]
    exact List.filterMap_some
  rw [List.map_cons, List.map_append, ← List.singleton_append, decoded_append, decoded_append,
    hrest, hframes, List.append_nil]
  rfl

theorem TermdAbreast.read_step {cur : List Event} {t : Termd} (h : TermdAbreast cur t)
    (e : Endian) (env : Env) (table : Segment) :
    TermdAbreast (cur ++ (Termd.read e env t table).obs.map .saw) (Termd.read e env t table).loc ∧
      .connected ∉ (Termd.read e env t table).obs := by
  simp only [Termd.read]
  split
  · next tcp hread =>
      refine ⟨h.quiet rfl rfl fun hc => ?_, by simp⟩
      rw [TcpServer.pollRead_gone hread] at hc
      cases hc
  · next tcp hread =>
      refine ⟨h.quiet rfl rfl fun hc => ?_, by simp⟩
      rw [TcpServer.pollRead_nothing hread] at hc
      exact ⟨hc, rfl⟩
  · next chunk tcp hread =>
      obtain ⟨hc, -⟩ := TcpServer.pollRead_bytes.mp (congrArg Prod.fst hread)
      -- the buffer holds what the cuts so far have left, so the cuts go on from there
      have hpend := h.pending hc
      rw [cutStream_eq_parse] at hpend
      have happ := Framer.parse_append (F := headerFramer) (bytesRead cur) chunk
      rw [hpend] at happ
      simp only [← cutStream_eq_parse] at happ
      have hbytes : bytesRead ((Note.read chunk :: (Termd.receive e ⟨t.slot, tcp, t.rx⟩
          chunk).2).map .saw) = chunk := bytesRead_notes chunk fun bytes => by
        rw [receive_snd]
        cases (cutStream (t.rx.data ++ chunk)).2 <;> simp [restNotes]
      refine ⟨⟨?_, fun hc' => ?_⟩, ?_⟩
      · rw [decoded_append, h.decoded, bytesRead_append, hbytes, receive_snd, decoded_events, happ]
      · rw [bytesRead_append, hbytes, happ]
        rw [TerminalLink.receive_fst] at hc' ⊢
        cases hr : (cutStream (t.rx.data ++ chunk)).2 with
        | pending d => rfl
        | dead err =>
            rw [hr] at hc'
            cases hc'
      · rw [receive_snd]
        cases (cutStream (t.rx.data ++ chunk)).2 <;> simp [restNotes]

theorem opens_notes {notes : List Note} (h : .connected ∉ notes) :
    ∀ ev ∈ notes.map .saw, opens ev = false := by
  have hev := opens_events h []
  rwa [List.map_nil, List.append_nil] at hev

inductive TermdStep (e : Endian) (t : Termd) : Termd → List Event → Prop
  | read (env : Env) (table : Segment) :
      TermdStep e t (t.read e env table).loc ((t.read e env table).obs.map .saw)
  | connect {env : Env} {table : Segment} (hrx : (t.accept env table).loc.rx.data = [])
      (table' : Segment) :
      TermdStep e t ((t.accept env table).loc.read e env table').loc
        (.saw .connected :: ((t.accept env table).loc.read e env table').obs.map .saw)
  | hand (hc : t.tcp.hasClient = true) (frame : List UInt8) (os : List SendOutcome)
      (sends : List (ℤ × List UInt8)) :
      TermdStep e t { t with tcp := (t.tcp.send frame.length os).2 }
        (.saw (.handed frame (t.tcp.send frame.length os).1) ::
          sends.map fun x => .sent x.1 x.2)
  | answer (sends : List (ℤ × List UInt8)) :
      TermdStep e t t (sends.map fun x => .sent x.1 x.2)

theorem termdStep_cases {e : Endian} {t t' : Termd} {a : Action} {es : List Event}
    (hs : termdStep e t a = some (t', es)) : t.tcp.spinning = false ∧ TermdStep e t t' es := by
  cases a with
  | idle env table =>
      simp only [termdStep, Option.ite_none_left_eq_some, Option.some.injEq, Prod.mk.injEq,
        Bool.not_eq_true] at hs
      obtain ⟨hspin, rfl, rfl⟩ := hs
      refine ⟨hspin, ?_⟩
      simp only [events, Termd.onIdle, List.map_nil, List.append_nil, List.map_append]
      cases hacc : env.accepted with
      | none =>
          have hloc : (t.accept env table).loc = t := by
            simp [Termd.accept, TcpServer.pollAccept, hacc]
          have hobs : (t.accept env table).obs = [] := by
            simp [Termd.accept, TcpServer.pollAccept, hacc]
          rw [hloc, hobs]
          exact .read env _
      | some fd =>
          have hobs : (t.accept env table).obs = [.connected] := by
            simp [Termd.accept, TcpServer.pollAccept, hacc]
          rw [hobs]
          exact .connect (by simp [Termd.accept, TcpServer.pollAccept, hacc]) _
  | recv env table data =>
      simp only [termdStep, Option.ite_none_left_eq_some, Option.some.injEq, Prod.mk.injEq,
        Bool.not_eq_true] at hs
      obtain ⟨hspin, rfl, rfl⟩ := hs
      refine ⟨hspin, ?_⟩
      rw [dispatch_termd]
      split
      · by_cases hlen : data.length = IpcLockRequest.size
        · cases hc : t.tcp.hasClient with
          | false =>
              rw [Termd.onLockRequest_of_no_client hlen hc]
              exact .answer _
          | true =>
              have hframe := Termd.length_frameOf e (IpcLockRequest.ofImage e data).msg
              rw [Termd.onLockRequest_of_client hlen hc, ← hframe]
              exact .hand hc _ env.sends _
        · rw [Termd.onLockRequest, if_pos hlen]
          exact .answer []
      · exact .answer []

theorem TermdAbreast.step {e : Endian} {cur es : List Event} {t t' : Termd} {a : Action}
    (h : TermdAbreast cur t) (hs : termdStep e t a = some (t', es)) :
    Advance opens TermdAbreast cur es t' := by
  cases (termdStep_cases hs).2 with
  | read env table =>
      obtain ⟨hread, hopens⟩ := h.read_step e env table
      exact .goes (opens_notes hopens) hread
  | @connect env table hrx table' =>
      obtain ⟨hread, hopens⟩ := (TermdAbreast.start hrx).read_step e env table'
      exact .starts rfl rfl (opens_notes hopens) hread
  | hand hc frame os sends =>
      exact .goes (List.forall_mem_cons.mpr ⟨rfl, opens_sent sends⟩)
        (h.quiet (decoded_sent sends) (bytesRead_sent sends) fun _ => ⟨hc, rfl⟩)
  | answer sends =>
      exact .goes (opens_sent sends)
        (h.quiet (decoded_sent sends) (bytesRead_sent sends) fun hc => ⟨hc, rfl⟩)

theorem decoded_termd {e : Endian} {slot : Int32} {tr : List Event} {t : Termd}
    (h : Run (termdMachine e) Always (.listening slot) tr t) (k : ℕ) :
    decoded (onConnection k tr) = (cutStream (bytesRead (onConnection k tr))).1 :=
  Run.sessions h TermdAbreast (fun es => decoded es = (cutStream (bytesRead es)).1)
    (fun _ _ h => h.decoded) (.start rfl) (fun _ _ _ _ _ h _ hs => h.step hs) k

/-! ### Connections do not leak into one another -/

/-- What gateway forwards, and what termd decodes, during a connection is a
function of the bytes read on it: in two runs that read the same on a
connection the same comes of it, whatever happened on the connections before. -/
theorem connections_isolated (e : Endian) :
    (∀ tr w k, Run (gatewayMachine e) Always .init tr w →
      commands (onConnection k tr) = commandsIn e (bytesRead (onConnection k tr))) ∧
    (∀ tr w tr' w' k, Run (gatewayMachine e) Always .init tr w →
      Run (gatewayMachine e) Always .init tr' w' →
        bytesRead (onConnection k tr) = bytesRead (onConnection k tr') →
          commands (onConnection k tr) = commands (onConnection k tr')) ∧
    (∀ slot tr t k, Run (termdMachine e) Always (.listening slot) tr t →
      decoded (onConnection k tr) = (cutStream (bytesRead (onConnection k tr))).1) ∧
    ∀ slot tr t tr' t' k, Run (termdMachine e) Always (.listening slot) tr t →
      Run (termdMachine e) Always (.listening slot) tr' t' →
        bytesRead (onConnection k tr) = bytesRead (onConnection k tr') →
          decoded (onConnection k tr) = decoded (onConnection k tr') := by
  refine ⟨fun tr w k h => commands_gateway h k, fun tr w tr' w' k h h' hbytes => ?_,
    fun slot tr t k h => decoded_termd h k, fun slot tr t tr' t' k h h' hbytes => ?_⟩
  · rw [commands_gateway h k, commands_gateway h' k, hbytes]
  · rw [decoded_termd h k, decoded_termd h' k, hbytes]

/-- Half a frame is left when the second client takes the first one's place; in
the other run the first client sends a whole one and leaves. -/
theorem connections_isolated_half_frame : ∃ tr w tr' w',
    Run (gatewayMachine .little) Always .init tr w ∧
      Run (gatewayMachine .little) Always .init tr' w' ∧
      bytesRead (onConnection 1 tr) ≠ bytesRead (onConnection 1 tr') ∧
      commands (onConnection 2 tr) ≠ [] ∧
      commands (onConnection 2 tr) = commands (onConnection 2 tr') := by
  let frame := (makeLockRequest ⟨0x31, 0x30, 0x30, 0x31⟩ 7 0).wire
  let accepts (fd : ℕ) (bytes : List UInt8) : Action :=
    .idle { Env.quiet with accepted := some fd, received := .data bytes } .zero
  let reads (bytes : List UInt8) : Action :=
    .idle { Env.quiet with received := .data bytes } .zero
  obtain ⟨tr, w, h, hQ⟩ := (gatewayMachine .little).exists_run_of_exec Always .init
    [accepts 5 (frame.take 10), accepts 6 frame]
    (fun r => decide (bytesRead (onConnection 1 r.2) = frame.take 10 ∧
      bytesRead (onConnection 2 r.2) = frame ∧ commands (onConnection 2 r.2) ≠ []))
    (by decide +kernel) (by decide +kernel)
  obtain ⟨tr', w', h', hQ'⟩ := (gatewayMachine .little).exists_run_of_exec Always .init
    [accepts 5 frame, reads [], accepts 6 (frame.take 3), reads (frame.drop 3)]
    (fun r => decide (bytesRead (onConnection 1 r.2) = frame ∧
      bytesRead (onConnection 2 r.2) = frame))
    (by decide +kernel) (by decide +kernel)
  obtain ⟨hfirst, hsecond, hsome⟩ := of_decide_eq_true hQ
  obtain ⟨hfirst', hsecond'⟩ := of_decide_eq_true hQ'
  refine ⟨tr, w, tr', w', h, h', ?_, hsome, (connections_isolated .little).2.1 tr w tr' w' 2 h h'
    (hsecond.trans hsecond'.symm)⟩
  rw [hfirst, hfirst']
  decide

end Fleetcore.Connections
