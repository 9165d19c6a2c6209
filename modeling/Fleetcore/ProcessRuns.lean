import Fleetcore.ProcessCrash
import Fleetcore.WholeFrames

/-!
Gateway and the termds of a system, each on its own.

What gateway, or one termd, does in a run of the system is a run of that process
alone, with whatever the queue, the kernel and the table had for it, and with
the crashes it has. So what holds of the connections of a process on its own
holds of its connections in the system.
-/

namespace Fleetcore.System

open ByteOrder StateMachine Mailbox Sessions

/-- What `p` shows of itself on its connections and queues. -/
def shows (p : ProcId) : Event → Option Connections.Event
  | .saw q n => if q = p then some (.saw n) else none
  | .posted q k m => if q = p then some (.sent k m) else none
  | _ => none

theorem filterMap_shows_events {L : Type} (f : L → Loc) (p : ProcId) (r : Fleetcore.Reaction L) :
    ((lift f r).events p).filterMap (shows p) = Connections.events r := by
  rw [Reaction.events, Connections.events, List.filterMap_append, List.filterMap_map,
    List.filterMap_map]
  congr 1
  · rw [← List.filterMap_eq_map]
    exact List.filterMap_congr fun n _ => by simp [shows]
  · rw [← List.filterMap_eq_map]
    exact List.filterMap_congr fun x _ => by simp [shows]

/-- Gateway as it is, or as it will come up. -/
def gatewayOf (s : State) : Gateway :=
  match s.proc .gateway with
  | some ⟨.gateway w, _⟩ => w
  | _ => .init

def termdOf (slot : Slot) (s : State) : Termd :=
  match s.proc (.termd slot) with
  | some ⟨.termd t, _⟩ => t
  | _ => .listening slot.val

theorem gatewayOf_congr {s s' : State} (h : s'.proc .gateway = s.proc .gateway) :
    gatewayOf s' = gatewayOf s := by rw [gatewayOf, h, gatewayOf]

theorem termdOf_congr {slot : Slot} {s s' : State}
    (h : s'.proc (.termd slot) = s.proc (.termd slot)) : termdOf slot s' = termdOf slot s := by
  rw [termdOf, h, termdOf]

theorem shows_other {p : ProcId} (ev : Event) (h : ev.proc ≠ p) : shows p ev = none := by
  cases ev with
  | saw q n => exact if_neg h
  | posted q k m => exact if_neg h
  | _ => rfl

variable {e : Endian} {cap : Option ℕ}

section Steps

variable {s s' : State} {a : Action} {es : List Event}

theorem gateway_part (hs : (program e).step cap s a = some (s', es)) :
    (∃ a', (Connections.gatewayMachine e).step (gatewayOf s) a' =
        some (gatewayOf s', es.filterMap (shows .gateway))) ∨
      gatewayOf s' = gatewayOf s ∧ es.filterMap (shows .gateway) = [] := by
  cases partOf_of_step hs .gateway with
  | started hp hr hp' hes =>
      obtain rfl := Option.some.inj hr
      exact .inr ⟨by simp [gatewayOf, hp, hp'], by rw [hes]; rfl⟩
  | @took i loc m r hp hr hp' hes =>
      cases loc with
      | gateway w =>
          simp only [program, recv, Option.ite_none_left_eq_some, Option.some.injEq,
            Bool.not_eq_true] at hr
          obtain ⟨hspin, rfl⟩ := hr
          refine .inl ⟨.recv i s.shared m, ?_⟩
          rw [hes, List.filterMap_cons_none rfl, filterMap_shows_events]
          simp [Connections.gatewayMachine, Connections.gatewayStep, gatewayOf, hp, hp', hspin,
            lift]
      | locator => cases hr
      | termd t => cases hr
  | @idled i loc r hp hr hp' hes =>
      cases loc with
      | gateway w =>
          simp only [program, idle, Option.ite_none_left_eq_some, Option.some.injEq,
            Bool.not_eq_true] at hr
          obtain ⟨hspin, rfl⟩ := hr
          refine .inl ⟨.idle i s.shared, ?_⟩
          rw [hes, filterMap_shows_events]
          simp [Connections.gatewayMachine, Connections.gatewayStep, gatewayOf, hp, hp', hspin,
            lift]
      | locator => cases hr
      | termd t => cases hr
  | @flushed loc x rest hp hp' hes =>
      refine .inr ⟨by rw [gatewayOf, gatewayOf, hp, hp']; cases loc <;> rfl, ?_⟩
      rcases hes with rfl | rfl <;> rfl
  | other hp hes =>
      exact .inr ⟨gatewayOf_congr hp,
        List.filterMap_eq_nil_iff.mpr fun ev hev => shows_other ev (hes ev hev)⟩

theorem termd_part (slot : Slot) (hs : (program e).step cap s a = some (s', es)) :
    (∃ a', (Connections.termdMachine e).step (termdOf slot s) a' =
        some (termdOf slot s', es.filterMap (shows (.termd slot)))) ∨
      termdOf slot s' = termdOf slot s ∧ es.filterMap (shows (.termd slot)) = [] := by
  cases partOf_of_step hs (.termd slot) with
  | started hp hr hp' hes =>
      simp only [program, System.start, Option.map_eq_some_iff, Termd.onInit,
        Option.ite_none_right_eq_some] at hr
      obtain ⟨_, ⟨-, hr⟩, rfl⟩ := hr
      obtain rfl := Option.some.inj hr
      exact .inr ⟨by simp [termdOf, hp, hp', lift], by rw [hes]; rfl⟩
  | @took i loc m r hp hr hp' hes =>
      cases loc with
      | termd t =>
          simp only [program, recv, Option.ite_none_left_eq_some, Option.some.injEq,
            Bool.not_eq_true] at hr
          obtain ⟨hspin, rfl⟩ := hr
          refine .inl ⟨.recv i s.shared m, ?_⟩
          rw [hes, List.filterMap_cons_none rfl, filterMap_shows_events]
          simp [Connections.termdMachine, Connections.termdStep, termdOf, hp, hp', hspin, lift]
      | locator => cases hr
      | gateway w => cases hr
  | @idled i loc r hp hr hp' hes =>
      cases loc with
      | termd t =>
          simp only [program, idle, Option.ite_none_left_eq_some, Option.some.injEq,
            Bool.not_eq_true] at hr
          obtain ⟨hspin, rfl⟩ := hr
          refine .inl ⟨.idle i s.shared, ?_⟩
          rw [hes, filterMap_shows_events]
          simp [Connections.termdMachine, Connections.termdStep, termdOf, hp, hp', hspin, lift]
      | locator => cases hr
      | gateway w => cases hr
  | @flushed loc x rest hp hp' hes =>
      refine .inr ⟨by rw [termdOf, termdOf, hp, hp']; cases loc <;> rfl, ?_⟩
      rcases hes with rfl | rfl <;> rfl
  | other hp hes =>
      exact .inr ⟨termdOf_congr hp,
        List.filterMap_eq_nil_iff.mpr fun ev hev => shows_other ev (hes ev hev)⟩

end Steps

variable {ok : State → Turn → Prop} {table : Segment} {s : State} {tr : List Event}

theorem gateway_run (h : Run (mortal e cap) ok (State.init table) tr s) :
    Run ((Connections.gatewayMachine e).crashing .init) Always .init
      (tr.filterMap (shows .gateway)) (gatewayOf s) :=
  part_run gatewayOf (shows .gateway) (fun _ _ hp => gatewayOf_congr hp)
    (fun s hp => by rw [gatewayOf, hp]) shows_other (fun _ _ _ _ hs => gateway_part hs) h

theorem termd_run (slot : Slot) (h : Run (mortal e cap) ok (State.init table) tr s) :
    Run ((Connections.termdMachine e).crashing (.listening slot.val)) Always (.listening slot.val)
      (tr.filterMap (shows (.termd slot))) (termdOf slot s) :=
  part_run (termdOf slot) (shows (.termd slot)) (fun _ _ hp => termdOf_congr hp)
    (fun s hp => by rw [termdOf, hp]) shows_other (fun _ _ _ _ hs => termd_part slot hs) h

/-! ### What the connections of a process come to -/

def seen (es : List Connections.Event) : List Note :=
  es.filterMap fun
    | .saw n => some n
    | .sent _ _ => none

theorem seen_shows (p : ProcId) (tr : List Event) : seen (tr.filterMap (shows p)) = sawBy p tr := by
  rw [seen, List.filterMap_filterMap]
  refine List.filterMap_congr fun ev _ => ?_
  cases ev with
  | saw q n => by_cases hq : q = p <;> simp [shows, Event.sawBy?, hq]
  | posted q k m => by_cases hq : q = p <;> simp [shows, Event.sawBy?, hq]
  | _ => rfl

theorem bytesRead_concat (k : ℕ) (es : List Connections.Event) (ev : Connections.Event) :
    Connections.bytesRead (Connections.onConnection k (es ++ [ev])) =
      Connections.bytesRead (Connections.onConnection k es) ++
        if (es ++ [ev]).countP Connections.opens = k then Connections.bytesRead [ev] else [] := by
  rw [Connections.bytesRead, flatMap_session_concat fun ev' hev' => ?_]
  · simp [Connections.bytesRead]
  · cases ev' with
    | saw n =>
        cases n with
        | read bytes => cases hev'
        | _ => rfl
    | sent key m => rfl

/-- The streams of gateway are what it has read on each connection. -/
theorem streams_seen (es : List Connections.Event) : Gateway.streams (seen es) =
    ((List.range (es.countP Connections.opens)).map fun k =>
        Connections.bytesRead (Connections.onConnection k es),
      Connections.bytesRead (Connections.onConnection (es.countP Connections.opens) es)) := by
  induction es using List.reverseRecOn with
  | nil => rfl
  | append_singleton es ev ih =>
      have hseen : seen (es ++ [ev]) = seen es ++ seen [ev] := List.filterMap_append
      rw [hseen, Gateway.streams_append, ih]
      simp only [bytesRead_concat]
      -- what is neither an opening nor a chunk changes nothing
      have hquiet : Connections.opens ev = false → Connections.bytesRead [ev] = [] →
          (es ++ [ev]).countP Connections.opens = es.countP Connections.opens ∧
            ∀ c : Prop, ∀ [Decidable c], (if c then Connections.bytesRead [ev] else []) = [] :=
        fun hopens hbytes => ⟨by simp [hopens], fun c _ => by rw [hbytes, ite_self]⟩
      cases ev with
      | sent key m =>
          obtain ⟨hcount, hnone⟩ := hquiet rfl rfl
          simp only [hcount, hnone, List.append_nil]
          rfl
      | saw n =>
          cases n with
          | connected =>
              have hcount : (es ++ [Connections.Event.saw .connected]).countP Connections.opens =
                  es.countP Connections.opens + 1 := by simp [Connections.opens]
              have hnew : Connections.onConnection (es.countP Connections.opens + 1) es = [] :=
                session_eq_nil (Nat.lt_succ_self _)
              have hnone : Connections.bytesRead [.saw .connected] = [] := rfl
              simp only [hcount, hnone, ite_self, List.append_nil, List.range_succ, List.map_append,
                hnew]
              rfl
          | read bytes =>
              have hcount : (es ++ [Connections.Event.saw (.read bytes)]).countP
                  Connections.opens = es.countP Connections.opens := by simp [Connections.opens]
              have hread : Connections.bytesRead [.saw (.read bytes)] = bytes := by
                simp [Connections.bytesRead]
              have hpast : ∀ k ∈ List.range (es.countP Connections.opens),
                  (if es.countP Connections.opens = k then bytes else []) = [] := fun k hk =>
                if_neg (Nat.ne_of_gt (List.mem_range.mp hk))
              simp only [hcount, hread, if_true]
              refine Prod.ext (List.map_congr_left fun k hk => ?_) rfl
              rw [hpast k hk, List.append_nil]
          | _ =>
              obtain ⟨hcount, hnone⟩ := hquiet rfl rfl
              simp only [hcount, hnone, List.append_nil]
              rfl

theorem accepted_seen (e : Endian) (es : List Connections.Event) :
    Gateway.accepted e (seen es) = (List.range (es.countP Connections.opens + 1)).flatMap fun k =>
      Gateway.requestsOf e (Connections.bytesRead (Connections.onConnection k es)) := by
  rw [Gateway.accepted, streams_seen, List.range_succ, List.flatMap_append, List.flatMap_append,
    List.flatMap_map, List.flatMap_singleton, List.flatMap_singleton]

theorem handed_shows (p : ProcId) (tr : List Event) :
    (Connections.handed (tr.filterMap (shows p))).map Prod.fst = handed (sawBy p tr) := by
  rw [Connections.handed, handed, List.filterMap_filterMap, List.filterMap_filterMap,
    List.map_filterMap]
  refine List.filterMap_congr fun ev _ => ?_
  cases ev with
  | saw q n =>
      by_cases hq : q = p
      · cases n <;> simp [shows, Event.sawBy?, hq]
      · simp [shows, Event.sawBy?, hq]
  | posted q k m => by_cases hq : q = p <;> simp [shows, Event.sawBy?, hq]
  | _ => rfl

theorem acceptedBytes_prefix {es : List Connections.Event} (h : Connections.Untorn es) :
    Connections.acceptedBytes es <+: ((Connections.handed es).map Prod.fst).flatten := by
  obtain ⟨whole, last, hbytes, ⟨hall, rfl⟩ | ⟨frame, hall, hlast, -⟩⟩ := h
  · have hall' : Connections.acceptedBytes es = ((Connections.handed es).map Prod.fst).flatten := by
      rw [hbytes, hall, List.append_nil]
    exact hall' ▸ List.prefix_refl _
  · rw [hbytes, hall, List.flatten_concat]
    exact (List.prefix_append_right_inj _).mpr hlast

/-- The frames of a session that breaks off are untorn up to the last one. -/
theorem sending_of_isPrefix {cur cur' : List Connections.Event} {t t₀ : TcpServer}
    (h : Connections.Sending cur' t) (hpre : cur <+: cur') (ht : t₀.hasClient = false) :
    Connections.Sending cur t₀ := by
  have hhanded : Connections.handed cur <+: Connections.handed cur' := hpre.filterMap _
  have hwhole : ∀ whole, Connections.handed cur <+: List.map Connections.wholeCall whole →
      Connections.Sending cur t₀ := fun whole hle => by
    obtain ⟨whole', -, hall⟩ := List.prefix_map_iff.mp hle
    exact ⟨whole', .inl hall⟩
  obtain ⟨whole, hall | ⟨frame, call, hall, hlt, -⟩⟩ := h
  · exact hwhole whole (hall ▸ hhanded)
  · rw [hall] at hhanded
    rcases List.prefix_concat_iff.mp hhanded with hsame | hle
    · exact ⟨whole, .inr ⟨frame, call, hsame, hlt, fun hc => by rw [ht] at hc; cases hc⟩⟩
    · exact hwhole whole hle

theorem untorn_gateway (h : Run (mortal e cap) ok (State.init table) tr s) (k : ℕ) :
    Connections.Untorn (Connections.onConnection k (tr.filterMap (shows .gateway))) :=
  Run.sessions_crashing (gateway_run h) (fun cur w => Connections.Sending cur w.tcp)
    Connections.Untorn (fun _ _ h => h.untorn) (.start rfl _)
    (fun _ _ _ _ _ h hs => h.gateway_step hs)
    (fun _ _ _ h hpre => sending_of_isPrefix h hpre rfl) k

theorem untorn_termd (slot : Slot) (h : Run (mortal e cap) ok (State.init table) tr s) (k : ℕ) :
    Connections.Untorn (Connections.onConnection k (tr.filterMap (shows (.termd slot)))) :=
  Run.sessions_crashing (termd_run slot h) (fun cur t => Connections.Sending cur t.tcp)
    Connections.Untorn (fun _ _ h => h.untorn) (.start rfl _)
    (fun _ _ _ _ _ h hs => h.termd_step hs)
    (fun _ _ _ h hpre => sending_of_isPrefix h hpre rfl) k

end Fleetcore.System
