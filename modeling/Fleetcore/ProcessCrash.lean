import Fleetcore.Acknowledgement
import Fleetcore.Lib.Crashes

/-!
The system when its processes crash.

gateway, locator and the termds have no orderly end: they are killed, or leave
`main` when a receive fails, and are brought up again by whoever supervises
them. Between two steps or in the middle of a handler, a process goes down with
its sockets and its buffers, and what it has not sent yet is lost. Its queue
stays in the kernel with what is on it, unless it is the process itself that
removes it on the way out. The table stays, in whatever state it is left.

What can be relied on is the same as without crashes. A command may get lost,
but no terminal is handed a command that gateway has not received for it, or a
second time, or out of order; and no acknowledgement reaches the maintenance
terminal but that of a request, one for each.
-/

namespace Fleetcore.System

open ByteOrder StateMachine Mailbox Matching

abbrev Turn := Mailbox.Turn ProcId Env Segment

def mortal (e : Endian) (cap : Option ℕ) : Machine State Turn Event := (program e).mortal cap

/-! ### What gateway receives in several lives -/

section Receiving

variable (e : Endian)

theorem requestsOf_append_isPrefix (d more : List UInt8) :
    Gateway.requestsOf e d <+: Gateway.requestsOf e (d ++ more) := by
  simp only [Gateway.requestsOf, cutStream_eq_parse, Framing.Framer.parse_append d more]
  cases (headerFramer.parse d).2 with
  | dead err => exact List.prefix_rfl
  | pending r =>
      rw [List.filter_append]
      exact List.prefix_append _ _

theorem accepted_sublist_append (notes more : List Note) :
    (Gateway.accepted e notes).Sublist (Gateway.accepted e (notes ++ more)) := by
  induction more using List.reverseRecOn with
  | nil => rw [List.append_nil]
  | append_singleton more n ih =>
      refine ih.trans ?_
      rw [← List.append_assoc, Gateway.accepted, Gateway.accepted,
        Gateway.streams_append (notes ++ more)]
      cases n with
      | read bytes =>
          simp only [List.foldl_cons, List.foldl_nil, Gateway.hear, List.flatMap_append,
            List.flatMap_singleton]
          exact (List.Sublist.refl _).append (requestsOf_append_isPrefix e _ _).sublist
      | connected => simp [Gateway.hear]
      | _ => exact List.Sublist.refl _

theorem foldl_hear_cut (frames : List (List UInt8)) (heard : List (List UInt8) × List UInt8) :
    (frames.map Note.cut).foldl Gateway.hear heard = heard := by
  induction frames with
  | nil => rfl
  | cons f frames ih => exact ih

theorem foldl_hear_uncut (notes : List Note) (heard : List (List UInt8) × List UInt8) :
    (notes.filter fun n => (Gateway.cuts [n]).isEmpty).foldl Gateway.hear heard =
      notes.foldl Gateway.hear heard := by
  induction notes generalizing heard with
  | nil => rfl
  | cons n notes ih => cases n <;> exact ih _

/-- Whatever has been received: a gateway that comes up is abreast of it, up to
what was cut. -/
theorem exists_abreast_init (notes : List Note) :
    ∃ notes', Gateway.streams notes' = Gateway.streams notes ∧ Gateway.Abreast e .init notes' := by
  refine ⟨(notes.filter fun n => (Gateway.cuts [n]).isEmpty) ++
    (Gateway.accepted e notes).map .cut, ?_, ⟨?_, fun h => by cases h⟩⟩
  · rw [Gateway.streams_append, foldl_hear_cut, Gateway.streams, foldl_hear_uncut]
    rfl
  · have huncut : Gateway.cuts (notes.filter fun n => (Gateway.cuts [n]).isEmpty) = [] := by
      refine List.filterMap_eq_nil_iff.mpr fun n hn => ?_
      have hempty := (List.mem_filter.mp hn).2
      cases n with
      | cut frame => exact absurd hempty Bool.false_ne_true
      | _ => rfl
    rw [Gateway.cuts_append, huncut, Gateway.cuts_map_cut, List.nil_append, Gateway.accepted,
      Gateway.accepted, Gateway.streams_append, foldl_hear_cut, Gateway.streams, Gateway.streams,
      foldl_hear_uncut]

end Receiving

/-! ### The laws of the processes, over all their lives -/

section Lives

variable {e : Endian}

theorem start_silent {p : ProcId} {env : Env} {table : Segment}
    {r : Mailbox.Reaction ℤ (List UInt8) Loc Segment Note}
    (hr : (program e).start p env table = some r) : r.obs = [] ∧ r.sends = [] := by
  refine ⟨?_, sends_start hr⟩
  cases p with
  | gateway => obtain rfl := Option.some.inj hr; rfl
  | locator => obtain rfl := Option.some.inj hr; rfl
  | termd slot =>
      simp only [program, start, Option.map_eq_some_iff, Termd.onInit,
        Option.ite_none_right_eq_some] at hr
      obtain ⟨_, ⟨-, hr⟩, rfl⟩ := hr
      obtain rfl := Option.some.inj hr
      rfl

/-- Gateway posts requests it has received, each once and to locator. -/
def Forwarding (e : Endian) (notes : List Note) (posted : List (ℤ × List UInt8)) : Prop :=
  posted.Sublist ((Gateway.accepted e notes).map fun f => (key .locator, command e f))

/-- In its present life it has cut what it has received, whatever it had
received before. -/
def Receiving (e : Endian) (loc : Loc) (notes : List Note) : Prop :=
  ∃ w notes', loc = .gateway w ∧ Gateway.streams notes' = Gateway.streams notes ∧
    Gateway.Abreast e w notes'

theorem Receiving.append {w w' : Gateway} {notes notes' obs : List Note}
    (hsame : Gateway.streams notes' = Gateway.streams notes) (hw : Gateway.Abreast e w notes')
    (hw' : Gateway.Abreast e w' (notes' ++ obs)) :
    Receiving e (.gateway w') (notes ++ obs) ∧
      Gateway.accepted e (notes ++ obs) = Gateway.accepted e notes ++ Gateway.cuts obs := by
  have hstreams : Gateway.streams (notes' ++ obs) = Gateway.streams (notes ++ obs) := by
    rw [Gateway.streams_append, Gateway.streams_append, hsame]
  refine ⟨⟨w', _, rfl, hstreams, hw'⟩, ?_⟩
  calc Gateway.accepted e (notes ++ obs)
      = Gateway.accepted e (notes' ++ obs) := by
        rw [Gateway.accepted, Gateway.accepted, hstreams]
    _ = Gateway.cuts notes' ++ Gateway.cuts obs := by rw [← hw'.cuts, Gateway.cuts_append]
    _ = Gateway.accepted e notes ++ Gateway.cuts obs := by
        rw [hw.cuts, Gateway.accepted, Gateway.accepted, hsame]

theorem gateway_forwards : History (program e) Always .gateway fun loc _ notes posted =>
    Receiving e loc notes ∧ Forwarding e notes posted where
  start := by
    intro s env r _ hr
    obtain rfl := Option.some.inj hr
    exact ⟨⟨.init, [], rfl, rfl, .init⟩, List.nil_sublist _⟩
  recv := by
    rintro s env loc m rest r ms os xs _ _ ⟨⟨w, notes', rfl, hsame, hw⟩, hposted⟩ hr
    rw [sends_recv_gateway hr, List.append_nil]
    simp only [program, recv_gateway, Option.ite_none_left_eq_some, Option.some.injEq] at hr
    obtain ⟨-, rfl⟩ := hr
    split
    · have hnext := Receiving.append hsame hw (hw.onLockResponse env s.shared m)
      refine ⟨hnext.1, ?_⟩
      rw [Forwarding, lift, hnext.2, (Gateway.onLockResponse_silent e env w s.shared m).2,
        List.append_nil]
      exact hposted
    · rw [lift, List.append_nil]
      exact ⟨⟨w, notes', rfl, hsame, hw⟩, hposted⟩
  idle := by
    rintro s env loc r ms os xs _ ⟨⟨w, notes', rfl, hsame, hw⟩, hposted⟩ hr
    simp only [program, idle, Option.ite_none_left_eq_some, Option.some.injEq] at hr
    obtain ⟨-, rfl⟩ := hr
    have hnext := Receiving.append hsame hw (hw.onIdle env s.shared)
    refine ⟨hnext.1, ?_⟩
    rw [Forwarding, lift, hnext.2, List.map_append]
    exact hposted.append (Gateway.onIdle_sends e env w s.shared ▸ List.Sublist.refl _)

/-- Of a batch that is not finished, as many requests get out as there is time for. -/
theorem gateway_lasting : Lasting (program e) .gateway
    (fun loc _ notes posted => Receiving e loc notes ∧ Forwarding e notes posted)
    fun _ notes posted => Forwarding e notes posted where
  nil := List.nil_sublist _
  start := by
    intro env table r ms os xs hr hlaw
    obtain ⟨hobs, hsends⟩ := start_silent hr
    obtain rfl := Option.some.inj hr
    rw [hobs, hsends, List.append_nil, List.append_nil]
    obtain ⟨notes', hsame, hinit⟩ := exists_abreast_init e os
    exact ⟨⟨_, notes', rfl, hsame, hinit⟩, hlaw⟩
  ended _ _ _ _ h := h.2
  cut := by
    intro ms os xs ms' os' xs' o x hbefore hwhole ho hx horder
    rcases horder with rfl | rfl
    · rw [List.append_nil]
      exact hbefore.trans ((accepted_sublist_append e os o).map _)
    · exact ((List.Sublist.refl _).append hx.sublist).trans hwhole

theorem lasting_of_sends {p : ProcId} {Q : List (List UInt8) → List (ℤ × List UInt8) → Prop}
    (hnil : Q [] []) (hless : ∀ ms xs xs', Q ms xs → xs'.Sublist xs → Q ms xs') :
    Lasting (program e) p (fun _ ms _ xs => Q ms xs) fun ms _ xs => Q ms xs :=
  .of_sublist hnil (fun _ _ _ _ _ _ hr h => by rwa [sends_start hr, List.append_nil])
    (fun _ _ _ _ h => h) fun ms _ xs _ xs' h _ hx => hless ms xs xs' h hx

/-- A process hands on at most what it takes, and no more by being killed. -/
theorem lasting_of_handed {p : ProcId} {f : List UInt8 → List UInt8} {I : Loc → Prop}
    (hI : ∀ env table r, (program e).start p env table = some r → I r.loc) :
    Lasting (program e) p
      (fun loc taken notes _ => I loc ∧ (handed notes).Sublist (taken.map f))
      fun taken notes _ => (handed notes).Sublist (taken.map f) :=
  .of_sublist (List.Sublist.refl _)
    (fun env table r _ _ _ hr h => by
      rw [(start_silent hr).1, List.append_nil]
      exact ⟨hI env table r hr, h⟩)
    (fun _ _ _ _ h => h.2) fun _ _ _ _ _ h ho _ => (ho.filterMap _).trans h

end Lives

/-! ### Over any run with crashes -/

section Runs

variable {e : Endian} {cap : Option ℕ} {ok : State → Turn → Prop} {table : Segment} {s : State}
  {tr : List Event} (h : Run (mortal e cap) ok (State.init table) tr s)

include h

theorem termd_acks_always (slot : Slot) :
    ((postedBy (.termd slot) tr).map fun x => ticketOf (ackIn e x.2)).Sublist
        ((tookBy (.termd slot) tr).map (ticketIn e)) ∧
      ∀ x ∈ postedBy (.termd slot) tr, ∃ m now, x.2 = (Termd.ackOf m now).image e :=
  (termd_acks slot).over_lives
    (lasting_of_sends (Q := fun taken posted =>
        (posted.map fun x => ticketOf (ackIn e x.2)).Sublist (taken.map (ticketIn e)) ∧
          ∀ x ∈ posted, ∃ m now, x.2 = (Termd.ackOf m now).image e)
      ⟨List.Sublist.refl _, by simp⟩ fun _ _ _ h hx =>
        ⟨(hx.map fun x => ticketOf (ackIn e x.2)).trans h.1,
          fun x hmem => h.2 x (hx.subset hmem)⟩) h

theorem mortal_books : AckBooks e tr where
  toLedger := crash_ledger key_injective h
  posted := gateway_forwards.over_lives gateway_lasting h
  routed := locator_history.over_lives
    (lasting_of_sends (Q := fun taken posted => posted.Sublist (taken.flatMap (route e)))
      (List.Sublist.refl _) fun _ _ _ h hx => hx.trans h) h
  delivered slot := (termd_history slot).over_lives
    (lasting_of_handed (I := fun loc => ∃ t, loc = .termd t) fun _ _ _ hr => by
      simp only [program, start, Option.map_eq_some_iff] at hr
      obtain ⟨t, -, rfl⟩ := hr
      exact ⟨_, rfl⟩) h
  uplink slot := (termd_posts slot).over_lives
    (lasting_of_sends (Q := fun _ posted => ∀ x ∈ posted, x.1 = key .gateway)
      (by simp) fun _ _ _ h hx x hmem => h x (hx.subset hmem)) h
  acked slot := (termd_acks_always h slot).1
  built slot := (termd_acks_always h slot).2
  answered := gateway_hands.over_lives
    (lasting_of_handed (I := fun loc => ∃ w, loc = .gateway w) fun _ _ _ hr =>
      ⟨.init, congrArg (·.loc) (Option.some.inj hr).symm⟩) h

theorem mortal_throughout : Throughout answer? (request? e) tr := by
  refine Run.throughout h (fun _ _ hrun => (mortal_books hrun).covered) fun s t s' es hs => ?_
  cases turn_cases hs with
  | step hs => exact answer_or_request hs
  | down hp => exact .inl rfl
  | torn hs => exact answer_or_request hs

end Runs

/-- In every run, whichever processes crash and come up again and whenever: the
frames a termd hands to `TcpServer::send` are, in order and each used at most
once, among the requests for its own terminal in the bytes that gateway has
received on its connections, and `unpack_lock_request` accepts them. -/
theorem downlink_survives_crashes {e : Endian} {cap : Option ℕ} {table : Segment} {s : State}
    {tr : List Event} (h : Run (mortal e cap) Always (State.init table) tr s) (slot : Slot) :
    (handed (sawBy (.termd slot) tr)).Sublist
        ((Gateway.accepted e (sawBy .gateway tr)).filter fun f =>
          decide ((LockRequest.ofWire f).termNo =
            Locator.digits (1000 + slot.val.toInt).toNat)) ∧
      ∀ frame ∈ handed (sawBy (.termd slot) tr), Gateway.Accepts e frame := by
  have hsub := (mortal_books h).handed_sublist_accepted slot
  exact ⟨hsub, fun frame hframe => Gateway.accepts_of_mem_accepted e
    (List.mem_of_mem_filter (hsub.subset hframe))⟩

/-- Of two requests the first is lost: locator is killed when it has taken it off
its queue. The second one comes with gateway's next life. -/
theorem downlink_survives_crashes_lost : ∃ tr s,
    Run (mortal .little none) Always init tr s ∧
      handed (sawBy (.termd slot1) tr) = [requestFrame 1001] ∧
      (Gateway.accepted .little (sawBy .gateway tr)).length = 2 ∧
      ∀ frame ∈ handed (sawBy (.termd slot1) tr), Gateway.Accepts .little frame := by
  obtain ⟨tr, s, hrun, htrace⟩ := (mortal .little none).exists_run_of_exec Always init
    [.step (.start .gateway .quiet), .step (.start .locator .quiet),
      .step (.start (.termd slot1) .quiet),
      .step (.idle (.termd slot1) { Env.quiet with accepted := some 6 }),
      .step (.idle .gateway { Env.quiet with
        accepted := some 5, received := .data (requestFrame 1001) }),
      .step (.flush .gateway), .torn (.recv .locator .quiet) 0 .zero, .down .gateway false,
      .step (.start .gateway .quiet), .step (.start .locator .quiet), .down (.termd slot1) true,
      .step (.start (.termd slot1) .quiet),
      .step (.idle (.termd slot1) { Env.quiet with accepted := some 6 }),
      .step (.idle .gateway { Env.quiet with
        accepted := some 5, received := .data (requestFrame 1001) }),
      .step (.flush .gateway), .step (.recv .locator .quiet), .step (.flush .locator),
      .step (.recv (.termd slot1) { Env.quiet with sends := [.ret 24] })]
    (fun r => decide (handed (sawBy (.termd slot1) r.2) = [requestFrame 1001] ∧
      (Gateway.accepted .little (sawBy .gateway r.2)).length = 2))
    (by decide +kernel) (by decide +kernel)
  obtain ⟨hhanded, hreceived⟩ := of_decide_eq_true htrace
  exact ⟨tr, s, hrun, hhanded, hreceived, (downlink_survives_crashes hrun slot1).2⟩

theorem mem_handed {p : ProcId} {frame : List UInt8} {call : SendCall} {tr : List Event}
    (h : Event.saw p (.handed frame call) ∈ tr) : frame ∈ handed (sawBy p tr) :=
  List.mem_filterMap.mpr ⟨.handed frame call,
    List.mem_filterMap.mpr ⟨_, h, by simp [Event.sawBy?]⟩, rfl⟩

/-- In every run with crashes each frame that gateway hands to `TcpServer::send`
acknowledges a request of its own: one that gateway, in this life or an earlier
one, forwarded before, with the same sequence number and terminal number, and
that no other frame acknowledges. -/
theorem acks_survive_crashes {e : Endian} {cap : Option ℕ} {table : Segment} {s : State}
    {tr : List Event} (h : Run (mortal e cap) Always (State.init table) tr s) :
    ∃ f : ℕ → ℕ,
      (∀ i frame call, tr[i]? = some (.saw .gateway (.handed frame call)) → f i < i ∧
        ∃ data, tr[f i]? = some (.sent .gateway (key .locator) data) ∧
          Acknowledges e frame data) ∧
      ∀ i frame call i' frame' call', tr[i]? = some (.saw .gateway (.handed frame call)) →
        tr[i']? = some (.saw .gateway (.handed frame' call')) → f i = f i' → i = i' := by
  have hone : ∀ ev, answer? ev = none ∨ request? e ev = none := fun ev => by
    cases ev with
    | saw p o => exact .inr rfl
    | _ => exact .inl rfl
  obtain ⟨f, hf⟩ := exists_matching hone (mortal_throughout h)
  have hanswer : ∀ i frame call, tr[i]? = some (.saw .gateway (.handed frame call)) →
      keyAt answer? tr i = some (ticketOf (LockResponse.ofWire frame)) := fun i frame call hi => by
    rw [keyAt, hi]
    rfl
  refine ⟨f, fun i frame call hi => ?_, fun i frame call i' frame' call' hi hi' heq => ?_⟩
  · obtain ⟨hlt, hreq⟩ := hf.earlier i _ (hanswer i frame call hi)
    obtain ⟨ev, hev, hkey⟩ := Option.bind_eq_some_iff.mp hreq
    obtain ⟨data, rfl, hticket⟩ := request?_eq_some hkey
    obtain ⟨termNo, seq, now, rfl⟩ :=
      (mortal_books h).made_of_handed (mem_handed (List.mem_of_getElem? hi))
    exact ⟨hlt, data, hev, acknowledges_made hticket⟩
  · apply hf.own i i'
    · simp [hanswer i frame call hi]
    · simp [hanswer i' frame' call' hi']
    · exact heq

/-- An acknowledgement outlives the gateway that forwarded its request, and is
handed over by the next one; a second one is lost with its termd. -/
theorem acks_survive_crashes_outlived : ∃ tr s,
    Run (mortal .little none) Always init tr s ∧
      (handed (sawBy .gateway tr)).length = 1 ∧
      ∃ f : ℕ → ℕ,
        (∀ i frame call, tr[i]? = some (.saw .gateway (.handed frame call)) → f i < i ∧
          ∃ data, tr[f i]? = some (.sent .gateway (key .locator) data) ∧
            Acknowledges .little frame data) ∧
        ∀ i frame call i' frame' call', tr[i]? = some (.saw .gateway (.handed frame call)) →
          tr[i']? = some (.saw .gateway (.handed frame' call')) → f i = f i' → i = i' := by
  obtain ⟨tr, s, hrun, hcount⟩ := (mortal .little none).exists_run_of_exec Always init
    [.step (.start .gateway .quiet), .step (.start .locator .quiet),
      .step (.start (.termd slot1) .quiet),
      .step (.idle .gateway { Env.quiet with
        accepted := some 5, received := .data (requestFrame 1001 ++ requestFrame 1001) }),
      .step (.flush .gateway), .step (.flush .gateway), .down .gateway false,
      .step (.recv .locator .quiet), .step (.flush .locator), .step (.recv .locator .quiet),
      .step (.flush .locator), .step (.recv (.termd slot1) .quiet),
      .step (.start .gateway .quiet), .step (.idle .gateway { Env.quiet with accepted := some 5 }),
      .step (.flush (.termd slot1)), .step (.recv (.termd slot1) .quiet),
      .down (.termd slot1) true, .step (.recv .gateway { Env.quiet with sends := [.ret 28] })]
    (fun r => decide ((handed (sawBy .gateway r.2)).length = 1))
    (by decide +kernel) (by decide +kernel)
  exact ⟨tr, s, hrun, of_decide_eq_true hcount, acks_survive_crashes hrun⟩

end Fleetcore.System
