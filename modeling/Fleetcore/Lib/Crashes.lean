import Fleetcore.Lib.Histories

/-!
Crashes of the processes of a mailbox program.

A process may go down between two of its steps, or in the middle of one, when
it has done only the first things of a reaction. What it had still to send is
lost, the shared state stays as it has left it, and its queue stays or goes. It
may come up again: it then starts afresh, with what is on its queue.

A trace of such a run still makes a ledger (`crash_ledger`): a crash loses
messages, but it repeats none and changes no order. And what holds of the
history of a process, and survives an unfinished reaction and a fresh start,
holds of its history over all its lives (`History.over_lives`).
-/

namespace Mailbox

open StateMachine

variable {P K M L G I O : Type*}

/-- Of a reaction only the first `n` things are done. -/
def Reaction.cut (n : ℕ) (r : Reaction K M L G O) : Reaction K M L G O :=
  { r with obs := r.obs.take n, sends := r.sends.take (n - r.obs.length) }

def Program.cut (g : Program P K M L G I O) (n : ℕ) : Program P K M L G I O where
  key := g.key
  start p i sh := (g.start p i sh).map (Reaction.cut n)
  recv p i loc sh m := (g.recv p i loc sh m).map (Reaction.cut n)
  idle p i loc sh := (g.idle p i loc sh).map (Reaction.cut n)

inductive Turn (P I G : Type*) where
  | step (a : Action P I)
  /-- A process goes down between two of its steps, and its queue may go with it. -/
  | down (p : P) (removed : Bool)
  /-- A process goes down in the middle of a step, `n` things into it. -/
  | torn (a : Action P I) (n : ℕ) (left : G)

def Turn.proc : Turn P I G → P
  | .step a => a.proc
  | .down p _ => p
  | .torn a _ _ => a.proc

variable [DecidableEq P] [DecidableEq K]

namespace State

variable (s : State P K M L G)

/-- A process goes down, and leaves the shared state as `left`. -/
def die (p : P) (left : G) : State P K M L G :=
  { s with proc := Function.update s.proc p none, shared := left }

def removeQueue (k : K) : State P K M L G :=
  { s with queue := Function.update s.queue k none }

omit [DecidableEq K] in
@[simp] theorem contents_die (p : P) (left : G) (k : K) :
    (s.die p left).contents k = s.contents k := rfl

omit [DecidableEq K] in
@[simp] theorem proc_die (p p' : P) (left : G) :
    (s.die p left).proc p' = if p' = p then none else s.proc p' := by
  simp [die, Function.update_apply]

omit [DecidableEq K] in
@[simp] theorem outbox_die (p p' : P) (left : G) :
    (s.die p left).outbox p' = if p' = p then [] else s.outbox p' := by
  unfold outbox
  rw [proc_die]
  by_cases h : p' = p <;> simp [h]

omit [DecidableEq P] in
@[simp] theorem contents_removeQueue (k k' : K) :
    (s.removeQueue k).contents k' = if k' = k then [] else s.contents k' := by
  unfold contents removeQueue
  by_cases h : k' = k <;> simp [h]

omit [DecidableEq P] in
@[simp] theorem outbox_removeQueue (k : K) (p : P) :
    (s.removeQueue k).outbox p = s.outbox p := rfl

omit [DecidableEq P] in
@[simp] theorem proc_removeQueue (k : K) : (s.removeQueue k).proc = s.proc := rfl

end State

def Program.turn (g : Program P K M L G I O) (cap : Option ℕ) (s : State P K M L G) :
    Turn P I G → Option (State P K M L G × List (Event P K M O))
  | .step a => g.step cap s a
  | .down p removed =>
      match s.proc p with
      | none => none
      | some _ => some ((if removed then s.removeQueue (g.key p) else s).die p s.shared, [])
  | .torn a n left =>
      match (g.cut n).step cap s a with
      | none => none
      | some r => some (r.1.die a.proc left, r.2)

def Program.mortal (g : Program P K M L G I O) (cap : Option ℕ) :
    Machine (State P K M L G) (Turn P I G) (Event P K M O) := ⟨g.turn cap⟩

inductive Turned (g : Program P K M L G I O) (cap : Option ℕ) (s : State P K M L G) :
    Turn P I G → State P K M L G → List (Event P K M O) → Prop
  | step {a s' es} (hs : g.step cap s a = some (s', es)) : Turned g cap s (.step a) s' es
  | down {p removed q} (hp : s.proc p = some q) : Turned g cap s (.down p removed)
      ((if removed then s.removeQueue (g.key p) else s).die p s.shared) []
  | torn {a n left s' es} (hs : (g.cut n).step cap s a = some (s', es)) :
      Turned g cap s (.torn a n left) (s'.die a.proc left) es

theorem turn_cases {g : Program P K M L G I O} {cap : Option ℕ} {s s' : State P K M L G}
    {t : Turn P I G} {es : List (Event P K M O)} (h : g.turn cap s t = some (s', es)) :
    Turned g cap s t s' es := by
  cases t with
  | step a => exact .step h
  | down p removed =>
      simp only [Program.turn] at h
      split at h
      · cases h
      · next q hp =>
          obtain ⟨rfl, rfl⟩ := Prod.mk.inj (Option.some.inj h)
          exact .down hp
  | torn a n left =>
      simp only [Program.turn] at h
      split at h
      · cases h
      · next r hr =>
          obtain ⟨rfl, rfl⟩ := Prod.mk.inj (Option.some.inj h)
          exact .torn hr

theorem proc_of_turn {g : Program P K M L G I O} {cap : Option ℕ} {s s' : State P K M L G}
    {t : Turn P I G} {es : List (Event P K M O)} (hs : g.turn cap s t = some (s', es)) :
    ∀ ev ∈ es, ev.proc = t.proc := by
  cases turn_cases hs with
  | step hs => exact proc_of_step hs
  | down hp => exact fun _ hmem => by cases hmem
  | torn hs => exact proc_of_step hs

/-! ### What a crash leaves of the laws of the queues -/

section Ledgers

variable {g : Program P K M L G I O} {cap : Option ℕ} {shared : G}
  {ok : State P K M L G → Turn P I G → Prop} {s : State P K M L G} {tr : List (Event P K M O)}

theorem takenFrom_append_contents (h : Run (g.mortal cap) ok (State.init shared) tr s) (k : K) :
    (takenFrom g.key k tr ++ s.contents k).Sublist (sentTo k tr) := by
  induction h with
  | start => exact List.Sublist.refl _
  | @snoc tr s s' t es hrun hok hs ih =>
      have hstep : ∀ s' : State P K M L G,
          s.contents k ++ sentTo k es = takenFrom g.key k es ++ s'.contents k →
          (takenFrom g.key k (tr ++ es) ++ s'.contents k).Sublist (sentTo k (tr ++ es)) := by
        intro s' heq
        simp only [List.filterMap_append, List.append_assoc]
        rw [← heq, ← List.append_assoc]
        exact ih.append (List.Sublist.refl _)
      cases turn_cases hs with
      | step hs => exact hstep _ (contents_step hs k)
      | @down p removed q hp =>
          rw [List.append_nil]
          refine List.Sublist.trans (List.Sublist.append (List.Sublist.refl _) ?_) ih
          cases removed with
          | false => exact List.Sublist.refl _
          | true =>
              by_cases hk : k = g.key p
              · simp [hk]
              · simp [hk]
      | torn hs => exact hstep _ (contents_step hs k)

theorem disposedBy_append_outbox (h : Run (g.mortal cap) ok (State.init shared) tr s) (p : P) :
    (disposedBy p tr ++ s.outbox p).Sublist (postedBy p tr) := by
  induction h with
  | start => exact List.Sublist.refl _
  | @snoc tr s s' t es hrun hok hs ih =>
      have hstep : ∀ s' : State P K M L G,
          s.outbox p ++ postedBy p es = disposedBy p es ++ s'.outbox p →
          (disposedBy p (tr ++ es) ++ s'.outbox p).Sublist (postedBy p (tr ++ es)) := by
        intro s' heq
        simp only [List.filterMap_append, List.append_assoc]
        rw [← heq, ← List.append_assoc]
        exact ih.append (List.Sublist.refl _)
      -- a process that goes down has nothing to send any more
      have hdie : ∀ (s' : State P K M L G) p' left,
          ((s'.die p' left).outbox p).Sublist (s'.outbox p) := by
        intro s' p' left
        rw [State.outbox_die]
        split
        · exact List.nil_sublist _
        · exact List.Sublist.refl _
      cases turn_cases hs with
      | step hs => exact hstep _ (outbox_step hs p)
      | @down p' removed q hp =>
          rw [List.append_nil]
          refine List.Sublist.trans (List.Sublist.append (List.Sublist.refl _) ?_) ih
          cases removed <;> exact hdie _ p' _
      | torn hs =>
          exact (List.Sublist.append (List.Sublist.refl _) (hdie _ _ _)).trans
            (hstep _ (outbox_step hs p))

theorem crash_ledger (hkey : Function.Injective g.key)
    (h : Run (g.mortal cap) ok (State.init shared) tr s) : Ledger g.key tr where
  sent := fun p => (sentBy_sublist_disposedBy p tr).trans
    ((List.sublist_append_left _ _).trans (disposedBy_append_outbox h p))
  taken := fun p => by
    rw [← takenFrom_key hkey]
    exact (List.sublist_append_left _ _).trans (takenFrom_append_contents h (g.key p))

end Ledgers

/-! ### Histories over several lives -/

/-- `R` relates the local state of `p` to its history over all its lives, and
`Q` is what a life leaves of it: also one that ends in the middle of a reaction. -/
structure Lasting (g : Program P K M L G I O) (p : P)
    (R : L → List M → List O → List (K × M) → Prop)
    (Q : List M → List O → List (K × M) → Prop) : Prop where
  nil : Q [] [] []
  start : ∀ i sh r ms os xs, g.start p i sh = some r → Q ms os xs →
    R r.loc ms (os ++ r.obs) (xs ++ r.sends)
  ended : ∀ loc ms os xs, R loc ms os xs → Q ms os xs
  cut : ∀ ms os xs ms' os' xs' o x, Q ms os xs → Q (ms ++ ms') (os ++ os') (xs ++ xs') →
    o <+: os' → x <+: xs' → x = [] ∨ o = os' → Q (ms ++ ms') (os ++ o) (xs ++ x)

omit [DecidableEq P] [DecidableEq K] in
theorem Lasting.of_sublist {g : Program P K M L G I O} {p : P}
    {R : L → List M → List O → List (K × M) → Prop}
    {Q : List M → List O → List (K × M) → Prop} (hnil : Q [] [] [])
    (hstart : ∀ i sh r ms os xs, g.start p i sh = some r → Q ms os xs →
      R r.loc ms (os ++ r.obs) (xs ++ r.sends))
    (hended : ∀ loc ms os xs, R loc ms os xs → Q ms os xs)
    (hless : ∀ ms os xs os' xs', Q ms os xs → os'.Sublist os → xs'.Sublist xs → Q ms os' xs') :
    Lasting g p R Q where
  nil := hnil
  start := hstart
  ended := hended
  cut _ _ _ _ _ _ _ _ _ h ho hx _ := hless _ _ _ _ _ h ((List.Sublist.refl _).append ho.sublist)
    ((List.Sublist.refl _).append hx.sublist)

section Lives

variable {g : Program P K M L G I O} {cap : Option ℕ} {s s' : State P K M L G} {a : Action P I}
  {es : List (Event P K M O)} {n : ℕ}

omit [DecidableEq P] [DecidableEq K] in
theorem Reaction.cut_parts (r : Reaction K M L G O) (n : ℕ) :
    (r.cut n).obs <+: r.obs ∧ (r.cut n).sends <+: r.sends ∧
      ((r.cut n).sends = [] ∨ (r.cut n).obs = r.obs) := by
  refine ⟨List.take_prefix _ _, List.take_prefix _ _, ?_⟩
  rcases Nat.le_total n r.obs.length with hle | hle
  · left
    simp [Reaction.cut, Nat.sub_eq_zero_of_le hle]
  · right
    simp [Reaction.cut, hle]

omit [DecidableEq P] [DecidableEq K] in
theorem Reaction.events_cut (r : Reaction K M L G O) (n : ℕ) (p : P) :
    (r.cut n).events p = (r.events p).take n := by
  simp [Reaction.events, Reaction.cut, List.take_append, List.map_take]

/-- A step that is not finished: the first of its events, after what is taken. -/
structure PartDone (es es' : List (Event P K M O)) : Prop where
  isPrefix : es <+: es'
  took : ∀ p, tookBy p es = tookBy p es'
  order : ∀ p, postedBy p es = [] ∨ sawBy p es = sawBy p es'

omit [DecidableEq K] in
theorem PartDone.refl (es : List (Event P K M O)) : PartDone es es :=
  ⟨List.prefix_rfl, fun _ => rfl, fun _ => .inr rfl⟩

omit [DecidableEq K] in
theorem partDone_of_cut (p : P) (r : Reaction K M L G O) (n : ℕ) :
    PartDone ((r.cut n).events p) (r.events p) where
  isPrefix := r.events_cut n p ▸ List.take_prefix _ _
  took q := by simp
  order q := by
    obtain ⟨-, -, horder⟩ := r.cut_parts n
    by_cases hp : p = q
    · simpa only [postedBy_events, sawBy_events, if_pos hp] using horder
    · left
      simp only [postedBy_events, if_neg hp]

omit [DecidableEq K] in
theorem PartDone.cons {es es' : List (Event P K M O)} (h : PartDone es es') (ev : Event P K M O)
    (hsaw : ∀ p, ev.sawBy? p = none) (hposted : ∀ p, ev.postedBy? p = none) :
    PartDone (ev :: es) (ev :: es') where
  isPrefix := (List.prefix_cons_inj ev).mpr h.isPrefix
  took p := by simp only [List.filterMap_cons, h.took]
  order p := by simpa only [List.filterMap_cons, hsaw, hposted] using h.order p

/-- A step that is not finished is part of one that could have been. -/
theorem step_of_cut (hs : (g.cut n).step cap s a = some (s', es)) :
    ∃ s'' es', g.step cap s a = some (s'', es') ∧ PartDone es es' := by
  cases step_cases hs with
  | @start p i r hp hr =>
      obtain ⟨r', hr', rfl⟩ := Option.map_eq_some_iff.mp hr
      exact ⟨_, _, (Step.start hp hr').step_eq,
        (partDone_of_cut p r' n).cons _ (fun _ => rfl) fun _ => rfl⟩
  | @recv p i loc m ms r hp hq hr =>
      obtain ⟨r', hr', rfl⟩ := Option.map_eq_some_iff.mp hr
      exact ⟨_, _, (Step.recv (g := g) hp hq hr').step_eq,
        (partDone_of_cut p r' n).cons _ (fun _ => rfl) fun _ => rfl⟩
  | @idle p i loc r hp hq hr =>
      obtain ⟨r', hr', rfl⟩ := Option.map_eq_some_iff.mp hr
      exact ⟨_, _, (Step.idle (g := g) hp hq hr').step_eq, partDone_of_cut p r' n⟩
  | lost hp hq => exact ⟨_, _, (Step.lost hp hq).step_eq, .refl _⟩
  | sent hp hq hroom => exact ⟨_, _, (Step.sent hp hq hroom).step_eq, .refl _⟩

omit [DecidableEq K] in
theorem history_of_others {p : P} (h : ∀ ev ∈ es, ev.proc ≠ p) :
    tookBy p es = [] ∧ sawBy p es = [] ∧ postedBy p es = [] := by
  refine ⟨?_, ?_, ?_⟩ <;>
    refine List.filterMap_eq_nil_iff.mpr fun ev hev => ?_ <;>
    have hproc := h ev hev <;>
    cases ev <;> simp_all [Event.proc, Event.tookBy?, Event.sawBy?, Event.postedBy?]

end Lives

section Runs

variable {g : Program P K M L G I O} {cap : Option ℕ} {shared : G}
  {ok : State P K M L G → Turn P I G → Prop} {s s' : State P K M L G}
  {tr es : List (Event P K M O)} {R : L → List M → List O → List (K × M) → Prop}
  {Q : List M → List O → List (K × M) → Prop} {p : P}

omit [DecidableEq P] [DecidableEq K] in
theorem Lasting.of_lived (hQ : Lasting g p R Q) {ms : List M} {os : List O} {xs : List (K × M)}
    {q : Option (Proc K M L)} (h : Lived R Q ms os xs q) : Q ms os xs := by
  cases q with
  | none => exact h
  | some q => exact hQ.ended _ _ _ _ h

theorem History.step_lasting (hR : History g Always p R) (hQ : Lasting g p R Q) {a : Action P I}
    (hs : g.step cap s a = some (s', es)) {ms : List M} {os : List O} {xs : List (K × M)}
    (h : Lived R Q ms os xs (s.proc p)) :
    Lived R Q (ms ++ tookBy p es) (os ++ sawBy p es) (xs ++ postedBy p es) (s'.proc p) :=
  hR.step (fun s i r ms os xs _ hr hlaw => hQ.start i s.shared r ms os xs hr hlaw) trivial hs h

theorem History.lived_lasting (hR : History g Always p R) (hQ : Lasting g p R Q)
    (h : Run (g.mortal cap) ok (State.init shared) tr s) :
    Lived R Q (tookBy p tr) (sawBy p tr) (postedBy p tr) (s.proc p) := by
  induction h with
  | start => exact hQ.nil
  | @snoc tr s s' t es hrun hok hs ih =>
      cases turn_cases hs with
      | step hs =>
          rw [tookBy_append, sawBy_append, postedBy_append]
          exact hR.step_lasting hQ hs ih
      | @down p' removed q hp =>
          rw [List.append_nil]
          have hproc : (if removed then s.removeQueue (g.key p') else s).proc = s.proc := by
            cases removed <;> rfl
          rw [State.proc_die, hproc]
          split
          · exact hQ.of_lived ih
          · exact ih
      | @torn a n left s'' es hs =>
          rw [tookBy_append, sawBy_append, postedBy_append, State.proc_die]
          split
          · next hp =>
              -- the whole step would have kept the law
              obtain ⟨s₁, es₁, hs₁, hpart⟩ := step_of_cut hs
              rw [hpart.took]
              exact hQ.cut _ _ _ _ _ _ _ _ (hQ.of_lived ih)
                (hQ.of_lived (hR.step_lasting hQ hs₁ ih)) (hpart.isPrefix.filterMap _)
                (hpart.isPrefix.filterMap _) (hpart.order p)
          · next hp =>
              obtain ⟨htook, hsaw, hposted⟩ := history_of_others (p := p) fun ev hev =>
                (proc_of_step hs ev hev).trans_ne (Ne.symm hp)
              rw [proc_of_ne hs hp]
              exact ih.append_nil htook hsaw hposted

/-- A lasting law holds of the history over all lives. -/
theorem History.over_lives (hR : History g Always p R) (hQ : Lasting g p R Q)
    (h : Run (g.mortal cap) ok (State.init shared) tr s) :
    Q (tookBy p tr) (sawBy p tr) (postedBy p tr) :=
  hQ.of_lived (hR.lived_lasting hQ h)

/-- A process on its own: what it shows of itself is a run of a machine that
crashes when it does. -/
theorem part_run {S A F : Type*} {m : Machine S A F} {s₀ : S} (part : State P K M L G → S)
    (view : Event P K M O → Option F)
    (hsame : ∀ s s', s'.proc p = s.proc p → part s' = part s)
    (hdown : ∀ s, s.proc p = none → part s = s₀) (hview : ∀ ev, ev.proc ≠ p → view ev = none)
    (hstep : ∀ s a s' es, g.step cap s a = some (s', es) →
      (∃ a', m.step (part s) a' = some (part s', es.filterMap view)) ∨
        part s' = part s ∧ es.filterMap view = [])
    (h : Run (g.mortal cap) ok (State.init shared) tr s) :
    Run (m.crashing s₀) Always s₀ (tr.filterMap view) (part s) := by
  have hinit : part (State.init shared) = s₀ := hdown _ rfl
  rw [← hinit]
  refine h.project part view fun s t s' es _ hs => ?_
  rw [hinit]
  cases turn_cases hs with
  | step hs =>
      rcases hstep _ _ _ _ hs with ⟨a', ha'⟩ | hquiet
      · exact .inl ⟨.act a', trivial, ha'⟩
      · exact .inr hquiet
  | @down p' removed q hp =>
      have hproc : (if removed then s.removeQueue (g.key p') else s).proc = s.proc := by
        cases removed <;> rfl
      by_cases hpp : p = p'
      · refine .inl ⟨.reset, trivial, ?_⟩
        rw [hdown ((if removed then s.removeQueue (g.key p') else s).die p' s.shared)
          (by rw [State.proc_die, if_pos hpp])]
        rfl
      · refine .inr ⟨hsame _ _ ?_, rfl⟩
        rw [State.proc_die, if_neg hpp, hproc]
  | @torn a n left s'' es hs =>
      by_cases hpp : p = a.proc
      · have hend : part (s''.die a.proc left) = s₀ :=
          hdown _ (by rw [State.proc_die, if_pos hpp])
        obtain ⟨s₁, es₁, hs₁, hpart⟩ := step_of_cut hs
        have hpre := hpart.isPrefix.filterMap view
        left
        rcases hstep _ _ _ _ hs₁ with ⟨a', ha'⟩ | ⟨-, hnone⟩
        · refine ⟨.fail a' (es.filterMap view).length, trivial, ?_⟩
          rw [hend, List.prefix_iff_eq_take.mp hpre]
          simp [Machine.crashing, ha']
        · rw [hnone] at hpre
          rw [hend, List.prefix_nil.mp hpre]
          exact ⟨.reset, trivial, rfl⟩
      · refine .inr ⟨hsame _ _ ?_, List.filterMap_eq_nil_iff.mpr fun ev hev => hview ev ?_⟩
        · rw [State.proc_die, if_neg hpp, proc_of_ne hs hpp]
        · exact (proc_of_step hs ev hev).trans_ne (Ne.symm hpp)

end Runs

end Mailbox
