import Fleetcore.Lib.Mailbox

/-!
What the processes of a mailbox program have done over a run.

The history of one process is what it has taken, observed and posted. A fact
about histories is proved on the reactions of that process alone
(`History.of_run`). The laws of this module then carry it from one process to
the next: what a process takes is, in order, what was put on its queue
(`tookBy_prefix_sentTo`), and what was put on a queue comes from those who post
to it (`Ledger.filterMap_sentTo`).
-/

namespace Mailbox

open StateMachine

variable {P K M L G I O β : Type*} [DecidableEq P] [DecidableEq K]

/-! ### One process -/

/-- `R` relates the local state of `p` to what `p` has taken, observed and
posted, and every reaction in an admitted step keeps it. -/
structure History (g : Program P K M L G I O) (ok : State P K M L G → Action P I → Prop) (p : P)
    (R : L → List M → List O → List (K × M) → Prop) : Prop where
  start : ∀ s i r, ok s (.start p i) → g.start p i s.shared = some r → R r.loc [] r.obs r.sends
  recv : ∀ s i loc m rest r ms os xs, ok s (.recv p i) → s.queue (g.key p) = some (m :: rest) →
    R loc ms os xs → g.recv p i loc s.shared m = some r →
    R r.loc (ms ++ [m]) (os ++ r.obs) (xs ++ r.sends)
  idle : ∀ s i loc r ms os xs, ok s (.idle p i) → R loc ms os xs →
    g.idle p i loc s.shared = some r → R r.loc ms (os ++ r.obs) (xs ++ r.sends)

section Runs

variable {g : Program P K M L G I O} {cap : Option ℕ} {shared : G}
  {ok : State P K M L G → Action P I → Prop} {s : State P K M L G} {tr : List (Event P K M O)}

/-- What a process has taken, observed and posted: `R` relates it to its local
state, `Q` is left of it while the process is down. -/
def Lived (R : L → List M → List O → List (K × M) → Prop)
    (Q : List M → List O → List (K × M) → Prop) (ms : List M) (os : List O)
    (xs : List (K × M)) : Option (Proc K M L) → Prop
  | none => Q ms os xs
  | some q => R q.loc ms os xs

section Steps

variable {p : P} {R : L → List M → List O → List (K × M) → Prop}
  {Q : List M → List O → List (K × M) → Prop} {ms : List M} {os : List O} {xs : List (K × M)}

omit [DecidableEq P] [DecidableEq K] in
theorem Lived.append_nil {ms' : List M} {os' : List O} {xs' : List (K × M)}
    {q : Option (Proc K M L)} (h : Lived R Q ms os xs q) (htook : ms' = []) (hsaw : os' = [])
    (hposted : xs' = []) : Lived R Q (ms ++ ms') (os ++ os') (xs ++ xs') q := by
  rw [htook, hsaw, hposted]
  simpa only [List.append_nil] using h

theorem History.step (hR : History g ok p R)
    (hstart : ∀ s i r ms os xs, ok s (.start p i) → g.start p i s.shared = some r → Q ms os xs →
      R r.loc ms (os ++ r.obs) (xs ++ r.sends))
    {s' : State P K M L G} {a : Action P I} {es : List (Event P K M O)} (hok : ok s a)
    (hs : g.step cap s a = some (s', es)) (h : Lived R Q ms os xs (s.proc p)) :
    Lived R Q (ms ++ tookBy p es) (os ++ sawBy p es) (xs ++ postedBy p es) (s'.proc p) := by
  cases step_cases hs with
  | @start p' i r hp hr =>
      by_cases hpp : p' = p
      · subst hpp
        rw [hp] at h
        simpa [Lived, List.filterMap_cons, Event.tookBy?, Event.sawBy?, Event.postedBy?] using
          hstart s i r _ _ _ hok hr h
      · rw [State.proc_launch, if_neg (Ne.symm hpp)]
        exact h.append_nil (by simp [List.filterMap_cons, Event.tookBy?])
          (by simp [List.filterMap_cons, Event.sawBy?, hpp])
          (by simp [List.filterMap_cons, Event.postedBy?, hpp])
  | @recv p' i loc m rest r hp hq hr =>
      by_cases hpp : p' = p
      · subst hpp
        rw [hp] at h
        simpa [Lived, List.filterMap_cons, Event.tookBy?, Event.sawBy?, Event.postedBy?] using
          hR.recv s i loc m rest r _ _ _ hok hq h hr
      · rw [State.proc_react, if_neg (Ne.symm hpp), State.proc_setQueue]
        exact h.append_nil (by simp [Event.tookBy?, hpp])
          (by simp [List.filterMap_cons, Event.sawBy?, hpp])
          (by simp [List.filterMap_cons, Event.postedBy?, hpp])
  | @idle p' i loc r hp hq hr =>
      by_cases hpp : p' = p
      · subst hpp
        rw [hp] at h
        simpa [Lived] using hR.idle s i loc r _ _ _ hok h hr
      · rw [State.proc_react, if_neg (Ne.symm hpp)]
        exact h.append_nil (by simp) (by simp [hpp]) (by simp [hpp])
  | @lost p' loc k m rest hp hq =>
      refine Lived.append_nil ?_ rfl rfl rfl
      by_cases hpp : p' = p
      · subst hpp
        rw [hp] at h
        simpa [Lived] using h
      · rwa [State.proc_setProc, if_neg (Ne.symm hpp)]
  | @sent p' loc k m rest ms hp hq hroom =>
      refine Lived.append_nil ?_ rfl rfl rfl
      by_cases hpp : p' = p
      · subst hpp
        rw [hp] at h
        simpa [Lived] using h
      · rwa [State.proc_setProc, if_neg (Ne.symm hpp), State.proc_setQueue]

end Steps

theorem History.lived {p : P} {R : L → List M → List O → List (K × M) → Prop}
    (hR : History g ok p R) (h : Run (g.machine cap) ok (State.init shared) tr s) :
    Lived R (fun ms os xs => ms = [] ∧ os = [] ∧ xs = []) (tookBy p tr) (sawBy p tr)
      (postedBy p tr) (s.proc p) := by
  induction h with
  | start => exact ⟨rfl, rfl, rfl⟩
  | snoc hrun hok hs ih =>
      rw [tookBy_append, sawBy_append, postedBy_append]
      refine hR.step ?_ hok hs ih
      rintro s i r _ _ _ hok hr ⟨rfl, rfl, rfl⟩
      exact hR.start s i r hok hr

/-- What the relation says of the history alone holds of every run, if it holds
of the empty history. -/
theorem History.of_run {p : P} {R : L → List M → List O → List (K × M) → Prop}
    {Q : List M → List O → List (K × M) → Prop} (hR : History g ok p R)
    (h : Run (g.machine cap) ok (State.init shared) tr s)
    (himp : ∀ loc ms os xs, R loc ms os xs → Q ms os xs) (hnil : Q [] [] []) :
    Q (tookBy p tr) (sawBy p tr) (postedBy p tr) := by
  have hlived := hR.lived h
  cases hp : s.proc p with
  | none =>
      rw [hp] at hlived
      obtain ⟨h1, h2, h3⟩ := hlived
      rwa [h1, h2, h3]
  | some q =>
      rw [hp] at hlived
      exact himp _ _ _ _ hlived

/-! ### From one process to the next -/

omit [DecidableEq P] in
theorem mem_sentTo {k : K} {m : M} : m ∈ sentTo k tr ↔ ∃ p, Event.sent p k m ∈ tr := by
  constructor
  · intro h
    obtain ⟨e, he, hm⟩ := List.mem_filterMap.mp h
    cases e with
    | sent p k' m' =>
        simp only [Event.sentTo?, Option.ite_none_right_eq_some, Option.some.injEq] at hm
        obtain ⟨rfl, rfl⟩ := hm
        exact ⟨p, he⟩
    | _ => simp [Event.sentTo?] at hm
  · rintro ⟨p, he⟩
    exact List.mem_filterMap.mpr ⟨_, he, by simp [Event.sentTo?]⟩

theorem takenFrom_key {key : P → K} (hkey : Function.Injective key) (p : P) :
    takenFrom key (key p) tr = tookBy p tr := by
  refine List.filterMap_congr fun e _ => ?_
  cases e <;> simp [Event.takenFrom?, Event.tookBy?, hkey.eq_iff]

/-- A process has taken, in order, what was put on its queue first. -/
theorem tookBy_prefix_sentTo (hkey : Function.Injective g.key)
    (h : Run (g.machine cap) ok (State.init shared) tr s) (p : P) :
    tookBy p tr <+: sentTo (g.key p) tr := by
  rw [sentTo_eq_takenFrom_append h, takenFrom_key hkey]
  exact List.prefix_append _ _

theorem outbox_subset_postedBy (h : Run (g.machine cap) ok (State.init shared) tr s) (p : P) :
    s.outbox p ⊆ postedBy p tr := by
  rw [postedBy_eq_disposedBy_append h p]
  exact List.subset_append_right _ _

def onKey (k : K) (x : K × M) : Option M := if x.1 = k then some x.2 else none

omit [DecidableEq P] in
theorem filterMap_onKey_sublist (k : K) (xs : List (K × M)) :
    (xs.filterMap (onKey k)).Sublist (xs.map Prod.snd) := by
  rw [← List.filterMap_eq_map]
  apply filterMap_sublist
  intro x _ m hm
  simp only [onKey, Option.ite_none_right_eq_some, Option.some.injEq] at hm
  exact congrArg some hm.2

/-- What the queues and the outboxes leave of a trace: a process puts on queues
what it has posted, and takes what was put on its own. -/
structure Ledger (key : P → K) (tr : List (Event P K M O)) : Prop where
  sent : ∀ p, (sentBy p tr).Sublist (postedBy p tr)
  taken : ∀ p, (tookBy p tr).Sublist (sentTo (key p) tr)

theorem ledger (hkey : Function.Injective g.key)
    (h : Run (g.machine cap) ok (State.init shared) tr s) : Ledger g.key tr where
  sent := sentBy_sublist_postedBy h
  taken := fun p => (tookBy_prefix_sentTo hkey h p).sublist

section Ledgers

variable {key : P → K} (h : Ledger key tr)

include h

theorem Ledger.mem_postedBy {p : P} {k : K} {m : M} (hm : Event.sent p k m ∈ tr) :
    (k, m) ∈ postedBy p tr :=
  (h.sent p).subset (mem_sentBy.mpr hm)

theorem Ledger.posted_of_took {p : P} {m : M} (hm : m ∈ tookBy p tr) :
    ∃ q, (key p, m) ∈ postedBy q tr := by
  obtain ⟨q, hsent⟩ := mem_sentTo.mp ((h.taken p).subset hm)
  exact ⟨q, h.mem_postedBy hsent⟩

/-- What is put on a queue comes from `p`, as far as `f` is concerned, when
`f` makes nothing of what the others post to it. -/
theorem Ledger.filterMap_sentTo {p : P} {k : K} {f : M → Option β}
    (hother : ∀ q m, q ≠ p → (k, m) ∈ postedBy q tr → f m = none) :
    (sentTo k tr).filterMap f = ((sentBy p tr).filterMap (onKey k)).filterMap f := by
  simp only [List.filterMap_filterMap]
  refine List.filterMap_congr fun e he => ?_
  cases e with
  | sent q k' m =>
      by_cases hk : k' = k
      · subst hk
        by_cases hq : q = p
        · simp [Event.sentTo?, Event.sentBy?, onKey, hq]
        · simp [Event.sentTo?, Event.sentBy?, hq, hother q m hq (h.mem_postedBy he)]
      · by_cases hq : q = p <;> simp [Event.sentTo?, Event.sentBy?, onKey, hk, hq]
  | _ => rfl

theorem Ledger.sentTo_sublist_postedBy {p : P} {k : K} {f : M → Option β}
    (hother : ∀ q m, q ≠ p → (k, m) ∈ postedBy q tr → f m = none) :
    ((sentTo k tr).filterMap f).Sublist (((postedBy p tr).filterMap (onKey k)).filterMap f) := by
  rw [h.filterMap_sentTo hother]
  exact ((h.sent p).filterMap _).filterMap f

section Counting

variable {κ : Type*} [DecidableEq κ]

omit [DecidableEq P] [DecidableEq K] h in
theorem count_map_eq (f : M → κ) (c : κ) (ms : List M) :
    (ms.map f).count c = (ms.filterMap fun m => if f m = c then some m else none).length := by
  induction ms with
  | nil => rfl
  | cons m ms ih =>
      by_cases hm : f m = c
      · simp [hm, ih]
      · simp [hm, ih]

/-- Messages of a kind that only `p` posts to a queue are counted at `p`. -/
theorem Ledger.count_sentTo {p : P} {k : K} {f : M → κ} {c : κ}
    (hother : ∀ q m, q ≠ p → (k, m) ∈ postedBy q tr → f m ≠ c) :
    ((sentTo k tr).map f).count c = (((sentBy p tr).filterMap (onKey k)).map f).count c := by
  rw [count_map_eq, count_map_eq, h.filterMap_sentTo fun q m hq hm => if_neg (hother q m hq hm)]

theorem Ledger.count_sentTo_le {p : P} {k : K} {f : M → κ} {c : κ}
    (hother : ∀ q m, q ≠ p → (k, m) ∈ postedBy q tr → f m ≠ c) :
    ((sentTo k tr).map f).count c ≤ ((postedBy p tr).map fun x => f x.2).count c := by
  have hposted : (((sentBy p tr).filterMap (onKey k)).map f).Sublist
      (((postedBy p tr).map Prod.snd).map f) :=
    (((h.sent p).filterMap _).trans (filterMap_onKey_sublist k _)).map f
  rw [List.map_map] at hposted
  rw [h.count_sentTo hother]
  exact hposted.count_le c

theorem Ledger.count_tookBy_le (p : P) (f : M → κ) (c : κ) :
    ((tookBy p tr).map f).count c ≤ ((sentTo (key p) tr).map f).count c :=
  ((h.taken p).map f).count_le c

end Counting

end Ledgers

/-! ### Processes and their queues -/

/-- A process that is up has its queue, and every queue is that of a process
that is up. -/
structure Standing (g : Program P K M L G I O) (s : State P K M L G) : Prop where
  nodup : s.started.Nodup
  up_iff : ∀ p, s.proc p ≠ none ↔ p ∈ s.started
  queue_iff : ∀ k, s.queue k ≠ none ↔ ∃ p ∈ s.started, g.key p = k

omit [DecidableEq P] [DecidableEq K] in
theorem Standing.init : Standing g (State.init shared) where
  nodup := List.nodup_nil
  up_iff := by simp [State.init]
  queue_iff := by simp [State.init]

omit [DecidableEq P] [DecidableEq K] in
theorem Standing.congr {s' : State P K M L G} (h : Standing g s)
    (hstarted : s'.started = s.started) (hproc : ∀ p, s'.proc p = none ↔ s.proc p = none)
    (hqueue : ∀ k, s'.queue k = none ↔ s.queue k = none) : Standing g s' where
  nodup := hstarted ▸ h.nodup
  up_iff := fun p => by rw [hstarted, ← h.up_iff, Ne, hproc]
  queue_iff := fun k => by rw [hstarted, ← h.queue_iff, Ne, hqueue]

theorem Standing.step {s' : State P K M L G} {a : Action P I} {es : List (Event P K M O)}
    (h : Standing g s) (hs : g.step cap s a = some (s', es)) : Standing g s' := by
  cases step_cases hs with
  | @start p i r hp hr =>
      have hnew : p ∉ s.started := fun hmem => (h.up_iff p).mpr hmem hp
      refine ⟨?_, fun q => ?_, fun k => ?_⟩
      · rw [State.started_launch, List.nodup_append]
        exact ⟨h.nodup, List.nodup_singleton p, fun a ha b hb => by
          rw [List.mem_singleton.mp hb]
          exact fun hab => hnew (hab ▸ ha)⟩
      · rw [State.proc_launch, State.started_launch]
        by_cases hq : q = p
        · simp [hq]
        · simp [hq, ← h.up_iff q]
      · rw [State.queue_launch, State.started_launch]
        by_cases hk : k = g.key p
        · simp only [hk, if_true, ne_eq, reduceCtorEq, not_false_eq_true, true_iff]
          exact ⟨p, by simp, rfl⟩
        · simp only [hk, if_false, h.queue_iff k, List.mem_append, List.mem_singleton]
          constructor
          · rintro ⟨q, hq, hqk⟩
            exact ⟨q, .inl hq, hqk⟩
          · rintro ⟨q, hq | rfl, hqk⟩
            · exact ⟨q, hq, hqk⟩
            · exact absurd hqk.symm hk
  | @recv p i loc m ms r hp hq hr =>
      refine h.congr rfl (fun q => ?_) fun k => ?_
      · by_cases hqp : q = p <;> simp [hqp, hp]
      · by_cases hk : k = g.key p <;> simp [hk, hq]
  | @idle p i loc r hp hq hr =>
      refine h.congr rfl (fun q => ?_) fun k => Iff.rfl
      by_cases hqp : q = p <;> simp [hqp, hp]
  | @lost p loc k m rest hp hq =>
      refine h.congr rfl (fun q => ?_) fun k => Iff.rfl
      by_cases hqp : q = p <;> simp [hqp, hp]
  | @sent p loc k m rest ms hp hq hroom =>
      refine h.congr rfl (fun q => ?_) fun k' => ?_
      · by_cases hqp : q = p <;> simp [hqp, hp]
      · by_cases hk : k' = k <;> simp [hk, hq]

theorem standing (h : Run (g.machine cap) ok (State.init shared) tr s) : Standing g s :=
  h.invariant_state (Standing g) .init fun _ _ _ _ hI _ hs => hI.step hs

theorem started_subset {s' : State P K M L G} {a : Action P I} {es : List (Event P K M O)}
    (hs : g.step cap s a = some (s', es)) : s.started ⊆ s'.started := by
  cases step_cases hs with
  | start hp hr => exact List.subset_append_left _ _
  | _ => exact List.Subset.refl _

theorem queue_of_sent {s' : State P K M L G} {a : Action P I} {es : List (Event P K M O)}
    (hs : g.step cap s a = some (s', es)) {p : P} {k : K} {m : M} (hm : Event.sent p k m ∈ es) :
    s.queue k ≠ none := by
  cases step_cases hs with
  | start hp hr => simp [Reaction.events] at hm
  | recv hp hq hr => simp [Reaction.events] at hm
  | idle hp hq hr => simp [Reaction.events] at hm
  | lost hp hq => simp at hm
  | sent hp hq hroom =>
      obtain ⟨-, rfl, -⟩ : _ ∧ _ ∧ _ := by simpa using hm
      simp [hq]

theorem started_of_sent {p : P} {k : K} {m : M}
    (h : Run (g.machine cap) ok (State.init shared) tr s) (hm : Event.sent p k m ∈ tr) :
    ∃ q ∈ s.started, g.key q = k := by
  induction h with
  | start => cases hm
  | @snoc tr s s' a es hrun hok hs ih =>
      have hbefore : ∃ q ∈ s.started, g.key q = k := by
        rcases List.mem_append.mp hm with hold | hnew
        · exact ih hold
        · exact ((standing hrun).queue_iff k).mp (queue_of_sent hs hnew)
      obtain ⟨q, hq, hk⟩ := hbefore
      exact ⟨q, started_subset hs hq, hk⟩

end Runs

/-! ### The part of one process in a step -/

def Event.proc : Event P K M O → P
  | .started p => p
  | .took p _ => p
  | .saw p _ => p
  | .posted p _ _ => p
  | .sent p _ _ => p
  | .lost p _ _ => p

inductive PartOf (g : Program P K M L G I O) (s s' : State P K M L G) (p : P)
    (es : List (Event P K M O)) : Prop
  | started {i r} (hp : s.proc p = none) (hr : g.start p i s.shared = some r)
      (hp' : s'.proc p = some ⟨r.loc, r.sends⟩) (hes : es = .started p :: r.events p)
  | took {i loc m r} (hp : s.proc p = some ⟨loc, []⟩) (hr : g.recv p i loc s.shared m = some r)
      (hp' : s'.proc p = some ⟨r.loc, r.sends⟩) (hes : es = .took p m :: r.events p)
  | idled {i loc r} (hp : s.proc p = some ⟨loc, []⟩) (hr : g.idle p i loc s.shared = some r)
      (hp' : s'.proc p = some ⟨r.loc, r.sends⟩) (hes : es = r.events p)
  | flushed {loc x rest} (hp : s.proc p = some ⟨loc, x :: rest⟩)
      (hp' : s'.proc p = some ⟨loc, rest⟩)
      (hes : es = [.lost p x.1 x.2] ∨ es = [.sent p x.1 x.2])
  | other (hp : s'.proc p = s.proc p) (hes : ∀ ev ∈ es, ev.proc ≠ p)

section Parts

variable {g : Program P K M L G I O} {cap : Option ℕ} {s s' : State P K M L G} {a : Action P I}
  {es : List (Event P K M O)}

omit [DecidableEq P] [DecidableEq K] in
theorem proc_of_mem_events {p : P} {r : Reaction K M L G O} :
    ∀ ev ∈ r.events p, ev.proc = p := fun ev hev => by
  rcases List.mem_append.mp hev with hsaw | hposted
  · obtain ⟨o, -, rfl⟩ := List.mem_map.mp hsaw
    rfl
  · obtain ⟨x, -, rfl⟩ := List.mem_map.mp hposted
    rfl

theorem proc_of_step (hs : g.step cap s a = some (s', es)) : ∀ ev ∈ es, ev.proc = a.proc := by
  cases step_cases hs with
  | start hp hr => exact List.forall_mem_cons.mpr ⟨rfl, proc_of_mem_events⟩
  | recv hp hq hr => exact List.forall_mem_cons.mpr ⟨rfl, proc_of_mem_events⟩
  | idle hp hq hr => exact proc_of_mem_events
  | lost hp hq => exact List.forall_mem_cons.mpr ⟨rfl, fun _ h => by cases h⟩
  | sent hp hq hroom => exact List.forall_mem_cons.mpr ⟨rfl, fun _ h => by cases h⟩

theorem proc_of_ne (hs : g.step cap s a = some (s', es)) {p : P} (hp : p ≠ a.proc) :
    s'.proc p = s.proc p := by
  cases step_cases hs with
  | start hq hr => exact (State.proc_launch s _ _ _ _).trans (if_neg hp)
  | recv hq hqueue hr => exact (State.proc_react _ _ _ _).trans (if_neg hp)
  | idle hq hqueue hr => exact (State.proc_react _ _ _ _).trans (if_neg hp)
  | lost hq hqueue => exact (State.proc_setProc _ _ _ _).trans (if_neg hp)
  | sent hq hqueue hroom => exact (State.proc_setProc _ _ _ _).trans (if_neg hp)

theorem partOf_of_step (hs : g.step cap s a = some (s', es)) (p : P) : PartOf g s s' p es := by
  by_cases hp : p = a.proc
  · subst hp
    cases step_cases hs with
    | start hp hr => exact .started hp hr (by simp [Action.proc]) rfl
    | recv hp hq hr => exact .took hp hr (by simp [Action.proc]) rfl
    | idle hp hq hr => exact .idled hp hr (by simp [Action.proc]) rfl
    | lost hp hq => exact .flushed hp (by simp [Action.proc]) (.inl rfl)
    | sent hp hq hroom => exact .flushed hp (by simp [Action.proc]) (.inr rfl)
  · exact .other (proc_of_ne hs hp) fun ev hev => (proc_of_step hs ev hev).trans_ne (Ne.symm hp)

end Parts

end Mailbox
