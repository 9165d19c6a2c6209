import Fleetcore.Forwarding
import Fleetcore.Lib.Backlog

/-!
Whether the blocking sends can close a circle.

Gateway waits for room in locator's queue, locator for room in a termd's queue,
and a termd for room in gateway's queue, which gateway does not read while it
has requests to send. All three wait for each other only if all three queues
are full, so the messages under way decide. `Clear` looks at each command that
has more than a queue full of commands behind it: either few commands ahead of
it are for the same terminal, or few messages are ahead of it at all. Only a
pass of gateway that completes new requests can spoil that.
-/

namespace Fleetcore.System

open ByteOrder StateMachine Mailbox

def destination (e : Endian) (data : List UInt8) : Option ℤ :=
  (Locator.numberIn e data).map Locator.termdKey

/-- The destinations of the commands that no termd has got, the oldest first. -/
def upstream (e : Endian) (s : State) : List (Option ℤ) :=
  ((s.outbox .locator).map Prod.snd ++ s.contents (key .locator) ++
    (s.outbox .gateway).map Prod.snd).map (destination e)

/-- The commands a termd has got, the unsent acknowledgement included. -/
def share (s : State) (slot : Slot) : ℕ :=
  (s.contents (key (.termd slot))).length + (s.outbox (.termd slot)).length

/-- Looking at each command under way, with those ahead of it and those behind it,
is looking at each position. -/
theorem forall_command_iff {up : List (Option ℤ)}
    {P : Slot → List (Option ℤ) → List (Option ℤ) → Prop} :
    (∀ slot ahead behind, up = ahead ++ some (key (.termd slot)) :: behind →
      P slot ahead behind) ↔ ∀ i < up.length, ∀ slot ∈ (up.getD i none).bind slotAt,
        P slot (up.take i) (up.drop (i + 1)) := by
  constructor
  · intro h i hi slot hslot
    obtain ⟨k, hk, hat⟩ := Option.bind_eq_some_iff.mp hslot
    have hget : up[i] = some (key (.termd slot)) := by
      rw [slotAt_eq_some.mp hat, ← hk, List.getD_eq_getElem?_getD, List.getElem?_eq_getElem hi,
        Option.getD_some]
    apply h
    rw [← hget, List.getElem_cons_drop, List.take_append_drop]
  · rintro h slot ahead behind rfl
    have hslot := h ahead.length (by simp) slot (by simp [slotAt_eq_some])
    simpa using hslot

/-- Each command with more than `cap` commands behind it has at most `cap`
commands for its terminal ahead of it, or at most `2 * cap` messages at all. -/
def Clear (cap : ℕ) (up : List (Option ℤ)) (share : Slot → ℕ) (load : ℕ) : Prop :=
  ∀ slot ahead behind, up = ahead ++ some (key (.termd slot)) :: behind → cap < behind.length →
    ahead.count (some (key (.termd slot))) + share slot ≤ cap ∨
      load ≤ 2 * cap + 1 + behind.length

instance (cap : ℕ) (up : List (Option ℤ)) (share : Slot → ℕ) (load : ℕ) :
    Decidable (Clear cap up share load) := decidable_of_iff _ forall_command_iff.symm

/-- Gateway blocked on locator, locator on a termd, and that termd on gateway. -/
def Deadlocked (cap : ℕ) (s : State) : Prop :=
  ∃ slot, Blocked cap s .gateway (key .locator) ∧
    Blocked cap s .locator (key (.termd slot)) ∧ Blocked cap s (.termd slot) (key .gateway)

/-- A pass of gateway completes requests only as far as they keep it clear. -/
def Uncongested (e : Endian) (cap : ℕ) (s : State) : Action → Prop
  | .idle .gateway env => ∀ w, s.proc .gateway = some ⟨.gateway w, []⟩ →
      Clear cap (upstream e s ++ (w.batch e env).map fun f => destination e (command e f))
        (share s) (load (program e) s + (w.batch e env).length)
  | _ => True

def resting (s : State) : Option Gateway :=
  match s.proc .gateway with
  | some ⟨.gateway w, []⟩ => some w
  | _ => none

theorem resting_eq_some {s : State} {w : Gateway} :
    resting s = some w ↔ s.proc .gateway = some ⟨.gateway w, []⟩ := by
  unfold resting
  split
  · next hp => simp [hp]
  · next hne => simpa using fun hp => hne w hp

instance (e : Endian) (cap : ℕ) (s : State) : DecidablePred (Uncongested e cap s)
  | .idle .gateway env => decidable_of_iff (∀ w ∈ resting s, Clear cap
      (upstream e s ++ (w.batch e env).map fun f => destination e (command e f))
      (share s) (load (program e) s + (w.batch e env).length))
      (by simp [Uncongested, resting_eq_some])
  | .idle .locator _ => isTrue trivial
  | .idle (.termd _) _ => isTrue trivial
  | .start _ _ => isTrue trivial
  | .recv _ _ => isTrue trivial
  | .flush _ => isTrue trivial

/-- Whatever is at the front goes to its terminals or is dropped. -/
theorem Clear.mono {cap load load' : ℕ} {up up' : List (Option ℤ)} {share share' : Slot → ℕ}
    (h : Clear cap up share load) (front : List (Option ℤ)) (hup : up = front ++ up')
    (hshare : ∀ slot, share' slot ≤ share slot + front.count (some (key (.termd slot))))
    (hload : load' ≤ load) : Clear cap up' share' load' := by
  intro slot ahead behind hsplit hlen
  have hwhole : up = (front ++ ahead) ++ some (key (.termd slot)) :: behind := by
    rw [hup, hsplit, List.append_assoc]
  have hslot := hshare slot
  rcases h slot _ behind hwhole hlen with hsame | hall
  · rw [List.count_append] at hsame
    exact .inl (by omega)
  · exact .inr (by omega)

theorem Clear.keep {cap load load' : ℕ} {up up' : List (Option ℤ)} {share share' : Slot → ℕ}
    (h : Clear cap up share load) (hup : up' = up) (hshare : ∀ slot, share' slot ≤ share slot)
    (hload : load' ≤ load) : Clear cap up' share' load' :=
  h.mono [] hup.symm (fun slot => by simpa using hshare slot) hload

theorem Clear.of_length_le {cap load : ℕ} {up : List (Option ℤ)} {share : Slot → ℕ}
    (h : up.length ≤ cap + 1) : Clear cap up share load := by
  intro slot ahead behind hsplit hlen
  rw [hsplit, List.length_append, List.length_cons] at h
  omega

section Runs

variable {e : Endian} {c : Option ℕ} {cap : ℕ} {table : Segment} {s s' : State}
  {tr es : List Event} {a : Action}

theorem destination_relay (e : Endian) (n : UInt32) (data : List UInt8) :
    destination e (Locator.relay e n data) = destination e data := by
  rw [destination, destination, numberIn_relay]

theorem outbox_gateway {ok : State → Action → Prop}
    (hrun : Run (machine e c) ok (State.init table) tr s) {x : ℤ × List UInt8}
    (hx : x ∈ s.outbox .gateway) : x.1 = key .locator := by
  have hposted := outbox_subset_postedBy hrun .gateway hx
  rw [postedBy_gateway hrun] at hposted
  obtain ⟨f, -, rfl⟩ := List.mem_map.mp hposted
  rfl

theorem outbox_locator (hrun : Run (machine e c) (KeepsOut e) (State.init table) tr s)
    {x : ℤ × List UInt8} (hx : x ∈ s.outbox .locator) :
    destination e x.2 = some x.1 ∧ x.1 ≠ key .locator ∧ x.1 ≠ key .gateway := by
  have hposted := outbox_subset_postedBy hrun .locator hx
  obtain ⟨n, hn, hkey⟩ := mem_postedBy_locator hrun hposted
  exact ⟨by rw [destination, hn, hkey]; rfl, posted_by_locator_ne hrun hposted,
    hkey ▸ termdKey_ne_gateway n⟩

theorem outbox_termd {ok : State → Action → Prop}
    (hrun : Run (machine e c) ok (State.init table) tr s) {slot : Slot} {x : ℤ × List UInt8}
    (hx : x ∈ s.outbox (.termd slot)) : x.1 = key .gateway :=
  mem_postedBy_termd hrun (outbox_subset_postedBy hrun _ hx)

theorem outbox_start {p : ProcId} {i : Env} {r : Reaction Loc} (hp : s.proc p = none)
    (hr : (program e).start p i s.shared = some r) (q : ProcId) :
    (s.launch ((program e).key p) p r).outbox q = s.outbox q := by
  rw [State.outbox_launch, sends_start hr]
  split
  · next hq => rw [hq, State.outbox_of_not_running hp]
  · rfl

theorem outbox_idle {p : ProcId} {i : Env} {loc : Loc} {r : Reaction Loc} (hgw : p ≠ .gateway)
    (hp : s.proc p = some ⟨loc, []⟩) (hr : (program e).idle p i loc s.shared = some r)
    (q : ProcId) : (s.react p r).outbox q = s.outbox q := by
  rw [State.outbox_react, sends_idle hgw hr]
  split
  · next hq => rw [hq, State.outbox_of_proc hp]
  · rfl

theorem Clear.congr (h : Clear cap (upstream e s) (share s) (load (program e) s))
    (hout : ∀ q, s'.outbox q = s.outbox q) (hcont : ∀ k, s'.contents k = s.contents k)
    (hload : load (program e) s' ≤ load (program e) s) :
    Clear cap (upstream e s') (share s') (load (program e) s') := by
  apply h.keep
  · simp only [upstream, hout, hcont]
  · intro slot
    simp only [share, hout, hcont, le_refl]
  · exact hload

theorem clear_start (hst : Standing (program e) s)
    (h : Clear cap (upstream e s) (share s) (load (program e) s)) {p : ProcId} {i : Env}
    {r : Reaction Loc} (hp : s.proc p = none) (hr : (program e).start p i s.shared = some r) :
    Clear cap (upstream e (s.launch ((program e).key p) p r))
      (share (s.launch ((program e).key p) p r))
      (load (program e) (s.launch ((program e).key p) p r)) := by
  apply h.congr
  · exact outbox_start hp hr
  · intro k
    rw [State.contents_launch]
  · rw [load_launch hst key_injective hp, sends_start hr]
    rfl

/-- A command that locator forwards stays where it is in the order, one that it
drops was at the front. -/
theorem clear_recv (hst : Standing (program e) s)
    (h : Clear cap (upstream e s) (share s) (load (program e) s)) {p : ProcId} {i : Env}
    {loc : Loc} {m : List UInt8} {ms : List (List UInt8)} {r : Reaction Loc}
    (hp : s.proc p = some ⟨loc, []⟩) (hq : s.queue ((program e).key p) = some (m :: ms))
    (hr : (program e).recv p i loc s.shared m = some r) :
    Clear cap (upstream e ((s.setQueue ((program e).key p) ms).react p r))
      (share ((s.setQueue ((program e).key p) ms).react p r))
      (load (program e) ((s.setQueue ((program e).key p) ms).react p r)) := by
  have hload := load_recv hst key_injective hp hq r
  have hout := State.outbox_of_proc hp
  have hcont := State.contents_of_queue hq
  rw [program_key] at *
  cases p with
  | gateway =>
      rw [sends_recv_gateway hr, List.length_nil] at hload
      apply h.keep
      · simp [upstream, sends_recv_gateway hr, hout]
      · intro slot
        simp [share]
      · omega
  | locator =>
      -- locator sends at once, so nothing is ahead of what it takes
      have hup : upstream e s = [destination e m] ++
          (ms ++ (s.outbox .gateway).map Prod.snd).map (destination e) := by
        simp [upstream, hout, hcont]
      have hshare : ∀ slot, share ((s.setQueue (key .locator) ms).react .locator r) slot =
          share s slot := by
        intro slot
        simp [share]
      rcases sends_recv_locator hr with hnone | ⟨n, -, -, hsends⟩
      · rw [hnone, List.length_nil] at hload
        apply h.mono [destination e m]
        · rw [hup]
          simp [upstream, hnone]
        · intro slot
          rw [hshare]
          exact Nat.le_add_right _ _
        · omega
      · rw [hsends, List.length_singleton] at hload
        apply h.keep
        · rw [hup]
          simp [upstream, hsends, destination_relay]
        · exact fun slot => (hshare slot).le
        · omega
  | termd slot =>
      have hlen : r.sends.length ≤ 1 := by
        rcases sends_recv_termd hr with hnone | hsends
        · simp [hnone]
        · simp [hsends]
      apply h.keep
      · simp [upstream]
      · intro slot'
        by_cases hslot : slot' = slot
        · subst hslot
          simp [share, hcont, hout]
          omega
        · simp [share, hslot]
      · omega

theorem clear_idle (hst : Standing (program e) s)
    (h : Clear cap (upstream e s) (share s) (load (program e) s)) {p : ProcId} {i : Env}
    {loc : Loc} {r : Reaction Loc} (hun : Uncongested e cap s (.idle p i))
    (hp : s.proc p = some ⟨loc, []⟩) (hr : (program e).idle p i loc s.shared = some r) :
    Clear cap (upstream e (s.react p r)) (share (s.react p r))
      (load (program e) (s.react p r)) := by
  have hload := load_react (g := program e) hst hp r
  by_cases hgw : p = .gateway
  · subst hgw
    obtain ⟨w, rfl, hsends⟩ := sends_idle_gateway hr
    rw [hsends, List.length_map] at hload
    apply (hun w hp).keep
    · simp [upstream, hsends, State.outbox_of_proc hp]
    · intro slot
      simp [share]
    · exact hload.le
  · apply h.congr
    · exact outbox_idle hgw hp hr
    · intro k
      rw [State.contents_react]
    · rw [hload, sends_idle hgw hr]
      rfl

/-- A send to a missing queue: the command was at the front, since nothing is
ahead of gateway's outbox when locator is not running. -/
theorem clear_lost (hrun : Run (machine e c) (KeepsOut e) (State.init table) tr s)
    (h : Clear cap (upstream e s) (share s) (load (program e) s)) {p : ProcId} {loc : Loc}
    {k : ℤ} {m : List UInt8} {rest : List (ℤ × List UInt8)}
    (hp : s.proc p = some ⟨loc, (k, m) :: rest⟩) (hq : s.queue k = none) :
    Clear cap (upstream e (s.setProc p ⟨loc, rest⟩)) (share (s.setProc p ⟨loc, rest⟩))
      (load (program e) (s.setProc p ⟨loc, rest⟩)) := by
  have hst := standing hrun
  have hload := load_lost (g := program e) hst hp
  have hout := State.outbox_of_proc hp
  cases p with
  | gateway =>
      obtain rfl : k = key .locator := outbox_gateway hrun (x := (k, m)) (by simp [hout])
      have hloc : s.outbox .locator = [] :=
        State.outbox_of_not_running (hst.proc_eq_none hq)
      have hnil : s.contents (key .locator) = [] := by simp [State.contents, hq]
      apply h.mono [destination e m]
      · simp [upstream, hout, hloc, hnil]
      · intro slot
        simp [share]
      · omega
  | locator =>
      apply h.mono [destination e m]
      · simp [upstream, hout]
      · intro slot
        simp [share]
      · omega
  | termd slot =>
      apply h.keep
      · simp [upstream]
      · intro slot'
        by_cases hslot : slot' = slot
        · subst hslot
          simp [share, hout]
        · simp [share, hslot]
      · omega

theorem clear_sent (hrun : Run (machine e c) (KeepsOut e) (State.init table) tr s)
    (h : Clear cap (upstream e s) (share s) (load (program e) s)) {p : ProcId} {loc : Loc}
    {k : ℤ} {m : List UInt8} {rest : List (ℤ × List UInt8)} {ms : List (List UInt8)}
    (hp : s.proc p = some ⟨loc, (k, m) :: rest⟩) (hq : s.queue k = some ms) :
    Clear cap (upstream e ((s.setQueue k (ms ++ [m])).setProc p ⟨loc, rest⟩))
      (share ((s.setQueue k (ms ++ [m])).setProc p ⟨loc, rest⟩))
      (load (program e) ((s.setQueue k (ms ++ [m])).setProc p ⟨loc, rest⟩)) := by
  have hload := load_sent (standing hrun) key_injective hp hq
  have hout := State.outbox_of_proc hp
  have hcont := State.contents_of_queue hq
  cases p with
  | gateway =>
      obtain rfl : k = key .locator := outbox_gateway hrun (x := (k, m)) (by simp [hout])
      apply h.keep
      · simp [upstream, hout, hcont]
      · intro slot
        simp [share]
      · exact hload.le
  | locator =>
      obtain ⟨hdest, hself, -⟩ := outbox_locator hrun (x := (k, m)) (by simp [hout])
      apply h.mono [destination e m]
      · simp [upstream, hout, Ne.symm hself]
      · intro slot
        simp only [hdest]
        -- one command less ahead of the others, one more in the terminal's queue
        by_cases hk : key (.termd slot) = k
        · simp [share, hk, hcont]
          omega
        · simp [share, hk]
      · exact hload.le
  | termd slot =>
      have hmem : (k, m) ∈ s.outbox (.termd slot) := by simp [hout]
      obtain rfl : k = key .gateway := outbox_termd hrun hmem
      apply h.keep
      · simp [upstream]
      · intro slot'
        by_cases hslot : slot' = slot
        · subst hslot
          simp [share, hout]
        · simp [share, hslot]
      · exact hload.le

theorem clear_step (hrun : Run (machine e c) (KeepsOut e) (State.init table) tr s)
    (hun : Uncongested e cap s a)
    (h : Clear cap (upstream e s) (share s) (load (program e) s))
    (hs : (machine e c).step s a = some (s', es)) :
    Clear cap (upstream e s') (share s') (load (program e) s') := by
  have hst := standing hrun
  cases step_cases hs with
  | start hp hr => exact clear_start hst h hp hr
  | recv hp hq hr => exact clear_recv hst h hp hq hr
  | idle hp _ hr => exact clear_idle hst h hun hp hr
  | lost hp hq => exact clear_lost hrun h hp hq
  | sent hp hq _ => exact clear_sent hrun h hp hq

theorem clear_run (hrun : Run (machine e c) (fun s a => KeepsOut e s a ∧ Uncongested e cap s a)
    (State.init table) tr s) : Clear cap (upstream e s) (share s) (load (program e) s) := by
  induction hrun with
  | start => exact .of_length_le (by simp [upstream, State.init, State.outbox, State.contents])
  | snoc hrun hok hs ih => exact clear_step (hrun.mono fun _ _ h => h.1) hok.2 ih hs

end Runs

/-- As long as every pass of gateway keeps the commands clear, the blocking
sends do not close a circle. -/
theorem not_deadlocked {e : Endian} {cap : ℕ} {table : Segment} {s : State} {tr : List Event}
    (h : Run (machine e (some cap)) (fun s a => KeepsOut e s a ∧ Uncongested e cap s a)
      (State.init table) tr s) : ¬Deadlocked cap s := by
  rintro ⟨slot, hgw, hloc, htermd⟩
  have hrun := h.mono fun _ _ hok => hok.1
  have hst := standing h
  obtain ⟨mg, restg, houtg⟩ := hgw.outbox
  obtain ⟨ml, restl, houtl⟩ := hloc.outbox
  obtain ⟨mt, restt, houtt⟩ := htermd.outbox
  have hfullL := hgw.le_length
  have hfullT := hloc.le_length
  have hfullG := htermd.le_length
  have hdest : destination e ml = some (key (.termd slot)) :=
    (outbox_locator hrun (x := (key (.termd slot), ml)) (by simp [houtl])).1
  have hup : upstream e s = [] ++ some (key (.termd slot)) :: (restl.map Prod.snd ++
      s.contents (key .locator) ++ mg :: restg.map Prod.snd).map (destination e) := by
    simp [upstream, houtg, houtl, hdest]
  have hload := sum_le_load (g := program e) (S := {.gateway, .locator, .termd slot})
    (s := s) fun p hp => by
      simp only [Finset.mem_insert, Finset.mem_singleton] at hp
      rcases hp with rfl | rfl | rfl
      · exact hst.started_of_outbox houtg
      · exact hst.started_of_outbox houtl
      · exact hst.started_of_outbox houtt
  simp [houtg, houtl, houtt] at hload
  have hclear := clear_run h slot _ _ hup (by simp; omega)
  simp [share, houtt] at hclear
  omega

/-- Five requests for one terminal over queues that hold a single message: locator
waits for termd and termd for gateway, which has got rid of its last request. -/
theorem not_deadlocked_five_requests : ∃ tr s,
    Run (machine .little (some 1)) (fun s a => KeepsOut .little s a ∧ Uncongested .little 1 s a)
      init tr s ∧ Gateway.cuts (sawBy .gateway tr) = List.replicate 5 (requestFrame 1001) ∧
      Blocked 1 s .locator (key (.termd slot1)) ∧ Blocked 1 s (.termd slot1) (key .gateway) ∧
      ¬Deadlocked 1 s := by
  obtain ⟨tr, s, hrun, hend⟩ := (machine .little (some 1)).exists_run_of_exec
    (fun s a => KeepsOut .little s a ∧ Uncongested .little 1 s a) init
    [.start .gateway .quiet, .start .locator .quiet, .start (.termd slot1) .quiet,
      .idle .gateway { Env.quiet with
        accepted := some 5
        received := .data (List.replicate 5 (requestFrame 1001)).flatten },
      .flush .gateway, .recv .locator .quiet, .flush .locator, .recv (.termd slot1) .quiet,
      .flush (.termd slot1),
      .flush .gateway, .recv .locator .quiet, .flush .locator, .recv (.termd slot1) .quiet,
      .flush .gateway, .recv .locator .quiet, .flush .locator,
      .flush .gateway, .recv .locator .quiet, .flush .gateway]
    (fun r => decide (Gateway.cuts (sawBy .gateway r.2) = List.replicate 5 (requestFrame 1001) ∧
      Blocked 1 r.1 .locator (key (.termd slot1)) ∧
      Blocked 1 r.1 (.termd slot1) (key .gateway)))
    (by decide +kernel) (by decide +kernel)
  obtain ⟨hcuts, hloc, htermd⟩ := of_decide_eq_true hend
  exact ⟨tr, s, hrun, hcuts, hloc, htermd, not_deadlocked hrun⟩

/-- Queues that hold a single message, and six requests for one registered
terminal in one chunk. -/
theorem deadlocked_by_six_requests : ∃ tr s,
    Run (machine .little (some 1)) Always init tr s ∧
      Gateway.cuts (sawBy .gateway tr) = List.replicate 6 (requestFrame 1001) ∧
      s.shared.Listed 1001 ∧ Deadlocked 1 s := by
  obtain ⟨tr, s, hrun, hend⟩ := (machine .little (some 1)).exists_run_of_exec Always init
    [.start .gateway .quiet, .start .locator .quiet, .start (.termd slot1) .quiet,
      .idle .gateway { Env.quiet with
        accepted := some 5
        received := .data (List.replicate 6 (requestFrame 1001)).flatten },
      -- the first request is acknowledged, and the second waits to be
      .flush .gateway, .recv .locator .quiet, .flush .locator, .recv (.termd slot1) .quiet,
      .flush (.termd slot1),
      .flush .gateway, .recv .locator .quiet, .flush .locator, .recv (.termd slot1) .quiet,
      -- the third fills the queue of termd, the fourth stays with locator
      .flush .gateway, .recv .locator .quiet, .flush .locator,
      .flush .gateway, .recv .locator .quiet, .flush .gateway]
    (fun r => decide (Gateway.cuts (sawBy .gateway r.2) = List.replicate 6 (requestFrame 1001) ∧
      r.1.shared.Listed 1001 ∧ Blocked 1 r.1 .gateway (key .locator) ∧
      Blocked 1 r.1 .locator (key (.termd slot1)) ∧
      Blocked 1 r.1 (.termd slot1) (key .gateway)))
    (by decide +kernel) (by decide +kernel)
  obtain ⟨hcuts, hlisted, hblocked⟩ := of_decide_eq_true hend
  exact ⟨tr, s, hrun, hcuts, hlisted, slot1, hblocked⟩

end Fleetcore.System
