import Fleetcore.Blocking
import Fleetcore.Upkeep

/-!
Whether one stuck termd holds up the commands for the others.

Locator waits for room in the queue of whatever termd its next command is for,
and the commands behind it wait with it. `Isolates` is what keeps a stuck termd
`A` from being in the way: whenever a command for another terminal is handed to
locator, the commands for `A` ahead of it still fit into the queue of `A`. What
remains between the command and its terminal are then processes that do take
steps, and they can always clear the way (`room`), as they do not deadlock.
-/

namespace Fleetcore.System

open ByteOrder StateMachine Mailbox

/-! ### What is asked of a run -/

/-- The destinations of the commands locator has taken or has in its queue. -/
def inHand (e : Endian) (s : State) : List (Option ℤ) :=
  ((s.outbox .locator).map Prod.snd ++ s.contents (key .locator)).map (destination e)

def waitingFor (s : State) (slot : Slot) : ℕ := (s.contents (key (.termd slot))).length

/-- No command for another termd that is up has more commands for `A` ahead of
it than fit into the queue of `A`, where `load` wait already. -/
def Fits (cap : ℕ) (A : Slot) (started : List ProcId) (load : ℕ) (up : List (Option ℤ)) : Prop :=
  .termd A ∈ started → ∀ slot ≠ A, .termd slot ∈ started → ∀ ahead behind,
    up = ahead ++ some (key (.termd slot)) :: behind →
      ahead.count (some (key (.termd A))) + load ≤ cap

theorem fits_iff {cap : ℕ} {A : Slot} {started : List ProcId} {load : ℕ}
    {up : List (Option ℤ)} : Fits cap A started load up ↔
      (.termd A ∈ started → ∀ i < up.length, ∀ slot ∈ (up.getD i none).bind slotAt,
        slot ≠ A → .termd slot ∈ started →
          (up.take i).count (some (key (.termd A))) + load ≤ cap) := by
  have hpositions := @forall_command_iff up fun slot ahead _ =>
    slot ≠ A → .termd slot ∈ started → ahead.count (some (key (.termd A))) + load ≤ cap
  rw [Fits, ← hpositions]
  constructor
  · intro h hA slot ahead behind hup hslot hstarted
    exact h hA slot hslot hstarted ahead behind hup
  · intro h hA slot hslot hstarted ahead behind hup
    exact h hA slot ahead behind hup hslot hstarted

instance (cap : ℕ) (A : Slot) (started : List ProcId) (load : ℕ) (up : List (Option ℤ)) :
    Decidable (Fits cap A started load up) := decidable_of_iff _ fits_iff.symm

/-- Commands handed to locator leave room for those behind them, a command of
number 0 is handed to it only when the table has no free row, and nobody but
`A` is held up in a call of `send`. -/
def Spares (e : Endian) (cap : ℕ) (A : Slot) (s : State) : Action → Prop
  | .start (.termd slot) _ =>
      Fits cap A (s.started ++ [.termd slot]) (waitingFor s A) (inHand e s)
  | .flush .gateway => .locator ∈ s.started → ∀ x ∈ (s.outbox .gateway).head?,
      (Locator.numberIn e x.2 = some 0 → ¬s.shared.Listed 0) ∧
        Fits cap A s.started (waitingFor s A) (inHand e s ++ [destination e x.2])
  | .recv .gateway env => Ends LockResponse.size env.sends
  | .recv (.termd slot) env => slot ≠ A → Ends LockRequest.size env.sends
  | _ => True

instance (e : Endian) (cap : ℕ) (A : Slot) (s : State) : DecidablePred (Spares e cap A s)
  | .start .gateway _ => isTrue trivial
  | .start .locator _ => isTrue trivial
  | .start (.termd _) _ => inferInstanceAs (Decidable (Fits _ _ _ _ _))
  | .flush .gateway => inferInstanceAs (Decidable (_ → ∀ x ∈ _, (_ → ¬_) ∧ Fits _ _ _ _ _))
  | .flush .locator => isTrue trivial
  | .flush (.termd _) => isTrue trivial
  | .recv .gateway _ => inferInstanceAs (Decidable (Ends _ _))
  | .recv .locator _ => isTrue trivial
  | .recv (.termd _) _ => inferInstanceAs (Decidable (_ → Ends _ _))
  | .idle _ _ => isTrue trivial

def Isolates (e : Endian) (cap : ℕ) (A : Slot) (s : State) (a : Action) : Prop :=
  Spares e cap A s a ∧ Uncongested e cap s a

instance (e : Endian) (cap : ℕ) (A : Slot) (s : State) : DecidablePred (Isolates e cap A s) :=
  fun _ => inferInstanceAs (Decidable (_ ∧ _))

theorem Fits.mono {cap : ℕ} {A : Slot} {started : List ProcId} {load load' : ℕ}
    {up up' : List (Option ℤ)} (h : Fits cap A started load up) (front : List (Option ℤ))
    (hup : up = front ++ up')
    (hload : load' ≤ load + front.count (some (key (.termd A)))) :
    Fits cap A started load' up' := by
  intro hA slot hslot hstarted ahead behind hsplit
  have hwhole : up = (front ++ ahead) ++ some (key (.termd slot)) :: behind := by
    rw [hup, hsplit, List.append_assoc]
  have hfit := h hA slot hslot hstarted _ behind hwhole
  rw [List.count_append] at hfit
  omega

theorem Fits.keep {cap : ℕ} {A : Slot} {started : List ProcId} {load load' : ℕ}
    {up up' : List (Option ℤ)} (h : Fits cap A started load up) (hup : up' = up)
    (hload : load' ≤ load) : Fits cap A started load' up' :=
  h.mono [] hup.symm (by simpa using hload)

section Runs

variable {e : Endian} {c : Option ℕ} {cap : ℕ} {A : Slot} {table : Segment} {s s' : State}
  {tr es : List Event} {a : Action}

/-! ### What holds along such a run -/

structure Sound (e : Endian) (cap : ℕ) (A : Slot) (s : State) : Prop where
  awake : ∀ p ≠ .termd A, ∀ q, s.proc p = some q → Awake p q.loc
  listed : ∀ slot, .termd slot ∈ s.started → s.shared.Listed (1000 + slot.val.toUInt32)
  zero : ∀ m ∈ s.contents (key .locator), Locator.numberIn e m = some 0 → ¬s.shared.Listed 0
  fits : Fits cap A s.started (waitingFor s A) (inHand e s)
  bounded : ∀ k, (s.contents k).length ≤ cap

theorem awake_step (hok : Spares e cap A s a)
    (h : ∀ p ≠ .termd A, ∀ q, s.proc p = some q → Awake p q.loc)
    (hs : (machine e c).step s a = some (s', es)) :
    ∀ p ≠ .termd A, ∀ q, s'.proc p = some q → Awake p q.loc := by
  intro p' hA q' hq'
  cases step_cases hs with
  | @start p i r hp hr =>
      rw [State.proc_launch] at hq'
      split at hq'
      · next heq =>
          obtain rfl := Option.some.inj hq'
          exact heq ▸ awake_start hr
      · exact h p' hA q' hq'
  | @recv p i loc m ms r hp hq hr =>
      rw [State.proc_react, State.proc_setQueue] at hq'
      split at hq'
      · next heq =>
          obtain rfl := Option.some.inj hq'
          subst heq
          refine awake_recv ?_ hr
          -- nobody but `A` is held up in a call of `send`
          cases p' with
          | gateway => exact hok
          | locator => trivial
          | termd slot => exact hok fun heq => hA (heq ▸ rfl)
      · exact h p' hA q' hq'
  | @idle p i loc r hp hq hr =>
      rw [State.proc_react] at hq'
      split at hq'
      · next heq =>
          obtain rfl := Option.some.inj hq'
          exact heq ▸ awake_idle hr
      · exact h p' hA q' hq'
  | @lost p loc k m rest hp hq =>
      rw [State.proc_setProc] at hq'
      split at hq'
      · next heq =>
          obtain rfl := Option.some.inj hq'
          exact heq ▸ h p (heq ▸ hA) ⟨loc, (k, m) :: rest⟩ hp
      · exact h p' hA q' hq'
  | @sent p loc k m rest ms hp hq hroom =>
      rw [State.proc_setProc, State.proc_setQueue] at hq'
      split at hq'
      · next heq =>
          obtain rfl := Option.some.inj hq'
          exact heq ▸ h p (heq ▸ hA) ⟨loc, (k, m) :: rest⟩ hp
      · exact h p' hA q' hq'

/-- What gateway still has to send goes to locator, and what a termd has to send
to gateway, so only gateway puts messages on locator's queue. -/
theorem zero_step (hrun : Run (machine e c) (KeepsOut e) (State.init table) tr s)
    (hok : Spares e cap A s a)
    (h : ∀ m ∈ s.contents (key .locator), Locator.numberIn e m = some 0 → ¬s.shared.Listed 0)
    (hs : (machine e c).step s a = some (s', es)) :
    ∀ m ∈ s'.contents (key .locator), Locator.numberIn e m = some 0 → ¬s'.shared.Listed 0 := by
  intro m' hm' h0 hl
  have hlisted : s.shared.Listed 0 := (extends_step hs).listed_zero hl
  have hold : m' ∉ s.contents (key .locator) := fun hmem => h m' hmem h0 hlisted
  have hst := standing hrun
  cases step_cases hs with
  | start hp hr => exact hold (by simpa using hm')
  | @recv p i loc m ms r hp hq hr =>
      rw [program_key] at hq
      rw [State.contents_react, State.contents_setQueue] at hm'
      split at hm'
      · next heq =>
          have hcont := State.contents_of_queue hq
          rw [program_key] at heq
          rw [← heq] at hcont
          exact hold (hcont ▸ List.mem_cons_of_mem m hm')
      · exact hold hm'
  | idle hp hq hr => exact hold hm'
  | lost hp hq => exact hold hm'
  | @sent p loc k m rest ms hp hq hroom =>
      rw [State.contents_setProc, State.contents_setQueue] at hm'
      split at hm'
      · next heq =>
          subst heq
          have hout := State.outbox_of_proc hp
          rw [← State.contents_of_queue hq] at hm'
          obtain rfl : m' = m := by simpa [hold] using hm'
          have hmem : (key .locator, m') ∈ s.outbox p := by simp [hout]
          -- of the three only gateway sends to locator
          cases p with
          | gateway =>
              obtain ⟨q, hstarted, hkey⟩ := (hst.queue_iff (key .locator)).mp (by simp [hq])
              obtain rfl := key_injective hkey
              exact (hok hstarted (key .locator, m') (by simp [hout])).1 h0 hlisted
          | locator => exact (outbox_locator hrun hmem).2.1 rfl
          | termd slot => exact absurd (outbox_termd hrun hmem) (by simp)
      · exact hold hm'

theorem fits_start (h : Fits cap A s.started (waitingFor s A) (inHand e s)) {p : ProcId} {i : Env}
    {r : Reaction Loc} (hok : Spares e cap A s (.start p i)) (hp : s.proc p = none)
    (hr : (program e).start p i s.shared = some r) :
    Fits cap A (s.launch ((program e).key p) p r).started
      (waitingFor (s.launch ((program e).key p) p r) A)
      (inHand e (s.launch ((program e).key p) p r)) := by
  have hload : waitingFor (s.launch ((program e).key p) p r) A = waitingFor s A := by
    simp [waitingFor]
  have hup : inHand e (s.launch ((program e).key p) p r) = inHand e s := by
    simp only [inHand, outbox_start hp hr, State.contents_launch]
  rw [hload, hup, State.started_launch]
  cases p with
  | gateway =>
      have hmem : ∀ slot, .termd slot ∈ s.started ++ [ProcId.gateway] →
          .termd slot ∈ s.started := fun slot hin => by simpa using hin
      exact fun hA slot hne hslot => h (hmem A hA) slot hne (hmem slot hslot)
  | locator =>
      have hmem : ∀ slot, .termd slot ∈ s.started ++ [ProcId.locator] →
          .termd slot ∈ s.started := fun slot hin => by simpa using hin
      exact fun hA slot hne hslot => h (hmem A hA) slot hne (hmem slot hslot)
  | termd slot => exact hok

theorem fits_recv (h : Fits cap A s.started (waitingFor s A) (inHand e s)) {p : ProcId} {i : Env}
    {loc : Loc} {m : List UInt8} {ms : List (List UInt8)} {r : Reaction Loc}
    (hp : s.proc p = some ⟨loc, []⟩) (hq : s.queue ((program e).key p) = some (m :: ms))
    (hr : (program e).recv p i loc s.shared m = some r) :
    Fits cap A ((s.setQueue ((program e).key p) ms).react p r).started
      (waitingFor ((s.setQueue ((program e).key p) ms).react p r) A)
      (inHand e ((s.setQueue ((program e).key p) ms).react p r)) := by
  have hout := State.outbox_of_proc hp
  have hcont := State.contents_of_queue hq
  rw [program_key] at *
  cases p with
  | gateway =>
      apply h.keep
      · simp [inHand]
      · simp [waitingFor]
  | locator =>
      have hup : inHand e s = [destination e m] ++ ms.map (destination e) := by
        simp [inHand, hout, hcont]
      have hload : waitingFor ((s.setQueue (key .locator) ms).react .locator r) A =
          waitingFor s A := by simp [waitingFor]
      rcases sends_recv_locator hr with hnone | ⟨n, -, -, hsends⟩
      · apply h.mono [destination e m]
        · rw [hup]
          simp [inHand, hnone]
        · rw [hload]
          exact Nat.le_add_right _ _
      · apply h.keep
        · rw [hup]
          simp [inHand, hsends, destination_relay]
        · exact hload.le
  | termd slot =>
      apply h.keep
      · simp [inHand]
      · by_cases hslot : A = slot
        · subst hslot
          simp [waitingFor, hcont]
        · simp [waitingFor, hslot]

theorem fits_sent (hrun : Run (machine e c) (KeepsOut e) (State.init table) tr s)
    (h : Fits cap A s.started (waitingFor s A) (inHand e s)) {p : ProcId} {loc : Loc}
    {k : ℤ} {m : List UInt8} {rest : List (ℤ × List UInt8)} {ms : List (List UInt8)}
    (hok : Spares e cap A s (.flush p)) (hp : s.proc p = some ⟨loc, (k, m) :: rest⟩)
    (hq : s.queue k = some ms) :
    Fits cap A s.started (waitingFor ((s.setQueue k (ms ++ [m])).setProc p ⟨loc, rest⟩) A)
      (inHand e ((s.setQueue k (ms ++ [m])).setProc p ⟨loc, rest⟩)) := by
  have hout := State.outbox_of_proc hp
  have hcont := State.contents_of_queue hq
  have hmem : (k, m) ∈ s.outbox p := by simp [hout]
  cases p with
  | gateway =>
      obtain rfl : k = key .locator := outbox_gateway hrun hmem
      obtain ⟨q, hstarted, hkey⟩ := ((standing hrun).queue_iff (key .locator)).mp (by simp [hq])
      obtain rfl := key_injective hkey
      apply (hok hstarted (key .locator, m) (by simp [hout])).2.keep
      · simp [inHand, hcont]
      · simp [waitingFor]
  | locator =>
      obtain ⟨hdest, hself, -⟩ := outbox_locator hrun hmem
      apply h.mono [destination e m]
      · simp [inHand, hout, Ne.symm hself]
      · by_cases hk : key (.termd A) = k
        · simp [waitingFor, hk, hcont, hdest]
        · simp [waitingFor, hk]
  | termd slot =>
      obtain rfl : k = key .gateway := outbox_termd hrun hmem
      apply h.keep
      · simp [inHand]
      · simp [waitingFor]

/-- Locator only takes commands off what it has in hand, and gateway adds to it
by what is asked of it. -/
theorem fits_step (hrun : Run (machine e c) (KeepsOut e) (State.init table) tr s)
    (hok : Spares e cap A s a) (h : Fits cap A s.started (waitingFor s A) (inHand e s))
    (hs : (machine e c).step s a = some (s', es)) :
    Fits cap A s'.started (waitingFor s' A) (inHand e s') := by
  cases step_cases hs with
  | start hp hr => exact fits_start h hok hp hr
  | recv hp hq hr => exact fits_recv h hp hq hr
  | @idle p i loc r hp hq hr =>
      apply h.keep
      · by_cases hgw : p = .gateway
        · subst hgw
          simp [inHand]
        · simp only [inHand, outbox_idle hgw hp hr, State.contents_react]
      · simp [waitingFor]
  | @lost p loc k m rest hp hq =>
      by_cases hloc : p = .locator
      · subst hloc
        apply h.mono [destination e m]
        · simp [inHand, State.outbox_of_proc hp]
        · simp [waitingFor]
      · apply h.keep
        · simp [inHand, Ne.symm hloc]
        · simp [waitingFor]
  | sent hp hq _ => exact fits_sent hrun h hok hp hq

theorem sound_init (table : Segment) : Sound e cap A (State.init table) where
  awake := fun p _ q hq => by cases hq
  listed := fun slot hslot => by cases hslot
  zero := fun m hm => by cases hm
  fits := fun hA => by cases hA
  bounded := fun k => Nat.zero_le cap

theorem Sound.keepsOut (h : Sound e cap A s) (a : Action) : KeepsOut e s a := by
  cases a with
  | recv p env =>
      cases p with
      | locator =>
          intro m hm h0 hfound
          exact h.zero m (List.mem_of_mem_head? hm) h0 hfound.2
      | gateway => trivial
      | termd slot => trivial
  | start p env => trivial
  | idle p env => trivial
  | flush p => trivial

/-- What a run that meets the condition amounts to. -/
theorem sound_run
    (h : Run (machine e (some cap)) (Isolates e cap A) (State.init table) tr s) :
    Run (machine e (some cap)) (fun s a => KeepsOut e s a ∧ Uncongested e cap s a)
      (State.init table) tr s ∧ Sound e cap A s := by
  induction h with
  | start => exact ⟨.start, sound_init table⟩
  | @snoc tr s s' a es hrun hok hs ih =>
      obtain ⟨hkept, hsound⟩ := ih
      have hbefore := hkept.mono fun _ _ h => h.1
      refine ⟨hkept.snoc ⟨hsound.keepsOut a, hok.2⟩ hs, ?_⟩
      exact ⟨awake_step hok.1 hsound.awake hs, listed_step hsound.listed hs,
        zero_step hbefore hok.1 hsound.zero hs, fits_step hbefore hok.1 hsound.fits hs,
        bounded_step hsound.bounded hs⟩

theorem exists_command (hrun : Run (machine e c) (KeepsOut e) (State.init table) tr s)
    {m : List UInt8} (hm : m ∈ s.contents (key .locator)) : ∃ f, m = command e f := by
  have hsent : m ∈ sentTo (key .locator) tr := by
    rw [sentTo_eq_takenFrom_append hrun]
    exact List.mem_append_right _ hm
  rw [sentTo_locator hrun] at hsent
  obtain ⟨x, hx, rfl⟩ := List.mem_map.mp hsent
  have hposted := (sentBy_sublist_postedBy hrun .gateway).subset hx
  rw [postedBy_gateway hrun] at hposted
  obtain ⟨f, -, rfl⟩ := List.mem_map.mp hposted
  exact ⟨f, rfl⟩

end Runs

theorem recv_command {e : Endian} {env : Env} {table : Segment} {f : List UInt8} {n : UInt32}
    (ha : env.access = .granted) (hn : Locator.numberIn e (command e f) = some n)
    (hl : table.Listed n) :
    (program e).recv .locator env .locator table (command e f) =
      some ⟨.locator, table, [(Locator.termdKey n, Locator.relay e n (command e f))], []⟩ := by
  have hlen : (command e f).length = IpcLockRequest.size :=
    IpcLockRequest.length_image e (Gateway.forward f)
  have hhandles : Handles ipcLockRequest (command e f) := by
    refine ⟨hlen.ge.trans' (by decide), ?_⟩
    simp [command, IpcLockRequest.image, IpcHeader.image, Gateway.forward]
  have hfind : (table.find env.access n .zero).1 = true := Segment.find_fst.mpr ⟨ha, hl⟩
  refine (recv_locator e env table _).trans ?_
  rw [if_pos hhandles, Locator.onLockRequest_eq]
  simp [lift, hlen, hn, hfind]

/-! ### Steps of the others -/

/-- A step of a process other than `A` that takes in no new request. -/
def Apart (e : Endian) (cap : ℕ) (A : Slot) (s : State) (a : Action) : Prop :=
  a.proc ≠ .termd A ∧ KeepsOut e s a ∧ Uncongested e cap s a

def held (e : Endian) (s : State) (A : Slot) : ℕ :=
  waitingFor s A +
    ((s.outbox .locator).map fun x => destination e x.2).count (some (key (.termd A)))

/-- `A` has been left alone, and locator has taken no further command. -/
structure Onward (e : Endian) (cap : ℕ) (A : Slot) (s : State) (tr : List Event) (s' : State) :
    Prop where
  run : Run (machine e (some cap)) (Apart e cap A) s tr s'
  awake : ∀ p ≠ .termd A, ∀ q, s'.proc p = some q → Awake p q.loc
  started : s'.started = s.started
  shared : s'.shared = s.shared
  queue : ∃ more, s'.contents (key .locator) = s.contents (key .locator) ++ more
  held : held e s' A ≤ held e s A
  took : tookBy .locator tr = []

def Env.accepting : Env := { Env.quiet with sends := [.ret LockResponse.size] }

theorem returns_accepting (p : ProcId) : Returns p Env.accepting.sends := by
  cases p
  · exact .inl (by decide)
  · trivial
  · exact .inl (by decide)

section Ways

variable {e : Endian} {cap : ℕ} {A : Slot} {table : Segment} {s s' s'' : State}
  {tr tr' : List Event}

theorem Onward.refl (h : ∀ p ≠ .termd A, ∀ q, s.proc p = some q → Awake p q.loc) :
    Onward e cap A s [] s where
  run := .start
  awake := h
  started := rfl
  shared := rfl
  queue := ⟨[], (List.append_nil _).symm⟩
  held := le_rfl
  took := rfl

theorem Onward.trans (h : Onward e cap A s tr s') (h' : Onward e cap A s' tr' s'') :
    Onward e cap A s (tr ++ tr') s'' where
  run := h.run.trans h'.run
  awake := h'.awake
  started := h'.started.trans h.started
  shared := h'.shared.trans h.shared
  queue := by
    obtain ⟨more, hmore⟩ := h.queue
    obtain ⟨more', hmore'⟩ := h'.queue
    exact ⟨more ++ more', by rw [hmore', hmore, List.append_assoc]⟩
  held := h'.held.trans h.held
  took := by rw [tookBy_append, h.took, h'.took, List.append_nil]

theorem onward_recv (hawake : ∀ p ≠ .termd A, ∀ q, s.proc p = some q → Awake p q.loc)
    {p : ProcId} {loc : Loc} {m : List UInt8} {ms : List (List UInt8)} (hA : p ≠ .termd A)
    (hloc : p ≠ .locator) (hp : s.proc p = some ⟨loc, []⟩) (hq : s.queue (key p) = some (m :: ms)) :
    ∃ es s', Onward e cap A s es s' ∧ s'.queue (key p) = some ms ∧
      (∀ q ≠ p, s'.proc q = s.proc q) ∧ ∀ k ≠ key p, s'.queue k = s.queue k := by
  obtain ⟨r, hr⟩ := (hawake p hA _ hp).exists_recv e Env.accepting s.shared m
  have hstep : (machine e (some cap)).step s (.recv p Env.accepting) =
      some ((s.setQueue (key p) ms).react p r, .took p m :: r.events p) := by
    simp [machine, Program.machine, Program.step, hp, hq, hr]
  have hok : Apart e cap A s (.recv p Env.accepting) := by
    refine ⟨hA, ?_, trivial⟩
    cases p with
    | locator => exact absurd rfl hloc
    | gateway => trivial
    | termd slot => trivial
  refine ⟨_, _, ⟨Run.start.snoc hok hstep, fun p' hp' q hq' => ?_, rfl, ?_, ⟨[], ?_⟩, ?_, ?_⟩,
    ?_, fun q hqp => ?_, fun k hk => ?_⟩
  · rw [State.proc_react, State.proc_setQueue] at hq'
    split at hq'
    · next heq =>
        obtain rfl := Option.some.inj hq'
        exact heq ▸ awake_recv (returns_accepting p) hr
    · exact hawake p' hp' q hq'
  · exact shared_recv hr
  · simp [Ne.symm hloc]
  · simp [held, waitingFor, Ne.symm hloc, Ne.symm hA]
  · simp [Event.tookBy?, hloc]
  · simp
  · simp [hqp]
  · simp [hk]

theorem awake_unload (hawake : ∀ p ≠ .termd A, ∀ q, s.proc p = some q → Awake p q.loc)
    {p : ProcId} {loc : Loc} {out : List (ℤ × List UInt8)} (hp : s.proc p = some ⟨loc, out⟩)
    (rest : List (ℤ × List UInt8))
    (hs' : ∀ q, s'.proc q = if q = p then some ⟨loc, rest⟩ else s.proc q) :
    ∀ p' ≠ .termd A, ∀ q, s'.proc p' = some q → Awake p' q.loc := by
  intro p' hp' q hq'
  rw [hs'] at hq'
  split at hq'
  · next heq =>
      obtain rfl := Option.some.inj hq'
      exact heq ▸ hawake p (heq ▸ hp') ⟨loc, out⟩ hp
  · exact hawake p' hp' q hq'

theorem onward_flush (hawake : ∀ p ≠ .termd A, ∀ q, s.proc p = some q → Awake p q.loc)
    {p : ProcId} {loc : Loc} {k : ℤ} {m : List UInt8} {rest : List (ℤ × List UInt8)}
    (hA : p ≠ .termd A) (hloc : p ≠ .locator) (hk : k ≠ key (.termd A))
    (hp : s.proc p = some ⟨loc, (k, m) :: rest⟩) (hroom : ∀ ms ∈ s.queue k, ms.length < cap) :
    ∃ es s', Onward e cap A s es s' ∧ s'.proc p = some ⟨loc, rest⟩ ∧
      (∀ q ≠ p, s'.proc q = s.proc q) ∧ ∀ k' ≠ k, s'.queue k' = s.queue k' := by
  have hok : Apart e cap A s (.flush p) := ⟨hA, trivial, trivial⟩
  have hout := State.outbox_of_proc hp
  cases hq : s.queue k with
  | none =>
      have hstep : (machine e (some cap)).step s (.flush p) =
          some (s.setProc p ⟨loc, rest⟩, [.lost p k m]) := by
        simp [machine, Program.machine, Program.step, hp, hq]
      refine ⟨_, _, ⟨Run.start.snoc hok hstep,
        awake_unload hawake hp rest fun q => by simp, rfl, rfl, ⟨[], ?_⟩, ?_, rfl⟩,
        ?_, fun q hqp => ?_, fun k' _ => rfl⟩
      · simp
      · simp [held, waitingFor, Ne.symm hloc]
      · simp
      · simp [hqp]
  | some ms =>
      have hstep : (machine e (some cap)).step s (.flush p) =
          some ((s.setQueue k (ms ++ [m])).setProc p ⟨loc, rest⟩, [.sent p k m]) := by
        simp [machine, Program.machine, Program.step, hp, hq, hasRoom, hroom ms hq]
      refine ⟨_, _, ⟨Run.start.snoc hok hstep,
        awake_unload hawake hp rest fun q => by simp, rfl, rfl, ?_, ?_, rfl⟩,
        ?_, fun q hqp => ?_, fun k' hk' => ?_⟩
      · by_cases heq : key .locator = k
        · exact ⟨[m], by simp [heq, State.contents_of_queue hq]⟩
        · exact ⟨[], by simp [heq]⟩
      · simp [held, waitingFor, Ne.symm hloc, Ne.symm hk]
      · simp
      · simp [hqp]
      · simp [hk']

variable (hg : Run (machine e (some cap)) (fun s a => KeepsOut e s a ∧ Uncongested e cap s a)
  (State.init table) tr s)

include hg

theorem Onward.reach (h : Onward e cap A s tr' s') :
    Run (machine e (some cap)) (fun s a => KeepsOut e s a ∧ Uncongested e cap s a)
      (State.init table) (tr ++ tr') s' :=
  hg.trans (h.run.mono fun _ _ hok => hok.2)

/-- Gateway makes room in its queue for a termd that locator waits for: first
it gets rid of its own commands, which locator's queue still takes, since the
three would be deadlocked otherwise. -/
theorem gatewayRoom (hawake : ∀ p ≠ .termd A, ∀ q, s.proc p = some q → Awake p q.loc)
    (hcap : 0 < cap) {slot : Slot} (hloc : Blocked cap s .locator (key (.termd slot)))
    (htermd : Blocked cap s (.termd slot) (key .gateway)) :
    ∃ tr' s', Onward e cap A s tr' s' ∧ s'.proc .locator = s.proc .locator ∧
      s'.proc (.termd slot) = s.proc (.termd slot) ∧
      s'.queue (key (.termd slot)) = s.queue (key (.termd slot)) ∧
      ∀ ms ∈ s'.queue (key .gateway), ms.length < cap := by
  obtain ⟨hhead, ms, (hms : s.queue (key .gateway) = some ms), hfull⟩ := htermd
  obtain ⟨p, ⟨loc, out⟩, hkey, -, hp⟩ := running hg (k := key .gateway) (by simp [hms])
  obtain rfl := key_injective hkey
  have hbounded := bounded_run hg (key .gateway)
  rw [State.contents_of_queue hms] at hbounded
  induction out generalizing tr s with
  | nil =>
      obtain ⟨m, ms, rfl⟩ := List.exists_cons_of_length_pos (hcap.trans_le hfull)
      obtain ⟨es, s', hon, hqueue, hproc, hother⟩ :=
        onward_recv (e := e) hawake (by simp) (by simp) hp hms
      refine ⟨es, s', hon, hproc _ (by simp), hproc _ (by simp), hother _ (by simp),
        fun ms' hms' => ?_⟩
      obtain rfl : ms = ms' := Option.some.inj (hqueue.symm.trans hms')
      rw [List.length_cons] at hbounded
      omega
  | cons x out ih =>
      obtain ⟨k, m⟩ := x
      obtain rfl : k = key .locator := outbox_gateway hg (x := (k, m))
        (by rw [State.outbox_of_proc hp]; exact List.mem_cons_self)
      have hroom : ∀ ms ∈ s.queue (key .locator), ms.length < cap := by
        intro ms' hms'
        by_contra hge
        have hgw : Blocked cap s .gateway (key .locator) :=
          ⟨by simp [State.outbox_of_proc hp], ms', hms', not_lt.mp hge⟩
        exact not_deadlocked hg ⟨slot, hgw, hloc, hhead, ms, hms, hfull⟩
      obtain ⟨es, s', hon, hout, hproc, hother⟩ :=
        onward_flush (e := e) hawake (by simp) (by simp) (by simp) hp hroom
      have hlocProc := hproc .locator (by simp)
      have htermdProc := hproc (.termd slot) (by simp)
      have htermdQueue := hother (key (.termd slot)) (by simp)
      have hgwQueue := hother (key .gateway) (by simp)
      have hloc' : Blocked cap s' .locator (key (.termd slot)) := by
        simpa [Blocked, State.outbox, hlocProc, htermdQueue] using hloc
      obtain ⟨tr', s'', hon', h1, h2, h3, h4⟩ := ih (hon.reach hg) hon.awake hloc'
        (by simpa [State.outbox, htermdProc] using hhead) (hgwQueue.trans hms) hout
      exact ⟨_, s'', hon.trans hon', h1.trans hlocProc, h2.trans htermdProc,
        h3.trans htermdQueue, h4⟩

theorem room (hawake : ∀ p ≠ .termd A, ∀ q, s.proc p = some q → Awake p q.loc) (hcap : 0 < cap)
    {slot : Slot} (hslot : slot ≠ A) (hloc : Blocked cap s .locator (key (.termd slot))) :
    ∃ tr' s', Onward e cap A s tr' s' ∧ s'.proc .locator = s.proc .locator ∧
      ∀ ms ∈ s'.queue (key (.termd slot)), ms.length < cap := by
  obtain ⟨hhead, ms, (hms : s.queue (key (.termd slot)) = some ms), hfull⟩ := hloc
  obtain ⟨p, ⟨loc, out⟩, hkey, -, hp⟩ := running hg (k := key (.termd slot)) (by simp [hms])
  obtain rfl := key_injective hkey
  have hbounded := bounded_run hg (key (.termd slot))
  rw [State.contents_of_queue hms] at hbounded
  have hA : ProcId.termd slot ≠ .termd A := fun h => hslot (ProcId.termd.inj h)
  induction out generalizing tr s with
  | nil =>
      obtain ⟨m, ms, rfl⟩ := List.exists_cons_of_length_pos (hcap.trans_le hfull)
      obtain ⟨es, s', hon, hqueue, hproc, -⟩ := onward_recv (e := e) hawake hA (by simp) hp hms
      refine ⟨es, s', hon, hproc _ (by simp), fun ms' hms' => ?_⟩
      obtain rfl : ms = ms' := Option.some.inj (hqueue.symm.trans hms')
      rw [List.length_cons] at hbounded
      omega
  | cons x out ih =>
      obtain ⟨k, m⟩ := x
      have hwaits : (k, m) ∈ s.outbox (.termd slot) := by
        rw [State.outbox_of_proc hp]
        exact List.mem_cons_self
      obtain rfl : k = key .gateway := outbox_termd hg hwaits
      -- before the acknowledgement leaves, gateway may have to make room for it
      obtain ⟨tr₁, s₁, hon₁, hloc₁, hproc₁, hqueue₁, hroom₁⟩ : ∃ tr₁ s₁,
          Onward e cap A s tr₁ s₁ ∧ s₁.proc .locator = s.proc .locator ∧
            s₁.proc (.termd slot) = s.proc (.termd slot) ∧
            s₁.queue (key (.termd slot)) = s.queue (key (.termd slot)) ∧
            ∀ ms ∈ s₁.queue (key .gateway), ms.length < cap := by
        by_cases hblocked : Blocked cap s (.termd slot) (key .gateway)
        · exact gatewayRoom hg hawake hcap ⟨hhead, ms, hms, hfull⟩ hblocked
        · refine ⟨[], s, .refl hawake, rfl, rfl, rfl, fun ms' hms' => ?_⟩
          by_contra hge
          exact hblocked ⟨by simp [State.outbox_of_proc hp], ms', hms', not_lt.mp hge⟩
      obtain ⟨es, s₂, hon₂, hout₂, hproc₂, hother₂⟩ := onward_flush (e := e) hon₁.awake hA
        (by simp) (by simp) (hproc₁.trans hp) hroom₁
      have hlocProc : s₂.proc .locator = s.proc .locator := (hproc₂ _ (by simp)).trans hloc₁
      have hqueue : s₂.queue (key (.termd slot)) = some ms :=
        ((hother₂ _ (by simp)).trans hqueue₁).trans hms
      have hon := hon₁.trans hon₂
      obtain ⟨tr', s', hon', hloc', hroom'⟩ := ih (hon.reach hg) hon.awake
        (by simpa [State.outbox, hlocProc] using hhead) hqueue hout₂
      exact ⟨_, s', hon.trans hon', hloc'.trans hlocProc, hroom'⟩

/-- Whoever locator's next message is for makes room for it: what is for `A`
fits into its queue, the others take from theirs. -/
theorem roomFor (hawake : ∀ p ≠ .termd A, ∀ q, s.proc p = some q → Awake p q.loc)
    (hcap : 0 < cap) (hheld : .termd A ∈ s.started → held e s A ≤ cap) {k : ℤ} {m : List UInt8}
    {rest : List (ℤ × List UInt8)} (hout : s.outbox .locator = (k, m) :: rest) :
    ∃ tr' s', Onward e cap A s tr' s' ∧ s'.proc .locator = s.proc .locator ∧
      ∀ ms ∈ s'.queue k, ms.length < cap := by
  obtain ⟨hdest, hself, hgw⟩ := outbox_locator (hg.mono fun _ _ h => h.1) (x := (k, m))
    (by rw [hout]; exact List.mem_cons_self)
  by_cases hblocked : Blocked cap s .locator k
  · obtain ⟨p, q, hkey, hstarted, -⟩ := running hg (k := k) (by
      obtain ⟨-, ms, hms, -⟩ := hblocked
      simp [Option.mem_def.mp hms])
    subst hkey
    cases p with
    | gateway => exact absurd rfl hgw
    | locator => exact absurd rfl hself
    | termd slot =>
        by_cases hslot : slot = A
        · subst hslot
          have hfull : cap ≤ waitingFor s slot := hblocked.le_length
          have hle := hheld hstarted
          simp [held, hout, hdest] at hle
          omega
        · exact room hg hawake hcap hslot hblocked
  · refine ⟨[], s, .refl hawake, rfl, ?_⟩
    intro ms hms
    by_contra hge
    exact hblocked ⟨by simp [hout], ms, hms, not_lt.mp hge⟩

theorem passOn (hawake : ∀ p ≠ .termd A, ∀ q, s.proc p = some q → Awake p q.loc) (hcap : 0 < cap)
    (hheld : .termd A ∈ s.started → held e s A ≤ cap) {loc : Loc} {k : ℤ} {m : List UInt8}
    {rest : List (ℤ × List UInt8)} (hp : s.proc .locator = some ⟨loc, (k, m) :: rest⟩) :
    ∃ tr' ev s', Onward e cap A s (tr' ++ [ev]) s' ∧ s'.proc .locator = some ⟨loc, rest⟩ ∧
      ((∃ slot, key (.termd slot) = k ∧ .termd slot ∈ s.started) → ev = .sent .locator k m) := by
  have hout := State.outbox_of_proc hp
  obtain ⟨hdest, hself, hgw⟩ := outbox_locator (hg.mono fun _ _ h => h.1) (x := (k, m))
    (by rw [hout]; exact List.mem_cons_self)
  obtain ⟨tr₁, s₁, hon₁, hproc₁, hroom₁⟩ := roomFor hg hawake hcap hheld hout
  have hp₁ := hproc₁.trans hp
  have hout₁ := State.outbox_of_proc hp₁
  have hok : Apart e cap A s₁ (.flush .locator) := ⟨by simp [Action.proc], trivial, trivial⟩
  cases hq : s₁.queue k with
  | none =>
      have hstep : (machine e (some cap)).step s₁ (.flush .locator) =
          some (s₁.setProc .locator ⟨loc, rest⟩, [.lost .locator k m]) := by
        simp [machine, Program.machine, Program.step, hp₁, hq]
      refine ⟨tr₁, _, _, hon₁.trans ⟨Run.start.snoc hok hstep,
        awake_unload hon₁.awake hp₁ rest fun q => by simp, rfl, rfl, ⟨[], by simp⟩, ?_, rfl⟩,
        by simp, ?_⟩
      · simp only [held, State.outbox_setProc, if_true, hout₁, List.map_cons, List.count_cons]
        simp only [waitingFor, State.contents_setProc]
        omega
      · rintro ⟨slot, rfl, hstarted⟩
        have hst := standing (hon₁.reach hg)
        exact absurd hq ((hst.queue_iff _).mpr ⟨.termd slot, hon₁.started ▸ hstarted, rfl⟩)
  | some ms =>
      have hstep : (machine e (some cap)).step s₁ (.flush .locator) =
          some ((s₁.setQueue k (ms ++ [m])).setProc .locator ⟨loc, rest⟩,
            [.sent .locator k m]) := by
        simp [machine, Program.machine, Program.step, hp₁, hq, hasRoom, hroom₁ ms hq]
      refine ⟨tr₁, _, _, hon₁.trans ⟨Run.start.snoc hok hstep,
        awake_unload hon₁.awake hp₁ rest fun q => by simp, rfl, rfl,
        ⟨[], by simp [Ne.symm hself]⟩, ?_, rfl⟩, by simp, fun _ => rfl⟩
      by_cases hk : key (.termd A) = k
      · simp [held, waitingFor, hout₁, hk, State.contents_of_queue hq, hdest]
        omega
      · simp [held, waitingFor, hout₁, hk, List.count_cons]

theorem passOnAll (hawake : ∀ p ≠ .termd A, ∀ q, s.proc p = some q → Awake p q.loc)
    (hcap : 0 < cap) (hheld : .termd A ∈ s.started → held e s A ≤ cap) {loc : Loc}
    {out : List (ℤ × List UInt8)} (hp : s.proc .locator = some ⟨loc, out⟩) :
    ∃ tr' s', Onward e cap A s tr' s' ∧ s'.proc .locator = some ⟨loc, []⟩ := by
  induction out generalizing tr s with
  | nil => exact ⟨[], s, .refl hawake, hp⟩
  | cons x rest ih =>
      obtain ⟨tr₁, ev, s₁, hon₁, hp₁, -⟩ := passOn hg hawake hcap hheld hp
      obtain ⟨tr₂, s₂, hon₂, hp₂⟩ := ih (hon₁.reach hg) hon₁.awake
        (fun hA => hon₁.held.trans (hheld (hon₁.started ▸ hA))) hp₁
      exact ⟨_, s₂, hon₁.trans hon₂, hp₂⟩

omit hg in
theorem takes {loc : Loc} (hp : s.proc .locator = some ⟨loc, []⟩) {m : List UInt8}
    {ms : List (List UInt8)} (hcont : s.contents (key .locator) = m :: ms)
    (hawake : Awake .locator loc) (hzero : Locator.numberIn e m = some 0 → ¬s.shared.Listed 0) :
    ∃ r, (program e).recv .locator .quiet .locator s.shared m = some r ∧
      Apart e cap A s (.recv .locator .quiet) ∧
      (machine e (some cap)).step s (.recv .locator .quiet) =
        some ((s.setQueue (key .locator) ms).react .locator r,
          .took .locator m :: r.events .locator) := by
  cases loc with
  | gateway w => exact hawake.elim
  | termd t => exact hawake.elim
  | locator =>
      have hq : s.queue (key .locator) = some (m :: ms) := by
        cases hq : s.queue (key .locator) with
        | none => simp [State.contents, hq] at hcont
        | some ms' => rw [← hcont, State.contents_of_queue hq]
      obtain ⟨r, hr⟩ := hawake.exists_recv e .quiet s.shared m
      refine ⟨r, hr, ⟨by simp [Action.proc], fun m' hm' h0 hfound => ?_, trivial⟩, ?_⟩
      · obtain rfl : m = m' := by simpa [hcont] using hm'
        exact hzero h0 hfound.2
      · simp [machine, Program.machine, Program.step, hp, hq, hr]

omit hg in
theorem held_takes {m : List UInt8} {ms : List (List UInt8)}
    {r : Mailbox.Reaction ℤ (List UInt8) Loc Segment Note}
    (hr : (program e).recv .locator .quiet .locator s.shared m = some r) :
    held e ((s.setQueue (key .locator) ms).react .locator r) A ≤
      [destination e m].count (some (key (.termd A))) + held e s A := by
  have hload : waitingFor ((s.setQueue (key .locator) ms).react .locator r) A =
      waitingFor s A := by simp [waitingFor]
  rcases sends_recv_locator hr with hnone | ⟨n, -, -, hsends⟩
  · simp [held, hload, hnone]
    omega
  · simp only [held, hload, State.outbox_react, if_true, hsends, List.map_cons, List.map_nil,
      destination_relay]
    omega

/-- Locator sends off what it has taken before, and takes the next message. -/
theorem advance (hawake : ∀ p ≠ .termd A, ∀ q, s.proc p = some q → Awake p q.loc)
    (hcap : 0 < cap) (hheld : .termd A ∈ s.started → held e s A ≤ cap)
    {m : List UInt8} {ms : List (List UInt8)} (hcont : s.contents (key .locator) = m :: ms)
    (hzero : Locator.numberIn e m = some 0 → ¬s.shared.Listed 0) :
    ∃ tr' s' r, (program e).recv .locator .quiet .locator s.shared m = some r ∧
      Run (machine e (some cap)) (Apart e cap A) s tr' s' ∧ tookBy .locator tr' = [m] ∧
      (∀ p ≠ .termd A, ∀ q, s'.proc p = some q → Awake p q.loc) ∧ s'.started = s.started ∧
      s'.shared = s.shared ∧ (∃ more, s'.contents (key .locator) = ms ++ more) ∧
      held e s' A ≤ [destination e m].count (some (key (.termd A))) + held e s A ∧
      s'.proc .locator = some ⟨r.loc, r.sends⟩ := by
  obtain ⟨p, ⟨loc, out⟩, hp, -, hproc⟩ := running hg (k := key .locator) fun hnone => by
    simp [State.contents, hnone] at hcont
  obtain rfl := key_injective hp
  obtain ⟨tr₁, s₁, hon₁, hproc₁⟩ := passOnAll hg hawake hcap hheld hproc
  obtain ⟨more, hmore⟩ := hon₁.queue
  have hcont₁ : s₁.contents (key .locator) = m :: (ms ++ more) := by
    rw [hmore, hcont]
    rfl
  have htaken : ∃ r, _ ∧ Apart e cap A s₁ (.recv .locator .quiet) ∧ _ :=
    takes hproc₁ hcont₁ (hon₁.awake _ (by simp) _ hproc₁) (hon₁.shared ▸ hzero)
  obtain ⟨r, hr, hok, hstep⟩ := htaken
  refine ⟨_, _, r, hon₁.shared ▸ hr, hon₁.run.snoc hok hstep, ?_, ?_, hon₁.started, ?_,
    ⟨more, by simp⟩, ?_, by simp⟩
  · rw [tookBy_append, hon₁.took]
    simp [Event.tookBy?]
  · have hspares : Spares e cap A s₁ (.recv .locator .quiet) := trivial
    exact awake_step hspares hon₁.awake hstep
  · exact (shared_recv hr).trans hon₁.shared
  · have hle := hon₁.held
    have htakes : held e ((s₁.setQueue (key .locator) (ms ++ more)).react .locator r) A ≤ _ :=
      held_takes hr
    omega

/-- Locator works its way to a command, and passes the command on. -/
theorem reaches (hawake : ∀ p ≠ .termd A, ∀ q, s.proc p = some q → Awake p q.loc)
    {slot : Slot} (hslot : slot ≠ A) (hstarted : .termd slot ∈ s.started)
    {ahead behind : List (List UInt8)} {m : List UInt8} {n : UInt32}
    (hcont : s.contents (key .locator) = ahead ++ m :: behind)
    (hn : Locator.numberIn e m = some n) (hkey : Locator.termdKey n = key (.termd slot))
    (hl : s.shared.Listed n)
    (hzero : ∀ x ∈ ahead, Locator.numberIn e x = some 0 → ¬s.shared.Listed 0)
    (hheld : .termd A ∈ s.started →
      (ahead.map (destination e)).count (some (key (.termd A))) + held e s A ≤ cap) :
    ∃ tr' s', Run (machine e (some cap)) (fun _ a => a.proc ≠ .termd A) s
        (tr' ++ [.sent .locator (key (.termd slot)) (Locator.relay e n m)]) s' ∧
      tookBy .locator tr' = ahead ++ [m] := by
  have hcap : 0 < cap := by
    have hle := bounded_run hg (key .locator)
    rw [hcont, List.length_append, List.length_cons] at hle
    omega
  have hwithin : .termd A ∈ s.started → held e s A ≤ cap := fun hA => by
    have hle := hheld hA
    omega
  have hdest : destination e m = some (key (.termd slot)) := by rw [destination, hn, ← hkey]; rfl
  induction ahead generalizing tr s behind with
  | nil =>
      obtain ⟨f, rfl⟩ := exists_command (hg.mono fun _ _ h => h.1) (m := m) (by simp [hcont])
      have hzero' : Locator.numberIn e (command e f) = some 0 → ¬s.shared.Listed 0 := fun h0 => by
        obtain rfl : n = 0 := Option.some.inj (hn.symm.trans h0)
        have hself := hkey.symm.trans (termdKey_eq_locator.mpr rfl)
        simp at hself
      obtain ⟨tr₁, s₁, r, hr, hrun₁, htook₁, hawake₁, hstarted₁, -, -, hheld₁, hproc₁⟩ :=
        advance hg hawake hcap hwithin hcont hzero'
      rw [recv_command rfl hn hl, Option.some.injEq] at hr
      subst hr
      rw [hkey] at hproc₁
      have hother : [destination e (command e f)].count (some (key (.termd A))) = 0 := by
        simp [hdest, hslot]
      obtain ⟨tr₂, ev, s₂, hon₂, -, hev⟩ := passOn (hg.trans (hrun₁.mono fun _ _ h => h.2))
        hawake₁ hcap (fun hA => by have hle := hwithin (hstarted₁ ▸ hA); omega) hproc₁
      obtain rfl := hev ⟨slot, rfl, hstarted₁ ▸ hstarted⟩
      refine ⟨tr₁ ++ tr₂, s₂, ?_, ?_⟩
      · rw [List.append_assoc]
        exact (hrun₁.trans hon₂.run).mono fun _ _ h => h.1
      · have hnone : tookBy .locator tr₂ = [] := by
          have htook := hon₂.took
          rw [tookBy_append] at htook
          exact (List.append_eq_nil_iff.mp htook).1
        rw [tookBy_append, htook₁, hnone]
        rfl
  | cons x ahead ih =>
      obtain ⟨tr₁, s₁, r, -, hrun₁, htook₁, hawake₁, hstarted₁, hshared₁, ⟨more, hmore⟩, hheld₁,
        -⟩ := advance hg hawake hcap hwithin hcont (hzero x List.mem_cons_self)
      -- what has been passed on now counts as held for `A`
      have hfit : .termd A ∈ s₁.started →
          (ahead.map (destination e)).count (some (key (.termd A))) + held e s₁ A ≤ cap := by
        intro hA
        have hle := hheld (hstarted₁ ▸ hA)
        have hcons : ([destination e x] ++ ahead.map (destination e)).count
            (some (key (.termd A))) = _ := List.count_append
        rw [List.map_cons, ← List.singleton_append, hcons] at hle
        omega
      obtain ⟨tr₂, s₂, hrun₂, htook₂⟩ := ih (hg.trans (hrun₁.mono fun _ _ h => h.2)) hawake₁
        (hstarted₁ ▸ hstarted) (hmore.trans (List.append_assoc _ _ _)) (hshared₁ ▸ hl)
        (fun y hy => hshared₁ ▸ hzero y (List.mem_cons_of_mem x hy)) hfit
        (fun hA => by have hle := hfit hA; omega)
      refine ⟨tr₁ ++ tr₂, s₂, ?_, ?_⟩
      · rw [List.append_assoc]
        exact (hrun₁.mono fun _ _ h => h.1).trans hrun₂
      · rw [tookBy_append, htook₁, htook₂]
        rfl

end Ways

/-! ### One stuck termd -/

/-- Every command in locator's queue for another termd that is up can still get
to the queue of that termd while `A` takes no step: locator takes it, after
those ahead of it, and what it puts on a queue last is this command. -/
def Unobstructed (e : Endian) (cap : ℕ) (A : Slot) (s : State) : Prop :=
  ∀ slot ≠ A, .termd slot ∈ s.started → ∀ ahead m behind n,
    s.contents (key .locator) = ahead ++ m :: behind → Locator.numberIn e m = some n →
      Locator.termdKey n = key (.termd slot) →
      ∃ tr s', Run (machine e (some cap)) (fun _ a => a.proc ≠ .termd A) s
          (tr ++ [.sent .locator (key (.termd slot)) (Locator.relay e n m)]) s' ∧
        tookBy .locator tr = ahead ++ [m]

/-- As long as every command handed to locator leaves the commands ahead of it
room in the queue of `A`, a stuck `A` is in nobody's way. It is stuck between two
steps, so it does not hold the lock of the table, which locator's lookup needs. -/
theorem unobstructed {e : Endian} {cap : ℕ} {A : Slot} {table : Segment} {s : State}
    {tr : List Event}
    (h : Run (machine e (some cap)) (Isolates e cap A) (State.init table) tr s) :
    Unobstructed e cap A s := by
  obtain ⟨hg, hsound⟩ := sound_run h
  intro slot hslot hstarted ahead m behind n hcont hn hkey
  have hl : s.shared.Listed n := eq_slotNumber hkey ▸ hsound.listed slot hstarted
  have hdest : destination e m = some (key (.termd slot)) := by rw [destination, hn, ← hkey]; rfl
  refine reaches hg hsound.awake hslot hstarted hcont hn hkey hl (fun x hx => ?_) fun hA => ?_
  · exact hsound.zero x (by rw [hcont]; exact List.mem_append_left _ hx)
  · have hsplit : inHand e s = ((s.outbox .locator).map Prod.snd ++ ahead).map (destination e) ++
        some (key (.termd slot)) :: behind.map (destination e) := by
      simp [inHand, hcont, hdest]
    have hfit := hsound.fits hA slot hslot hstarted _ _ hsplit
    rw [List.map_append, List.count_append, List.map_map] at hfit
    have hheld : held e s A = waitingFor s A +
        (((s.outbox .locator).map (destination e ∘ Prod.snd))).count (some (key (.termd A))) := rfl
    omega

def slot2 : Slot := ⟨2, by decide⟩

/-- The queue of one termd is full, and a command for another one waits. -/
theorem unobstructed_one_stuck : ∃ tr s,
    Run (machine .little (some 1)) (Isolates .little 1 slot1) init tr s ∧
      waitingFor s slot1 = 1 ∧ s.contents (key .locator) = [command .little (requestFrame 1002)] ∧
      Unobstructed .little 1 slot1 s := by
  obtain ⟨tr, s, hrun, hend⟩ := (machine .little (some 1)).exists_run_of_exec
    (Isolates .little 1 slot1) init
    [.start .gateway .quiet, .start .locator .quiet, .start (.termd slot1) .quiet,
      .start (.termd slot2) .quiet,
      .idle .gateway { Env.quiet with
        accepted := some 5
        received := .data (requestFrame 1001 ++ requestFrame 1002) },
      .flush .gateway, .recv .locator .quiet, .flush .locator, .flush .gateway]
    (fun r => decide (waitingFor r.1 slot1 = 1 ∧
      r.1.contents (key .locator) = [command .little (requestFrame 1002)]))
    (by decide +kernel) (by decide +kernel)
  obtain ⟨hload, hcont⟩ := of_decide_eq_true hend
  exact ⟨tr, s, hrun, hload, hcont, unobstructed hrun⟩

/-! ### Without room -/

theorem blocked_step {e : Endian} {cap : ℕ} {A : Slot} {s s' : State} {a : Action}
    {es : List Event} (hA : a.proc ≠ .termd A) (h : Blocked cap s .locator (key (.termd A)))
    (hs : (machine e (some cap)).step s a = some (s', es)) :
    Blocked cap s' .locator (key (.termd A)) ∧ ∀ k m, .sent .locator k m ∉ es := by
  obtain ⟨hhead, ms, (hms : s.queue (key (.termd A)) = some ms), hfull⟩ := h
  -- locator has something to send and no room for it, so it is not locator's step
  cases step_cases hs with
  | @start p i r hp hr =>
      have hne : p ≠ .locator := by
        rintro rfl
        simp [State.outbox, hp] at hhead
      refine ⟨⟨by simpa [Ne.symm hne] using hhead, ms, ?_, hfull⟩, by simp [Reaction.events]⟩
      by_cases hpA : p = .termd A
      · exact absurd hpA hA
      · simp [Ne.symm hpA, hms]
  | @recv p i loc m ms' r hp hq hr =>
      have hne : p ≠ .locator := by
        rintro rfl
        simp [State.outbox, hp] at hhead
      have hpA : p ≠ .termd A := hA
      refine ⟨⟨by simpa [Ne.symm hne] using hhead, ms, ?_, hfull⟩, by simp [Reaction.events]⟩
      simp [Ne.symm hpA, hms]
  | @idle p i loc r hp hq hr =>
      have hne : p ≠ .locator := by
        rintro rfl
        simp [State.outbox, hp] at hhead
      exact ⟨⟨by simpa [Ne.symm hne] using hhead, ms, hms, hfull⟩, by simp [Reaction.events]⟩
  | @lost p loc k m rest hp hq =>
      have hne : p ≠ .locator := by
        rintro rfl
        obtain rfl : k = key (.termd A) := by simpa [State.outbox_of_proc hp] using hhead
        cases hq.symm.trans hms
      exact ⟨⟨by simpa [Ne.symm hne] using hhead, ms, hms, hfull⟩, by simp⟩
  | @sent p loc k m rest ms' hp hq hroom =>
      have hlt : ms'.length < cap := of_decide_eq_true hroom
      have hne : p ≠ .locator := by
        rintro rfl
        obtain rfl : k = key (.termd A) := by simpa [State.outbox_of_proc hp] using hhead
        obtain rfl : ms' = ms := Option.some.inj (hq.symm.trans hms)
        omega
      have hk : key (.termd A) ≠ k := by
        rintro rfl
        obtain rfl : ms' = ms := Option.some.inj (hq.symm.trans hms)
        omega
      refine ⟨⟨by simpa [Ne.symm hne] using hhead, ms, ?_, hfull⟩, by simp [Ne.symm hne]⟩
      simp [hk, hms]

theorem blocked_run {e : Endian} {cap : ℕ} {A : Slot} {s s' : State} {tr : List Event}
    (h : Blocked cap s .locator (key (.termd A)))
    (hrun : Run (machine e (some cap)) (fun _ a => a.proc ≠ .termd A) s tr s') :
    ∀ k m, .sent .locator k m ∉ tr := by
  have hboth := hrun.invariant (fun tr s' => Blocked cap s' .locator (key (.termd A)) ∧
      ∀ k m, .sent .locator k m ∉ tr) ⟨h, by simp⟩ fun tr s a s' es hI hok hs => by
    obtain ⟨hb, hes⟩ := blocked_step hok hI.1 hs
    exact ⟨hb, fun k m hmem => (List.mem_append.mp hmem).elim (hI.2 k m) (hes k m)⟩
  exact hboth.2

/-- Two commands for a terminal whose termd takes no step, over queues that
hold one message, and one behind them for another registered terminal. -/
theorem obstructed_by_two_requests : ∃ tr s,
    Run (machine .little (some 1)) Always init tr s ∧ s.shared.Listed 1002 ∧
      .termd slot2 ∈ s.started ∧ ¬Unobstructed .little 1 slot1 s := by
  obtain ⟨tr, s, hrun, hend⟩ := (machine .little (some 1)).exists_run_of_exec Always init
    [.start .gateway .quiet, .start .locator .quiet, .start (.termd slot1) .quiet,
      .start (.termd slot2) .quiet,
      .idle .gateway { Env.quiet with
        accepted := some 5
        received := .data (requestFrame 1001 ++ requestFrame 1001 ++ requestFrame 1002) },
      .flush .gateway, .recv .locator .quiet, .flush .locator,
      .flush .gateway, .recv .locator .quiet, .flush .gateway]
    (fun r => decide (r.1.shared.Listed 1002 ∧ .termd slot2 ∈ r.1.started ∧
      r.1.contents (key .locator) = [command .little (requestFrame 1002)] ∧
      Blocked 1 r.1 .locator (key (.termd slot1)))) (by decide +kernel) (by decide +kernel)
  obtain ⟨hlisted, hstarted, hcont, hblocked⟩ := of_decide_eq_true hend
  refine ⟨tr, s, hrun, hlisted, hstarted, fun h => ?_⟩
  obtain ⟨tr', s', hrun', -⟩ := h slot2 (by decide) hstarted [] _ [] 1002 hcont
    (by decide +kernel) (by decide +kernel)
  exact blocked_run hblocked hrun' _ _ (List.mem_append_right _ List.mem_cons_self)

end Fleetcore.System
