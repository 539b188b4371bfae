import TinyCPlus.Library.Transitions

/-!
# The condition variable of the Windows build (`concurrent.c`)

A waiter registers under the lock of the condition variable, releases the
mutex and waits for a counting semaphore; a signal takes one waiter off the
count and releases the semaphore once.  The clock, the times of registration
and issue and the list of releases only keep track of what happens.
-/

namespace TinyCPlus.Runtime

open TinyCPlus.Library

/-- A thread that passed the semaphore: when it registered, when the wake-up it
took was issued, and whether a thread that registered before the wake-up was
issued is left waiting. -/
structure Release (τ : Type*) where
  thread : τ
  registered : ℕ
  issued : ℕ
  overtakes : Bool

structure TcCond (τ : Type*) where
  semaphore : ℕ
  waiters : ℕ
  clock : ℕ
  blocked : Multiset (τ × ℕ)
  wakeups : Multiset ℕ
  releases : List (Release τ)

inductive CondEvent (τ : Type*) where
  | register (t : τ)
  | signal
  | broadcast
  | pass (t : τ) (registered issued : ℕ)

namespace TcCond

variable {τ : Type*}

/-- `cond_init` -/
def init : TcCond τ := ⟨0, 0, 0, 0, 0, []⟩

/-- The section of `cond_wait` under `c->lock`. -/
def register (c : TcCond τ) (t : τ) : TcCond τ :=
  { c with
    waiters := c.waiters + 1
    blocked := (t, c.clock) ::ₘ c.blocked
    clock := c.clock + 1 }

/-- `cond_signal` -/
def signal (c : TcCond τ) : TcCond τ :=
  if c.waiters ≠ 0 then
    { c with
      waiters := c.waiters - 1
      semaphore := c.semaphore + 1
      wakeups := c.clock ::ₘ c.wakeups
      clock := c.clock + 1 }
  else c

/-- `cond_broadcast` -/
def broadcast (c : TcCond τ) : TcCond τ :=
  if c.waiters ≠ 0 then
    { c with
      waiters := 0
      semaphore := c.semaphore + c.waiters
      wakeups := Multiset.replicate c.waiters c.clock + c.wakeups
      clock := c.clock + 1 }
  else c

variable [DecidableEq τ]

/-- `WaitForSingleObject` returns: the thread takes one of the wake-ups. -/
def pass (c : TcCond τ) (t : τ) (registered issued : ℕ) : Option (TcCond τ) :=
  if c.semaphore ≠ 0 ∧ (t, registered) ∈ c.blocked ∧ issued ∈ c.wakeups then
    let blocked := c.blocked.erase (t, registered)
    some
      { c with
        semaphore := c.semaphore - 1
        blocked := blocked
        wakeups := c.wakeups.erase issued
        releases := ⟨t, registered, issued, blocked.countP (·.2 < issued) != 0⟩ :: c.releases }
  else none

def transitions (τ : Type*) [DecidableEq τ] : Transitions (TcCond τ) (CondEvent τ) where
  step c
    | .register t => if ∀ p ∈ c.blocked, p.1 ≠ t then some (c.register t) else none
    | .signal => some c.signal
    | .broadcast => some c.broadcast
    | .pass t registered issued => c.pass t registered issued

/-- Every wake-up released a thread that had registered before it was issued,
and none that registered later took it from an earlier waiter. -/
def Faithful (c : TcCond τ) : Prop :=
  ∀ r ∈ c.releases, r.registered < r.issued ∧ ¬ (r.issued < r.registered ∧ r.overtakes = true)

/-! ## Invariants -/

/-- The bookkeeping: the wake-ups are the tokens of the semaphore, every
registration and every wake-up lies in the past, and the blocked threads are
the waiters and those whose token is still there. -/
structure CondInv (c : TcCond τ) : Prop where
  wakeups_card : c.wakeups.card = c.semaphore
  blocked_card : c.blocked.card = c.waiters + c.semaphore
  blocked_lt : ∀ p ∈ c.blocked, p.2 < c.clock
  wakeups_lt : ∀ i ∈ c.wakeups, i < c.clock

omit [DecidableEq τ] in
theorem condInv_init : CondInv (init : TcCond τ) :=
  ⟨rfl, rfl, fun p hp ↦ absurd hp (Multiset.notMem_zero p),
    fun i hi ↦ absurd hi (Multiset.notMem_zero i)⟩

omit [DecidableEq τ] in
theorem CondInv.register {c : TcCond τ} (hc : CondInv c) (t : τ) : CondInv (c.register t) := by
  refine ⟨hc.wakeups_card, ?_, fun p hp ↦ ?_, fun i hi ↦ (hc.wakeups_lt i hi).trans_le
    (Nat.le_succ _)⟩
  · rw [TcCond.register, Multiset.card_cons, hc.blocked_card]
    exact Nat.add_right_comm _ _ _
  · rcases Multiset.mem_cons.mp hp with rfl | hp
    · exact Nat.lt_succ_self _
    · exact (hc.blocked_lt p hp).trans (Nat.lt_succ_self _)

omit [DecidableEq τ] in
theorem CondInv.signal {c : TcCond τ} (hc : CondInv c) : CondInv c.signal := by
  rw [TcCond.signal]
  split
  · rename_i hne
    refine ⟨?_, ?_, fun p hp ↦ (hc.blocked_lt p hp).trans (Nat.lt_succ_self _), fun i hi ↦ ?_⟩
    · rw [Multiset.card_cons, hc.wakeups_card]
    · have hcard := hc.blocked_card
      dsimp only
      omega
    · rcases Multiset.mem_cons.mp hi with rfl | hi
      · exact Nat.lt_succ_self _
      · exact (hc.wakeups_lt i hi).trans (Nat.lt_succ_self _)
  · exact hc

omit [DecidableEq τ] in
theorem CondInv.broadcast {c : TcCond τ} (hc : CondInv c) : CondInv c.broadcast := by
  rw [TcCond.broadcast]
  split
  · refine ⟨?_, ?_, fun p hp ↦ (hc.blocked_lt p hp).trans (Nat.lt_succ_self _), fun i hi ↦ ?_⟩
    · rw [Multiset.card_add, Multiset.card_replicate, hc.wakeups_card, Nat.add_comm]
    · have hcard := hc.blocked_card
      dsimp only
      omega
    · rcases Multiset.mem_add.mp hi with hi | hi
      · rw [Multiset.eq_of_mem_replicate hi]
        exact Nat.lt_succ_self _
      · exact (hc.wakeups_lt i hi).trans (Nat.lt_succ_self _)
  · exact hc

theorem pass_eq_some {c c' : TcCond τ} {t : τ} {registered issued : ℕ}
    (h : c.pass t registered issued = some c') :
    c.semaphore ≠ 0 ∧ (t, registered) ∈ c.blocked ∧ issued ∈ c.wakeups ∧
      c' = { c with
        semaphore := c.semaphore - 1
        blocked := c.blocked.erase (t, registered)
        wakeups := c.wakeups.erase issued
        releases := ⟨t, registered, issued,
          (c.blocked.erase (t, registered)).countP (·.2 < issued) != 0⟩ :: c.releases } := by
  rw [pass, Option.ite_none_right_eq_some] at h
  exact ⟨h.1.1, h.1.2.1, h.1.2.2, (Option.some.inj h.2).symm⟩

theorem CondInv.pass {c c' : TcCond τ} (hc : CondInv c) {t : τ} {registered issued : ℕ}
    (h : c.pass t registered issued = some c') : CondInv c' := by
  obtain ⟨hne, hblocked, hissued, rfl⟩ := pass_eq_some h
  refine ⟨?_, ?_, fun p hp ↦ hc.blocked_lt p (Multiset.mem_of_mem_erase hp),
    fun i hi ↦ hc.wakeups_lt i (Multiset.mem_of_mem_erase hi)⟩
  · rw [Multiset.card_erase_of_mem hissued, hc.wakeups_card]
    rfl
  · have hcard := hc.blocked_card
    rw [Multiset.card_erase_of_mem hblocked, hcard, Nat.pred_eq_sub_one]
    dsimp only
    omega

theorem CondInv.step {c c' : TcCond τ} {e : CondEvent τ} (hc : CondInv c)
    (h : (transitions τ).step c e = some c') : CondInv c' := by
  cases e with
  | register t =>
      obtain ⟨-, ⟨⟩⟩ := Option.ite_none_right_eq_some.mp h
      exact hc.register t
  | signal =>
      cases h
      exact hc.signal
  | broadcast =>
      cases h
      exact hc.broadcast
  | pass t registered issued => exact hc.pass h

/-! ## Runs in which nobody registers while a wake-up is on its way -/

/-- A thread registers only when every wake-up has been taken. -/
def Quiet (c : TcCond τ) : CondEvent τ → Prop
  | .register _ => c.semaphore = 0
  | _ => True

instance (c : TcCond τ) (e : CondEvent τ) : Decidable (c.Quiet e) :=
  match e with
  | .register _ => inferInstanceAs (Decidable (c.semaphore = 0))
  | .signal | .broadcast | .pass _ _ _ => inferInstanceAs (Decidable True)

/-- Every blocked thread registered before every wake-up on its way. -/
structure QuietInv (c : TcCond τ) : Prop where
  book : CondInv c
  order : ∀ p ∈ c.blocked, ∀ i ∈ c.wakeups, p.2 < i
  faithful : c.Faithful

theorem QuietInv.step {c c' : TcCond τ} {e : CondEvent τ} (hc : QuietInv c)
    (h : ((transitions τ).restrict Quiet).step c e = some c') : QuietInv c' := by
  obtain ⟨hquiet, h⟩ := Transitions.restrict_step_eq_some.mp h
  obtain ⟨hbook, horder, hfaithful⟩ := hc
  refine ⟨hbook.step h, ?_, ?_⟩
  · cases e with
    | register t =>
        obtain ⟨-, ⟨⟩⟩ := Option.ite_none_right_eq_some.mp h
        have hnone : c.wakeups = 0 := by
          rw [← Multiset.card_eq_zero, hbook.wakeups_card]
          exact hquiet
        intro p _ i hi
        rw [TcCond.register, hnone] at hi
        exact absurd hi (Multiset.notMem_zero i)
    | signal =>
        cases h
        rw [TcCond.signal]
        split
        · intro p hp i hi
          rcases Multiset.mem_cons.mp hi with rfl | hi
          · exact hbook.blocked_lt p hp
          · exact horder p hp i hi
        · exact horder
    | broadcast =>
        cases h
        rw [TcCond.broadcast]
        split
        · intro p hp i hi
          rcases Multiset.mem_add.mp hi with hi | hi
          · rw [Multiset.eq_of_mem_replicate hi]
            exact hbook.blocked_lt p hp
          · exact horder p hp i hi
        · exact horder
    | pass t registered issued =>
        obtain ⟨-, -, -, rfl⟩ := pass_eq_some h
        exact fun p hp i hi ↦
          horder p (Multiset.mem_of_mem_erase hp) i (Multiset.mem_of_mem_erase hi)
  · cases e with
    | register t =>
        obtain ⟨-, ⟨⟩⟩ := Option.ite_none_right_eq_some.mp h
        exact hfaithful
    | signal =>
        cases h
        rw [TcCond.signal]
        split <;> exact hfaithful
    | broadcast =>
        cases h
        rw [TcCond.broadcast]
        split <;> exact hfaithful
    | pass t registered issued =>
        obtain ⟨-, hblocked, hissued, rfl⟩ := pass_eq_some h
        have hlt := horder _ hblocked _ hissued
        intro r hr
        rcases List.mem_cons.mp hr with rfl | hr
        · exact ⟨hlt, fun hlate ↦ absurd hlate.1 (not_lt_of_gt hlt)⟩
        · exact hfaithful r hr

omit [DecidableEq τ] in
theorem quietInv_init : QuietInv (init : TcCond τ) :=
  ⟨condInv_init, fun p hp ↦ absurd hp (Multiset.notMem_zero p), fun r hr ↦ by cases hr⟩

/-- A thread that registers while a wake-up is on its way can take it. -/
theorem unfaithful_of_register {c : TcCond τ} (hc : CondInv c) (hne : c.semaphore ≠ 0) {t : τ}
    (ht : ∀ p ∈ c.blocked, p.1 ≠ t) :
    ∃ c', (transitions τ).step c (.register t) = some c' ∧ c'.wakeups ≠ 0 ∧
      ∀ i ∈ c'.wakeups, ∃ c'', (transitions τ).step c' (.pass t c.clock i) = some c'' ∧
        ¬ c''.Faithful := by
  refine ⟨c.register t, if_pos ht, ?_, fun i hi ↦ ?_⟩
  · show c.wakeups ≠ 0
    rw [← Multiset.card_pos, hc.wakeups_card]
    omega
  · have hold : i ∈ c.wakeups := hi
    refine ⟨_, if_pos ⟨hne, Multiset.mem_cons_self _ _, hi⟩, fun hfaithful ↦ ?_⟩
    have hlt : c.clock < i := (hfaithful _ List.mem_cons_self).1
    exact absurd (hc.wakeups_lt i hold) (not_lt_of_gt hlt)

/-! ## The law of condition variables -/

/-- In every run in which threads register only when every wake-up has been
taken, the wake-ups release threads that had registered; and from every state
with a wake-up on its way, a thread that registers can take it. -/
theorem cond_faithful_of_quiet :
    (∀ (events : List (CondEvent τ)) (c : TcCond τ),
        ((transitions τ).restrict Quiet).run init events = some c → c.Faithful) ∧
      ∀ (events : List (CondEvent τ)) (c : TcCond τ) (t : τ),
        (transitions τ).run init events = some c → c.semaphore ≠ 0 →
        (∀ p ∈ c.blocked, p.1 ≠ t) →
        ∃ c', (transitions τ).step c (.register t) = some c' ∧ c'.wakeups ≠ 0 ∧
          ∀ i ∈ c'.wakeups, ∃ c'', (transitions τ).step c' (.pass t c.clock i) = some c'' ∧
            ¬ c''.Faithful :=
  ⟨fun _ _ hrun ↦ (Transitions.run_invariant QuietInv.step quietInv_init hrun).faithful,
    fun _ _ _ hrun hne ht ↦ unfaithful_of_register
      (Transitions.run_invariant CondInv.step condInv_init hrun) hne ht⟩

/-- The second thread registers after the signal and takes the wake-up of the
first, which stays blocked. -/
theorem cond_late_waiter :
    ¬ ∀ (events : List (CondEvent ℕ)) (c : TcCond ℕ),
      (transitions ℕ).run init events = some c → c.Faithful := by
  intro hall
  have hrun : ((transitions ℕ).run init
      [.register 0, .signal, .register 1, .pass 1 2 1]).isSome = true := by decide +kernel
  obtain ⟨c, hc⟩ := Option.isSome_iff_exists.mp hrun
  have hreleases : ((transitions ℕ).run init
      [.register 0, .signal, .register 1, .pass 1 2 1]).map
        (fun c ↦ c.releases.map fun r ↦ (r.registered, r.issued)) = some [(2, 1)] := by
    decide +kernel
  rw [hc, Option.map_some, Option.some_inj] at hreleases
  obtain ⟨r, hr, hpair⟩ : ∃ r ∈ c.releases, (r.registered, r.issued) = (2, 1) := by
    rw [← List.mem_map, hreleases]
    exact List.mem_singleton.mpr rfl
  obtain ⟨hregistered, hissued⟩ := Prod.mk.inj hpair
  have hlt := (hall _ c hc r hr).1
  rw [hregistered, hissued] at hlt
  exact absurd hlt (by decide)

end TcCond

end TinyCPlus.Runtime
