import TinyCPlus.Library.Tally
import TinyCPlus.Runtime.PoolLedger

/-!
# Pools lose no job

Every job that was accepted runs once, also when the pool is destroyed, and
`tc_pool_destroy` returns when all of them have finished.
-/

namespace TinyCPlus.Runtime

open TinyCPlus.Library

variable {J : Type*}

namespace WorkerState

/-- The job that a worker has dequeued and not started. -/
def taken : WorkerState J → Multiset (ℕ × Submission J)
  | .took job x => {(job, x)}
  | .ready | .waiting | .running _ _ | .exited => 0

/-- The job that a worker runs. -/
def active : WorkerState J → Multiset (ℕ × Submission J)
  | .running job x => {(job, x)}
  | .ready | .waiting | .took _ _ | .exited => 0

def asleep (w : ℕ) : WorkerState J → Multiset ℕ
  | .waiting => {w}
  | .ready | .took _ _ | .running _ _ | .exited => 0

end WorkerState

/-- How many of `n` workers have been joined. -/
def DestroyState.joined (n : ℕ) : DestroyState → ℕ
  | .idle => 0
  | .joining i => i
  | .returned => n

namespace PoolSystem

def taken (s : PoolSystem J) : Multiset (ℕ × Submission J) :=
  tally s.pool.workers (fun _ ↦ WorkerState.taken) s.worker

def active (s : PoolSystem J) : Multiset (ℕ × Submission J) :=
  tally s.pool.workers (fun _ ↦ WorkerState.active) s.worker

def asleep (s : PoolSystem J) : Multiset ℕ :=
  tally s.pool.workers WorkerState.asleep s.worker

end PoolSystem

/-- The state of a pool whose queue consists of the cells `q`.  The workers
`inside` have been woken and hold the lock. -/
structure PoolInv (s : PoolSystem J) (q : List (ℕ × Submission J)) (inside : Multiset ℕ) :
    Prop where
  workers_pos : 0 < s.pool.workers
  ledger : Ledger s.pool.queue q s.taken s.active s.calls s.history
  asleep : inside + (s.pool.available.waiting + s.pool.available.woken) = s.asleep
  covers : s.pool.available.Covers (q.length - inside.card)
  awake : s.pool.stopping = true → s.pool.available.waiting = 0
  exited : ∀ w < s.pool.workers, s.worker w = .exited → s.pool.stopping = true ∧ q = []
  joined : ∀ w < s.pool.workers, w < s.destroyer.joined s.pool.workers → s.worker w = .exited
  stopped : s.destroyer ≠ .idle → s.pool.stopping = true
  fault_eq : s.fault = false

namespace PoolInv

theorem create {workers : ℤ} {s : PoolSystem J} (h : PoolSystem.create workers = some s) :
    PoolInv s [] 0 := by
  rw [PoolSystem.create, Option.ite_none_left_eq_some, Option.some_inj] at h
  obtain ⟨hrange, rfl⟩ := h
  have htaken : tally workers.toNat (fun _ ↦ WorkerState.taken)
      (fun _ ↦ (.ready : WorkerState J)) = 0 := tally_eq_zero fun _ _ ↦ rfl
  have hactive : tally workers.toNat (fun _ ↦ WorkerState.active)
      (fun _ ↦ (.ready : WorkerState J)) = 0 := tally_eq_zero fun _ _ ↦ rfl
  have hasleep : tally workers.toNat WorkerState.asleep
      (fun _ ↦ (.ready : WorkerState J)) = 0 := tally_eq_zero fun _ _ ↦ rfl
  refine ⟨by dsimp only; omega, ?_, hasleep.symm, CondVar.covers_zero _,
    fun _ ↦ rfl, fun w _ hw ↦ (by cases hw), fun w _ hw ↦ absurd hw (Nat.not_lt_zero w),
    fun hidle ↦ absurd rfl hidle, rfl⟩
  rw [PoolSystem.taken, PoolSystem.active]
  dsimp only
  rw [htaken, hactive]
  exact Ledger.empty

variable {s : PoolSystem J} {q : List (ℕ × Submission J)} {inside : Multiset ℕ}

theorem refuse (h : PoolInv s q inside) (code : ℕ) : PoolInv (s.refuse code) q inside :=
  ⟨h.workers_pos, h.ledger.refuse code, h.asleep, h.covers, h.awake, h.exited, h.joined,
    h.stopped, h.fault_eq⟩

theorem submit (h : PoolInv s q 0) {address : Option ℕ} {action : Option J}
    {chosen : Multiset ℕ} {s' : PoolSystem J}
    (hsubmit : s.submit address action chosen = some s') : ∃ q', PoolInv s' q' 0 := by
  rw [PoolSystem.submit.eq_def] at hsubmit
  split at hsubmit
  · cases hsubmit
    exact ⟨q, h.refuse 1⟩
  · cases hsubmit
    exact ⟨q, h.refuse 2⟩
  · rename_i action job
    rw [Option.ite_none_left_eq_some] at hsubmit
    obtain ⟨hfresh, hsubmit⟩ := hsubmit
    rw [Bool.not_eq_true, Option.isSome_eq_false_iff, Option.isNone_iff_eq_none] at hfresh
    split at hsubmit
    · cases hsubmit
      exact ⟨q, h.refuse 3⟩
    · rename_i hopen
      obtain ⟨queue, henqueue, hledger⟩ := h.ledger.submit hfresh action
      rw [henqueue] at hsubmit
      obtain ⟨available, hsignal, rfl⟩ := Option.map_eq_some_iff.mp hsubmit
      refine ⟨_, h.workers_pos, hledger,
        (congrArg _ (CondVar.signal_total hsignal)).trans h.asleep, ?_,
        fun hstop ↦ absurd hstop hopen,
        fun w hw hexit ↦ absurd (h.exited w hw hexit).1 hopen, h.joined, h.stopped, h.fault_eq⟩
      rw [List.length_append]
      exact h.covers.signal hsignal

/-! ## The workers -/

/-- Workers that have left the loop are not affected by the others. -/
theorem exited_setWorker {w v : ℕ} {y : WorkerState J} (hw : s.worker w ≠ .exited)
    (hv : s.worker v = .exited) : (s.setWorker w y).worker v = .exited := by
  have hne : v ≠ w := by
    rintro rfl
    exact hw hv
  exact (Function.update_of_ne hne y s.worker).trans hv

/-- A worker that does not leave the loop. -/
theorem exited_of_setWorker {w v : ℕ} {y : WorkerState J} (hy : y ≠ .exited)
    (hv : (s.setWorker w y).worker v = .exited) : s.worker v = .exited := by
  rw [PoolSystem.setWorker] at hv
  dsimp only at hv
  rcases eq_or_ne v w with rfl | hne
  · rw [Function.update_self] at hv
    exact absurd hv hy
  · rwa [Function.update_of_ne hne] at hv

/-- The section of the loop of `pool_worker`, for a worker that has the lock. -/
theorem poolWorker {w : ℕ} (h : PoolInv s q ((s.worker w).asleep w)) (hw : w < s.pool.workers)
    (hstate : s.worker w = .ready ∨ s.worker w = .waiting) :
    ∃ q', PoolInv (s.poolWorker w) q' 0 := by
  have htaken : (s.worker w).taken = 0 := by rcases hstate with h | h <;> rw [h] <;> rfl
  have hactive : (s.worker w).active = 0 := by rcases hstate with h | h <;> rw [h] <;> rfl
  have hne : s.worker w ≠ .exited := by rcases hstate with h | h <;> rw [h] <;> nofun
  have hasleep (y : WorkerState J) : (s.setWorker w y).asleep =
      y.asleep w + (s.pool.available.waiting + s.pool.available.woken) := by
    have hupdate : (s.worker w).asleep w + (s.setWorker w y).asleep = y.asleep w + s.asleep :=
      tally_update hw
    rw [← h.asleep, add_left_comm] at hupdate
    exact add_left_cancel hupdate
  have hledger {y : WorkerState J} (hy : y.taken = 0 ∧ y.active = 0) :
      Ledger s.pool.queue q (s.setWorker w y).taken (s.setWorker w y).active s.calls
        s.history := by
    have htally : (s.setWorker w y).taken = s.taken := tally_same hw (htaken.trans hy.1.symm)
    have htally' : (s.setWorker w y).active = s.active := tally_same hw (hactive.trans hy.2.symm)
    rw [htally, htally']
    exact h.ledger
  have hjoined (y : WorkerState J) :
      ∀ v < s.pool.workers, v < s.destroyer.joined s.pool.workers →
        (s.setWorker w y).worker v = .exited :=
    fun v hv hlt ↦ exited_setWorker hne (h.joined v hv hlt)
  rw [PoolSystem.poolWorker]
  split
  · rename_i hwait
    obtain rfl : q = [] := h.ledger.holds.head_eq_none_iff.mp hwait.1
    refine ⟨[], h.workers_pos, hledger ⟨rfl, rfl⟩, ?_, CondVar.covers_zero _, fun hstop ↦ ?_,
      fun v hv hexit ↦ h.exited v hv (exited_of_setWorker (by nofun) hexit), hjoined _,
      h.stopped, h.fault_eq⟩
    · refine Eq.trans ?_ (hasleep .waiting).symm
      dsimp only [PoolSystem.setWorker, WorkerState.asleep, CondVar.wait]
      rw [zero_add, Multiset.cons_add, Multiset.singleton_add]
    · exact absurd (hwait.2.symm.trans hstop) Bool.false_ne_true
  · rename_i hgo
    split
    · rename_i hhead
      obtain rfl : q = [] := h.ledger.holds.head_eq_none_iff.mp hhead
      have hstop : s.pool.stopping = true := by
        rw [← Bool.not_eq_false]
        exact fun hopen ↦ hgo ⟨hhead, hopen⟩
      exact ⟨[], h.workers_pos, (hledger ⟨rfl, rfl⟩).leave w,
        (zero_add _).trans ((zero_add _).symm.trans (hasleep .exited).symm),
        CondVar.covers_zero _, h.awake, fun v hv _ ↦ ⟨hstop, rfl⟩, hjoined _, h.stopped,
        h.fault_eq⟩
    · rename_i hhead
      obtain ⟨e, q, rfl⟩ := List.exists_cons_of_ne_nil
        fun hnil ↦ hhead (h.ledger.holds.head_eq_none_iff.mpr hnil)
      obtain ⟨queue, hdequeue, htake⟩ := h.ledger.take
      rw [hdequeue]
      refine ⟨q, h.workers_pos, ?_, (zero_add _).trans ((zero_add _).symm.trans
        (hasleep (.took e.1 e.2)).symm), h.covers.mono ?_, h.awake, fun v hv hexit ↦ ?_,
        hjoined _, h.stopped, h.fault_eq⟩
      · have htally : (s.setWorker w (.took e.1 e.2)).taken = e ::ₘ s.taken :=
          (tally_gain hw htaken).trans (Multiset.singleton_add _ _)
        have htally' : (s.setWorker w (.took e.1 e.2)).active = s.active := tally_same hw hactive
        rw [← htally, ← htally'] at htake
        exact htake
      · have hcard : ((s.worker w).asleep w).card ≤ 1 := by
          rcases hstate with h | h <;> rw [h] <;> simp [WorkerState.asleep]
        rw [List.length_cons, Multiset.card_zero]
        omega
      · have hnil := (h.exited v hv (exited_of_setWorker (by nofun) hexit)).2
        cases hnil

theorem runJob (h : PoolInv s q 0) {w job : ℕ} {x : Submission J} (hw : w < s.pool.workers)
    (hstate : s.worker w = .took job x) : PoolInv (s.runJob w job) q 0 := by
  have hlose (y : WorkerState J) (hy : y.taken = 0) :
      s.taken = (job, x) ::ₘ (s.setWorker w y).taken := by
    have hsplit : s.taken = (s.worker w).taken + (s.setWorker w y).taken := tally_lose hw hy
    rwa [hstate, WorkerState.taken, Multiset.singleton_add] at hsplit
  have hgain : (s.setWorker w (.running job x)).active = (job, x) ::ₘ s.active :=
    (tally_gain hw (by rw [hstate]; rfl)).trans (Multiset.singleton_add _ _)
  have hledger := h.ledger
  rw [hlose (.running job x) rfl] at hledger
  obtain ⟨next, hcell⟩ := hledger.allocated (job, x)
    (Multiset.mem_add.mpr (.inl (Multiset.mem_cons_self _ _)))
  have hne : s.worker w ≠ .exited := by rw [hstate]; nofun
  rw [PoolSystem.runJob, hcell]
  refine ⟨h.workers_pos, ?_, h.asleep.trans (tally_same hw (by rw [hstate]; rfl)).symm, h.covers,
    h.awake, fun v hv hexit ↦ h.exited v hv (exited_of_setWorker (by nofun) hexit),
    fun v hv hlt ↦ exited_setWorker hne (h.joined v hv hlt), h.stopped, h.fault_eq⟩
  have hrun := hledger.run
  rw [← hgain] at hrun
  exact hrun

theorem freeJob (h : PoolInv s q 0) {w job : ℕ} {x : Submission J} (hw : w < s.pool.workers)
    (hstate : s.worker w = .running job x) : PoolInv (s.freeJob w job x) q 0 := by
  have hlose : s.active = (job, x) ::ₘ (s.setWorker w .ready).active := by
    have hsplit : s.active = (s.worker w).active + (s.setWorker w .ready).active :=
      tally_lose hw rfl
    rwa [hstate, WorkerState.active, Multiset.singleton_add] at hsplit
  have hsame : (s.setWorker w .ready).taken = s.taken := tally_same hw (by rw [hstate]; rfl)
  have hledger := h.ledger
  rw [hlose, ← hsame] at hledger
  obtain ⟨next, hcell⟩ := hledger.allocated (job, x)
    (Multiset.mem_add.mpr (.inr (Multiset.mem_cons_self _ _)))
  have hne : s.worker w ≠ .exited := by rw [hstate]; nofun
  rw [PoolSystem.freeJob, hcell]
  exact ⟨h.workers_pos, hledger.finish, h.asleep.trans (tally_same hw (by rw [hstate]; rfl)).symm,
    h.covers, h.awake, fun v hv hexit ↦ h.exited v hv (exited_of_setWorker (by nofun) hexit),
    fun v hv hlt ↦ exited_setWorker hne (h.joined v hv hlt), h.stopped, h.fault_eq⟩

theorem workerStep (h : PoolInv s q 0) {w : ℕ} (hw : w < s.pool.workers) {s' : PoolSystem J}
    (hstep : s.workerStep w = some s') : ∃ q', PoolInv s' q' 0 := by
  rw [PoolSystem.workerStep] at hstep
  cases hstate : s.worker w with
  | ready =>
      rw [hstate] at hstep
      cases hstep
      refine poolWorker (q := q) ?_ hw (.inl hstate)
      rw [hstate]
      exact h
  | took job x =>
      rw [hstate] at hstep
      cases hstep
      exact ⟨q, h.runJob hw hstate⟩
  | running job x =>
      rw [hstate] at hstep
      cases hstep
      exact ⟨q, h.freeJob hw hstate⟩
  | waiting =>
      rw [hstate] at hstep
      cases hstep
  | exited =>
      rw [hstate] at hstep
      cases hstep

/-- Only the workers in `cond_wait` are known to the condition. -/
theorem waiting_of_mem (h : PoolInv s q inside) {w : ℕ}
    (hmem : w ∈ s.pool.available.waiting + s.pool.available.woken) :
    w < s.pool.workers ∧ s.worker w = .waiting := by
  have hasleep : w ∈ s.asleep := h.asleep ▸ Multiset.mem_add.mpr (.inr hmem)
  obtain ⟨v, hv, hin⟩ := mem_tally.mp hasleep
  cases hstate : s.worker v with
  | waiting =>
      rw [hstate, WorkerState.asleep, Multiset.mem_singleton] at hin
      exact ⟨hin ▸ hv, hin ▸ hstate⟩
  | ready | took _ _ | running _ _ | exited =>
      rw [hstate] at hin
      exact absurd hin (Multiset.notMem_zero w)

theorem resume (h : PoolInv s q 0) {w : ℕ} {available : CondVar ℕ}
    (hresume : s.pool.available.resume w = some available) :
    ∃ q', PoolInv
      ({ s with pool := { s.pool with available := available } }.poolWorker w) q' 0 := by
  have hmem : w ∈ s.pool.available.waiting + s.pool.available.woken :=
    Multiset.mem_add.mpr (.inr (CondVar.resume_eq_some hresume).1)
  obtain ⟨hw, hstate⟩ := h.waiting_of_mem hmem
  refine poolWorker (q := q) ?_ hw (.inr hstate)
  have hinside : (s.worker w).asleep w = {w} := by
    rw [hstate]
    rfl
  dsimp only
  rw [hinside]
  refine ⟨h.workers_pos, h.ledger, ?_, h.covers.resume hresume, fun hstop ↦ ?_, h.exited,
    h.joined, h.stopped, h.fault_eq⟩
  · exact (CondVar.resume_total hresume).trans ((zero_add _).symm.trans h.asleep)
  · obtain ⟨-, rfl⟩ := CondVar.resume_eq_some hresume
    exact h.awake hstop

/-! ## The end of the pool -/

theorem destroy (h : PoolInv s q 0) : PoolInv s.destroy q 0 where
  workers_pos := h.workers_pos
  ledger := h.ledger
  asleep := by
    refine Eq.trans ?_ h.asleep
    dsimp only [PoolSystem.destroy, CondVar.broadcast]
    rw [zero_add (_ + _), add_comm s.pool.available.woken]
  covers := CondVar.covers_of_waiting rfl _
  awake := fun _ ↦ rfl
  exited := fun w hw hexit ↦ ⟨rfl, (h.exited w hw hexit).2⟩
  joined := fun w _ hlt ↦ absurd hlt (Nat.not_lt_zero w)
  stopped := fun _ ↦ rfl
  fault_eq := h.fault_eq

theorem join (h : PoolInv s q 0) {i : ℕ} (hdestroyer : s.destroyer = .joining i)
    {s' : PoolSystem J} (hjoin : s.join i = some s') : PoolInv s' q 0 := by
  have hstop : s.pool.stopping = true := h.stopped (by rw [hdestroyer]; nofun)
  have hjoined : ∀ v < s.pool.workers, v < i → s.worker v = .exited := by
    have hbefore := h.joined
    rwa [hdestroyer] at hbefore
  rw [PoolSystem.join] at hjoin
  split at hjoin
  · cases hstate : s.worker i with
    | exited =>
        rw [hstate] at hjoin
        cases hjoin
        refine ⟨h.workers_pos, h.ledger, h.asleep, h.covers, h.awake, h.exited,
          fun v hv hlt ↦ ?_, fun _ ↦ hstop, h.fault_eq⟩
        rcases Nat.lt_succ_iff_lt_or_eq.mp hlt with hlt | rfl
        · exact hjoined v hv hlt
        · exact hstate
    | ready | waiting | took _ _ | running _ _ =>
        rw [hstate] at hjoin
        cases hjoin
  · rename_i hlast
    cases hjoin
    exact ⟨h.workers_pos, h.ledger, h.asleep, h.covers, h.awake, h.exited,
      fun v hv _ ↦ hjoined v hv (hv.trans_le (Nat.not_lt.mp hlast)), fun _ ↦ hstop, h.fault_eq⟩

theorem wake (h : PoolInv s q 0) {w : ℕ} {available : CondVar ℕ}
    (hwake : s.pool.available.spurious w = some available) :
    PoolInv { s with pool := { s.pool with available := available } } q 0 where
  workers_pos := h.workers_pos
  ledger := h.ledger
  asleep := (congrArg _ (CondVar.spurious_total hwake)).trans h.asleep
  covers := h.covers.spurious hwake
  awake := fun hstop ↦ by
    obtain ⟨hmem, -⟩ := CondVar.spurious_eq_some hwake
    rw [h.awake hstop] at hmem
    exact absurd hmem (Multiset.notMem_zero w)
  exited := h.exited
  joined := h.joined
  stopped := h.stopped
  fault_eq := h.fault_eq

theorem step (h : PoolInv s q 0) {e : PoolEvent J} {s' : PoolSystem J}
    (hstep : (PoolSystem.transitions J).step s e = some s') : ∃ q', PoolInv s' q' 0 := by
  cases e with
  | submit address action chosen =>
      cases hdestroyer : s.destroyer with
      | idle | joining _ =>
          simp only [PoolSystem.transitions, hdestroyer] at hstep
          exact h.submit hstep
      | returned =>
          simp only [PoolSystem.transitions, hdestroyer] at hstep
          cases hstep
  | work w =>
      obtain ⟨hw, hstep⟩ := Option.ite_none_right_eq_some.mp hstep
      exact h.workerStep hw hstep
  | resume w =>
      obtain ⟨available, hresume, rfl⟩ := Option.map_eq_some_iff.mp hstep
      exact h.resume hresume
  | destroy =>
      cases hdestroyer : s.destroyer with
      | idle =>
          simp only [PoolSystem.transitions, hdestroyer] at hstep
          cases hstep
          exact ⟨q, h.destroy⟩
      | joining _ | returned =>
          simp only [PoolSystem.transitions, hdestroyer] at hstep
          cases hstep
  | join =>
      cases hdestroyer : s.destroyer with
      | joining i =>
          simp only [PoolSystem.transitions, hdestroyer] at hstep
          exact ⟨q, h.join hdestroyer hstep⟩
      | idle | returned =>
          simp only [PoolSystem.transitions, hdestroyer] at hstep
          cases hstep
  | wake w =>
      obtain ⟨available, hwake, rfl⟩ := Option.map_eq_some_iff.mp hstep
      exact ⟨q, h.wake hwake⟩

theorem run {events : List (PoolEvent J)} {s' : PoolSystem J} (h : PoolInv s q 0)
    (hrun : (PoolSystem.transitions J).run s events = some s') : ∃ q', PoolInv s' q' 0 :=
  Transitions.run_invariant (P := fun s ↦ ∃ q, PoolInv s q 0)
    (fun hinv hstep ↦ hinv.elim fun _ hq ↦ hq.step hstep) ⟨q, h⟩ hrun

end PoolInv

end TinyCPlus.Runtime
