import TinyCPlus.Runtime.PoolRuns

/-!
# Pools run every job once

The law of `tc_pool_submit` and `tc_pool_destroy`, and the reason why the
workers do not stop before it is fulfilled.
-/

namespace TinyCPlus.Runtime

open TinyCPlus.Library

variable {J : Type*}

/-- A step by which a worker or the destroying thread goes on: no new call, and
no wake-up that nobody sent. -/
def PoolEvent.GoesOn : PoolEvent J → Prop
  | .work _ | .resume _ | .join => True
  | .submit _ _ _ | .destroy | .wake _ => False

namespace Ledger

variable {queue : LinkedQueue (Submission J)} {q : List (ℕ × Submission J)}
  {taken active : Multiset (ℕ × Submission J)} {calls : ℕ} {history : List (PoolOutcome J)}

theorem finished_le (h : Ledger queue q taken active calls history) :
    (finishedJobs history : Multiset (Submission J)) ≤ startedJobs history := by
  rw [h.started]
  exact Multiset.le_add_left _ _

theorem started_le (h : Ledger queue q taken active calls history) :
    (startedJobs history : Multiset (Submission J)) ≤ dequeuedJobs history := by
  rw [h.dequeued]
  exact Multiset.le_add_left _ _

theorem started_eq (h : Ledger queue [] taken active calls history) (htaken : taken = 0) :
    (startedJobs history : Multiset (Submission J)) = acceptedJobs history := by
  rw [h.accepted, List.map_nil, List.append_nil, h.dequeued, htaken, Multiset.map_zero, zero_add]

theorem finished_eq (h : Ledger queue [] taken active calls history) (htaken : taken = 0)
    (hactive : active = 0) :
    (finishedJobs history : Multiset (Submission J)) = acceptedJobs history := by
  rw [← h.started_eq htaken, h.started, hactive, Multiset.map_zero, zero_add]

theorem dequeued_isPrefix (h : Ledger queue q taken active calls history) :
    dequeuedJobs history <+: acceptedJobs history :=
  ⟨_, h.accepted.symm⟩

theorem nodup_calls (h : Ledger queue q taken active calls history) :
    (submitCalls history).Nodup :=
  h.calls_eq ▸ List.nodup_range

theorem nodup_accepted (h : Ledger queue q taken active calls history) :
    (acceptedJobs history).Nodup := by
  refine List.Nodup.of_map Submission.call (h.nodup_calls.sublist ?_)
  refine map_filterMap_sublist (fun x b hx ↦ ?_) history
  cases x <;> cases hx
  rfl

theorem accepted_of_started (h : Ledger queue q taken active calls history) {x : Submission J}
    (hx : x ∈ startedJobs history) : PoolOutcome.accepted x ∈ history := by
  have hdequeued : x ∈ dequeuedJobs history := Multiset.mem_of_le h.started_le hx
  obtain ⟨y, hy, hyx⟩ := List.mem_filterMap.mp (h.dequeued_isPrefix.subset hdequeued)
  cases y <;> cases hyx
  exact hy

theorem not_refused_of_started (h : Ledger queue q taken active calls history)
    {x : Submission J} (hx : x ∈ startedJobs history) (code : ℕ) :
    PoolOutcome.refused x.call code ∉ history := by
  intro hrefused
  have hsame := eq_of_nodup_filterMap h.nodup_calls (h.accepted_of_started hx) hrefused
    (b := x.call) rfl rfl
  cases hsame

end Ledger

namespace PoolInv

variable {s : PoolSystem J} {q : List (ℕ × Submission J)}

theorem isSome_work {w : ℕ} (hw : w < s.pool.workers) (hgo : (s.workerStep w).isSome) :
    ∃ e : PoolEvent J, e.GoesOn ∧ ((PoolSystem.transitions J).step s e).isSome :=
  ⟨.work w, trivial, by simpa only [PoolSystem.transitions, if_pos hw] using hgo⟩

theorem isSome_resume {w : ℕ} (hw : w ∈ s.pool.available.woken) :
    ∃ e : PoolEvent J, e.GoesOn ∧ ((PoolSystem.transitions J).step s e).isSome :=
  ⟨.resume w, trivial, by simp [PoolSystem.transitions, CondVar.resume, hw]⟩

/-- A worker goes on unless it sleeps or has left the loop. -/
theorem goesOn_of_worker {w : ℕ} (hw : w < s.pool.workers)
    (hexit : s.worker w ≠ .exited)
    (hawake : s.worker w = .waiting → s.pool.available.woken ≠ 0) :
    ∃ e : PoolEvent J, e.GoesOn ∧ ((PoolSystem.transitions J).step s e).isSome := by
  cases hstate : s.worker w with
  | waiting =>
      obtain ⟨v, hv⟩ := Multiset.exists_mem_of_ne_zero (hawake hstate)
      exact isSome_resume hv
  | exited => exact absurd hstate hexit
  | ready | took _ _ | running _ _ =>
      refine isSome_work hw ?_
      rw [PoolSystem.workerStep, hstate]
      rfl

theorem mem_asleep {w : ℕ} (hw : w < s.pool.workers) (hstate : s.worker w = .waiting)
    (h : PoolInv s q 0) : w ∈ s.pool.available.waiting + s.pool.available.woken := by
  have hasleep : w ∈ s.asleep := by
    refine mem_tally.mpr ⟨w, hw, ?_⟩
    rw [hstate]
    exact Multiset.mem_singleton_self w
  rwa [← h.asleep, zero_add] at hasleep

/-- While a job is queued some worker is awake. -/
theorem goesOn_of_queued (h : PoolInv s q 0) (hq : q ≠ []) :
    ∃ e : PoolEvent J, e.GoesOn ∧ ((PoolSystem.transitions J).step s e).isSome := by
  refine goesOn_of_worker h.workers_pos
    (fun hexit ↦ hq (h.exited 0 h.workers_pos hexit).2) fun hstate hnone ↦ ?_
  have hmem := mem_asleep h.workers_pos hstate h
  have hwaiting : s.pool.available.waiting ≠ 0 := by
    intro hzero
    rw [hzero, hnone] at hmem
    exact Multiset.notMem_zero 0 hmem
  have hcovers := h.covers hwaiting
  rw [hnone, Multiset.card_zero, Nat.sub_zero, Nat.le_zero, List.length_eq_zero_iff] at hcovers
  exact hq hcovers

/-- While a job has not finished some worker goes on. -/
theorem goesOn_of_unfinished (h : PoolInv s q 0)
    (hopen : ¬ (finishedJobs s.history).Perm (acceptedJobs s.history)) :
    ∃ e : PoolEvent J, e.GoesOn ∧ ((PoolSystem.transitions J).step s e).isSome := by
  by_cases hbusy : ∃ w < s.pool.workers, (s.worker w).taken + (s.worker w).active ≠ 0
  · obtain ⟨w, hw, hne⟩ := hbusy
    refine goesOn_of_worker hw (fun hexit ↦ hne ?_) fun hstate ↦ absurd ?_ hne
    · rw [hexit]
      rfl
    · rw [hstate]
      rfl
  · refine h.goesOn_of_queued ?_
    rintro rfl
    refine hopen (Multiset.coe_eq_coe.mp ?_)
    have hidle {w : ℕ} (hw : w < s.pool.workers) :
        (s.worker w).taken = 0 ∧ (s.worker w).active = 0 := by
      rw [← add_eq_zero]
      by_contra hne
      exact hbusy ⟨w, hw, hne⟩
    have htaken : s.taken = 0 := tally_eq_zero fun w hw ↦ (hidle hw).1
    have hactive : s.active = 0 := tally_eq_zero fun w hw ↦ (hidle hw).2
    exact h.ledger.finished_eq htaken hactive

/-- The thread in `tc_pool_destroy` goes on, or the worker for which it waits. -/
theorem goesOn_of_joining (h : PoolInv s q 0) {i : ℕ} (hi : s.destroyer = .joining i) :
    ∃ e : PoolEvent J, e.GoesOn ∧ ((PoolSystem.transitions J).step s e).isSome := by
  by_cases hjoin : (s.join i).isSome
  · exact ⟨.join, trivial, by simpa only [PoolSystem.transitions, hi] using hjoin⟩
  · have hw : i < s.pool.workers := by
      by_contra hlast
      exact hjoin (by rw [PoolSystem.join, if_neg hlast]; rfl)
    refine goesOn_of_worker hw (fun hexit ↦ hjoin ?_) fun hstate hnone ↦ ?_
    · rw [PoolSystem.join, if_pos hw, hexit]
      rfl
    · have hmem := mem_asleep hw hstate h
      rw [h.awake (h.stopped (by rw [hi]; rintro ⟨⟩)), hnone] at hmem
      exact Multiset.notMem_zero i hmem

end PoolInv

/-- Whatever the workers, the threads that submit and the thread that destroys
the pool do: jobs are dequeued in the order of their submits; a job whose submit
returned 0 is run at most once, and exactly once when `tc_pool_destroy` has
returned; a submit that returned an error does not run its job; workers leave
their loop only when the pool is stopping and the queue is empty; the two ends
of the queue agree and no freed job is used; and some thread goes on as long as
a job has not finished or `tc_pool_destroy` has not returned. -/
theorem pool_runs_jobs_once {workers : ℤ} {s₀ s : PoolSystem J}
    (hcreate : PoolSystem.create workers = some s₀) {events : List (PoolEvent J)}
    (hrun : (PoolSystem.transitions J).run s₀ events = some s) :
    (dequeuedJobs s.history <+: acceptedJobs s.history ∧ (acceptedJobs s.history).Nodup) ∧
      ((finishedJobs s.history : Multiset (Submission J)) ≤ startedJobs s.history ∧
        (startedJobs s.history : Multiset (Submission J)) ≤ dequeuedJobs s.history) ∧
      (s.destroyer = .returned → (startedJobs s.history).Perm (acceptedJobs s.history) ∧
        (finishedJobs s.history).Perm (acceptedJobs s.history)) ∧
      (∀ x ∈ startedJobs s.history, ∀ code, .refused x.call code ∉ s.history) ∧
      (∀ w < s.pool.workers, s.worker w = .exited →
        s.pool.stopping = true ∧ s.pool.queue.head = none) ∧
      (s.pool.queue.head = none ↔ s.pool.queue.tail = none) ∧ s.fault = false ∧
      (¬ (finishedJobs s.history).Perm (acceptedJobs s.history) ∨
          (∃ i, s.destroyer = .joining i) →
        ∃ e : PoolEvent J, e.GoesOn ∧ ((PoolSystem.transitions J).step s e).isSome) := by
  obtain ⟨q, hinv⟩ := (PoolInv.create hcreate).run hrun
  have hledger := hinv.ledger
  refine ⟨⟨hledger.dequeued_isPrefix, hledger.nodup_accepted⟩,
    ⟨hledger.finished_le, hledger.started_le⟩, fun hreturned ↦ ?_,
    fun x hx code ↦ hledger.not_refused_of_started hx code, fun w hw hexit ↦ ?_, ?_,
    hinv.fault_eq, fun hopen ↦ hopen.elim hinv.goesOn_of_unfinished fun ⟨_, hi⟩ ↦
      hinv.goesOn_of_joining hi⟩
  · have hexited {w : ℕ} (hw : w < s.pool.workers) : s.worker w = .exited :=
      hinv.joined w hw (by rwa [hreturned])
    obtain rfl : q = [] := (hinv.exited 0 hinv.workers_pos (hexited hinv.workers_pos)).2
    have htaken : s.taken = 0 := tally_eq_zero fun w hw ↦ by rw [hexited hw]; rfl
    have hactive : s.active = 0 := tally_eq_zero fun w hw ↦ by rw [hexited hw]; rfl
    exact ⟨Multiset.coe_eq_coe.mp (hledger.started_eq htaken),
      Multiset.coe_eq_coe.mp (hledger.finished_eq htaken hactive)⟩
  · obtain ⟨hstop, rfl⟩ := hinv.exited w hw hexit
    exact ⟨hstop, hledger.holds.head_eq_none_iff.mpr rfl⟩
  · rw [hledger.holds.head_eq_none_iff, hledger.holds.tail_eq_none_iff]

/-- One worker and three jobs, the last of which is submitted when the pool is
stopping. -/
theorem pool_runs_jobs_once_stopping :
    ∃ s₀ s : PoolSystem ℕ, PoolSystem.create 1 = some s₀ ∧
      (PoolSystem.transitions ℕ).run s₀
        [.work 0, .submit (some 7) (some 5) {0}, .resume 0, .submit (some 8) (some 6) 0, .work 0,
          .destroy, .submit (some 9) (some 4) 0, .work 0, .work 0, .work 0, .work 0, .work 0,
          .join, .join] = some s ∧
      (finishedJobs s.history).Perm (acceptedJobs s.history) := by
  have hreturned : ((PoolSystem.create 1).bind fun s₀ : PoolSystem ℕ ↦
      ((PoolSystem.transitions ℕ).run s₀
        [.work 0, .submit (some 7) (some 5) {0}, .resume 0, .submit (some 8) (some 6) 0, .work 0,
          .destroy, .submit (some 9) (some 4) 0, .work 0, .work 0, .work 0, .work 0, .work 0,
          .join, .join]).map PoolSystem.destroyer) = some .returned := by decide +kernel
  obtain ⟨s₀, hcreate, hrun⟩ := Option.bind_eq_some_iff.mp hreturned
  obtain ⟨s, hs, hdestroyer⟩ := Option.map_eq_some_iff.mp hrun
  exact ⟨s₀, s, hcreate, hs, ((pool_runs_jobs_once hcreate hs).2.2.1 hdestroyer).2⟩

end TinyCPlus.Runtime
