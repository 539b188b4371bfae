import TinyCPlus.Library.History
import TinyCPlus.Runtime.Pool

/-!
# The jobs of a pool

A job is accepted, dequeued, started and finished, in this order.  The ledger
says which jobs stand at each of these points: `q` are the cells in the queue,
`taken` those that a worker has dequeued, and `active` those that run.
-/

namespace TinyCPlus.Runtime

open TinyCPlus.Library

variable {J : Type*}

namespace PoolOutcome

@[simp] def acceptedJob : PoolOutcome J → Option (Submission J)
  | .accepted x => some x
  | _ => none

@[simp] def dequeuedJob : PoolOutcome J → Option (Submission J)
  | .dequeued x => some x
  | _ => none

@[simp] def startedJob : PoolOutcome J → Option (Submission J)
  | .started x => some x
  | _ => none

@[simp] def finishedJob : PoolOutcome J → Option (Submission J)
  | .finished x => some x
  | _ => none

/-- The number of the call of `tc_pool_submit` that returned. -/
@[simp] def submitCall : PoolOutcome J → Option ℕ
  | .accepted x => some x.call
  | .refused call _ => some call
  | _ => none

end PoolOutcome

/-- The jobs whose submit returned 0, in the order the submits took effect. -/
def acceptedJobs (history : List (PoolOutcome J)) : List (Submission J) :=
  history.filterMap PoolOutcome.acceptedJob

def dequeuedJobs (history : List (PoolOutcome J)) : List (Submission J) :=
  history.filterMap PoolOutcome.dequeuedJob

def startedJobs (history : List (PoolOutcome J)) : List (Submission J) :=
  history.filterMap PoolOutcome.startedJob

def finishedJobs (history : List (PoolOutcome J)) : List (Submission J) :=
  history.filterMap PoolOutcome.finishedJob

def submitCalls (history : List (PoolOutcome J)) : List ℕ :=
  history.filterMap PoolOutcome.submitCall

@[simp] theorem acceptedJobs_snoc (history : List (PoolOutcome J)) (x : PoolOutcome J) :
    acceptedJobs (history ++ [x]) = acceptedJobs history ++ x.acceptedJob.toList :=
  filterMap_snoc _ _ _

@[simp] theorem dequeuedJobs_snoc (history : List (PoolOutcome J)) (x : PoolOutcome J) :
    dequeuedJobs (history ++ [x]) = dequeuedJobs history ++ x.dequeuedJob.toList :=
  filterMap_snoc _ _ _

@[simp] theorem startedJobs_snoc (history : List (PoolOutcome J)) (x : PoolOutcome J) :
    startedJobs (history ++ [x]) = startedJobs history ++ x.startedJob.toList :=
  filterMap_snoc _ _ _

@[simp] theorem finishedJobs_snoc (history : List (PoolOutcome J)) (x : PoolOutcome J) :
    finishedJobs (history ++ [x]) = finishedJobs history ++ x.finishedJob.toList :=
  filterMap_snoc _ _ _

@[simp] theorem submitCalls_snoc (history : List (PoolOutcome J)) (x : PoolOutcome J) :
    submitCalls (history ++ [x]) = submitCalls history ++ x.submitCall.toList :=
  filterMap_snoc _ _ _

structure Ledger (queue : LinkedQueue (Submission J)) (q : List (ℕ × Submission J))
    (taken active : Multiset (ℕ × Submission J)) (calls : ℕ)
    (history : List (PoolOutcome J)) : Prop where
  holds : queue.Holds q
  allocated : ∀ e ∈ taken + active, ∃ next, queue.cells e.1 = some ⟨e.2, next⟩
  distinct : ((q + taken + active : Multiset (ℕ × Submission J)).map Prod.fst).Nodup
  accepted : acceptedJobs history = dequeuedJobs history ++ q.map Prod.snd
  dequeued : (dequeuedJobs history : Multiset (Submission J)) =
    taken.map Prod.snd + startedJobs history
  started : (startedJobs history : Multiset (Submission J)) =
    active.map Prod.snd + finishedJobs history
  calls_eq : submitCalls history = List.range calls

namespace Ledger

theorem empty : Ledger (.empty : LinkedQueue (Submission J)) [] 0 0 0 [] where
  holds := LinkedQueue.holds_empty
  allocated := fun e he ↦ absurd he (Multiset.notMem_zero e)
  distinct := Multiset.nodup_zero
  accepted := rfl
  dequeued := rfl
  started := rfl
  calls_eq := rfl

variable {queue : LinkedQueue (Submission J)} {q : List (ℕ × Submission J)}
  {taken active : Multiset (ℕ × Submission J)} {calls : ℕ} {history : List (PoolOutcome J)}
  {e : ℕ × Submission J}

theorem allocated_of_mem (h : Ledger queue q taken active calls history)
    (he : e ∈ (q + taken + active : Multiset (ℕ × Submission J))) :
    ∃ next, queue.cells e.1 = some ⟨e.2, next⟩ := by
  rw [add_assoc, Multiset.mem_add, Multiset.mem_coe] at he
  rcases he with he | he
  · exact h.holds.chain.mem he
  · exact h.allocated e he

theorem leave (h : Ledger queue q taken active calls history) (w : ℕ) :
    Ledger queue q taken active calls (history ++ [.left w]) where
  holds := h.holds
  allocated := h.allocated
  distinct := h.distinct
  accepted := by simpa using h.accepted
  dequeued := by simpa using h.dequeued
  started := by simpa using h.started
  calls_eq := by simpa using h.calls_eq

theorem refuse (h : Ledger queue q taken active calls history) (code : ℕ) :
    Ledger queue q taken active (calls + 1) (history ++ [.refused calls code]) where
  holds := h.holds
  allocated := h.allocated
  distinct := h.distinct
  accepted := by simpa using h.accepted
  dequeued := by simpa using h.dequeued
  started := by simpa using h.started
  calls_eq := by simp [h.calls_eq, List.range_succ]

/-- A submit takes effect at a cell that nobody uses. -/
theorem submit (h : Ledger queue q taken active calls history) {job : ℕ}
    (hfresh : queue.cells job = none) (action : J) :
    ∃ queue', queue.enqueue job ⟨calls, action⟩ = some queue' ∧
      Ledger queue' (q ++ [(job, ⟨calls, action⟩)]) taken active (calls + 1)
        (history ++ [.accepted ⟨calls, action⟩]) := by
  obtain ⟨queue', henqueue, hholds, hframe⟩ := h.holds.enqueue hfresh ⟨calls, action⟩
  have hnew : job ∉ (q + taken + active : Multiset (ℕ × Submission J)).map Prod.fst := by
    intro hmem
    obtain ⟨d, hd, rfl⟩ := Multiset.mem_map.mp hmem
    obtain ⟨next, hcell⟩ := h.allocated_of_mem hd
    rw [hfresh] at hcell
    cases hcell
  refine ⟨queue', henqueue, hholds, fun d hd ↦ ?_, ?_, ?_, ?_, ?_, ?_⟩
  · obtain ⟨next, hcell⟩ := h.allocated d hd
    have hdistinct := h.distinct
    rw [add_assoc, Multiset.map_add, Multiset.nodup_add] at hdistinct
    have hqueued : d.1 ∉ q.map Prod.fst := fun hmem ↦
      Multiset.disjoint_left.mp hdistinct.2.2 (by simpa using hmem)
        (Multiset.mem_map_of_mem Prod.fst hd)
    have hjob : d.1 ≠ job := by
      rintro rfl
      rw [hfresh] at hcell
      cases hcell
    exact ⟨next, by rw [hframe d.1 hjob hqueued, hcell]⟩
  · rw [Multiset.coe_eq_coe.mpr (List.perm_append_singleton (job, ⟨calls, action⟩) q),
      ← Multiset.cons_coe, Multiset.cons_add, Multiset.cons_add, Multiset.map_cons,
      Multiset.nodup_cons]
    exact ⟨hnew, h.distinct⟩
  · simp [h.accepted, List.append_assoc]
  · simpa using h.dequeued
  · simpa using h.started
  · simp [h.calls_eq, List.range_succ]

/-- A worker dequeues the first job. -/
theorem take (h : Ledger queue (e :: q) taken active calls history) :
    ∃ queue', queue.dequeue = some (e, queue') ∧
      Ledger queue' q (e ::ₘ taken) active calls (history ++ [.dequeued e.2]) := by
  obtain ⟨queue', hdequeue, hholds, hcells⟩ := h.holds.dequeue
  refine ⟨queue', hdequeue, hholds, fun d hd ↦ ?_, ?_, ?_, ?_, ?_, ?_⟩
  · rw [hcells]
    refine h.allocated_of_mem ?_
    rw [Multiset.cons_add, Multiset.mem_cons] at hd
    rw [add_assoc, Multiset.mem_add, Multiset.mem_coe, List.mem_cons]
    exact hd.elim (fun hde ↦ .inl (.inl hde)) .inr
  · have hdistinct := h.distinct
    rwa [← Multiset.cons_coe, Multiset.cons_add, ← Multiset.add_cons] at hdistinct
  · simp [h.accepted]
  · rw [dequeuedJobs_snoc, startedJobs_snoc, ← Multiset.coe_add, h.dequeued, Multiset.map_cons]
    simp [add_comm]
  · simpa using h.started
  · simpa using h.calls_eq

/-- A worker calls the action of the job that it took. -/
theorem run (h : Ledger queue q (e ::ₘ taken) active calls history) :
    Ledger queue q taken (e ::ₘ active) calls (history ++ [.started e.2]) := by
  have hswap : e ::ₘ taken + active = taken + e ::ₘ active := by
    rw [Multiset.cons_add, Multiset.add_cons]
  refine ⟨h.holds, hswap ▸ h.allocated, ?_, ?_, ?_, ?_, ?_⟩
  · rw [add_assoc, ← hswap, ← add_assoc]
    exact h.distinct
  · simpa using h.accepted
  · have hdequeued := h.dequeued
    rw [Multiset.map_cons, Multiset.cons_add] at hdequeued
    rw [dequeuedJobs_snoc, startedJobs_snoc, ← Multiset.coe_add, ← Multiset.coe_add, hdequeued]
    simp only [PoolOutcome.dequeuedJob, PoolOutcome.startedJob, Option.toList_none,
      Option.toList_some, Multiset.coe_nil, Multiset.coe_singleton, ← Multiset.singleton_add]
    abel
  · rw [startedJobs_snoc, finishedJobs_snoc, ← Multiset.coe_add, h.started, Multiset.map_cons]
    simp [add_comm]
  · simpa using h.calls_eq

/-- A worker frees the job whose action has returned. -/
theorem finish (h : Ledger queue q taken (e ::ₘ active) calls history) :
    Ledger (queue.free e.1) q taken active calls (history ++ [.finished e.2]) := by
  have hdistinct := h.distinct
  rw [Multiset.add_cons, Multiset.map_cons, Multiset.nodup_cons] at hdistinct
  have hframe {d : ℕ × Submission J}
      (hd : d ∈ (q : Multiset (ℕ × Submission J)) + taken + active) :
      (queue.free e.1).cells d.1 = queue.cells d.1 := by
    refine Function.update_of_ne ?_ _ _
    intro heq
    exact hdistinct.1 (heq ▸ Multiset.mem_map_of_mem Prod.fst hd)
  refine ⟨h.holds.congr rfl rfl fun d hd ↦ hframe ?_, fun d hd ↦ ?_, hdistinct.2, ?_, ?_, ?_, ?_⟩
  · rw [add_assoc, Multiset.mem_add, Multiset.mem_coe]
    exact .inl hd
  · have hmem : d ∈ taken + e ::ₘ active := by
      rw [Multiset.add_cons]
      exact Multiset.mem_cons_of_mem hd
    obtain ⟨next, hcell⟩ := h.allocated d hmem
    refine ⟨next, (hframe ?_).trans hcell⟩
    rw [add_assoc, Multiset.mem_add]
    exact .inr hd
  · simpa using h.accepted
  · simpa using h.dequeued
  · have hstarted := h.started
    rw [Multiset.map_cons, Multiset.cons_add] at hstarted
    rw [startedJobs_snoc, finishedJobs_snoc, ← Multiset.coe_add, ← Multiset.coe_add, hstarted]
    simp only [PoolOutcome.startedJob, PoolOutcome.finishedJob, Option.toList_none,
      Option.toList_some, Multiset.coe_nil, Multiset.coe_singleton, ← Multiset.singleton_add]
    abel
  · simpa using h.calls_eq

end Ledger

end TinyCPlus.Runtime
