import TinyCPlus.Library.History
import TinyCPlus.Runtime.Future

/-!
# Futures are completed once and freed once

What the references, the value and the continuations of a future have to do
with what has happened to it.
-/

namespace TinyCPlus.Runtime

open TinyCPlus.Library

variable {τ V P A : Type*}

namespace FutureOutcome

def completion : FutureOutcome τ V P A → Option (V × ℤ)
  | .completed _ value error => some (value, error)
  | _ => none

def registration : FutureOutcome τ V P A → Option (Continuation P A)
  | .registered k => some k
  | _ => none

def run : FutureOutcome τ V P A → Option (Continuation P A)
  | .ran k => some k
  | _ => none

end FutureOutcome

/-- The values and errors of the calls of `tc_future_complete` that returned 0. -/
def completions (history : List (FutureOutcome τ V P A)) : List (V × ℤ) :=
  history.filterMap FutureOutcome.completion

/-- The continuations of the calls of `tc_future_then` that returned 0. -/
def registered (history : List (FutureOutcome τ V P A)) : List (Continuation P A) :=
  history.filterMap FutureOutcome.registration

def ran (history : List (FutureOutcome τ V P A)) : List (Continuation P A) :=
  history.filterMap FutureOutcome.run

theorem completions_snoc (history : List (FutureOutcome τ V P A))
    (x : FutureOutcome τ V P A) :
    completions (history ++ [x]) = completions history ++ x.completion.toList :=
  filterMap_snoc _ _ _

theorem registered_snoc (history : List (FutureOutcome τ V P A))
    (x : FutureOutcome τ V P A) :
    registered (history ++ [x]) = registered history ++ x.registration.toList :=
  filterMap_snoc _ _ _

theorem ran_snoc (history : List (FutureOutcome τ V P A)) (x : FutureOutcome τ V P A) :
    ran (history ++ [x]) = ran history ++ x.run.toList :=
  filterMap_snoc _ _ _

/-! ## References -/

structure References (refs : BitVec 64) (holders : Multiset τ) (disposing frees : ℕ)
    (ready : CondVar τ) : Prop where
  refs_eq : refs = BitVec.ofNat 64 holders.card
  card_lt : holders.card < 2 ^ 64
  waiters : ∀ t ∈ ready.waiting + ready.woken, t ∈ holders
  last : holders = 0 → disposing + frees = 1
  shared : holders ≠ 0 → disposing = 0 ∧ frees = 0

namespace References

variable {refs : BitVec 64} {holders : Multiset τ} {disposing frees : ℕ} {ready : CondVar τ}

theorem create (t : τ) : References 1 {t} 0 0 .empty where
  refs_eq := rfl
  card_lt := by simp
  waiters := fun u hu ↦ absurd hu (Multiset.notMem_zero u)
  last := fun h ↦ absurd h (Multiset.singleton_ne_zero t)
  shared := fun _ ↦ ⟨rfl, rfl⟩

theorem ne_zero_of_mem {t : τ} (ht : t ∈ holders) : holders ≠ 0 := by
  rintro rfl
  exact Multiset.notMem_zero t ht

theorem retain (h : References refs holders disposing frees ready) {t : τ} (ht : t ∈ holders)
    (hroom : holders.card + 1 < 2 ^ 64) (u : τ) :
    References (refs + 1) (u ::ₘ holders) disposing frees ready where
  refs_eq := by
    rw [h.refs_eq, Multiset.card_cons, BitVec.ofNat_add]
    rfl
  card_lt := by rwa [Multiset.card_cons]
  waiters := fun v hv ↦ Multiset.mem_cons_of_mem (h.waiters v hv)
  last := fun hzero ↦ absurd hzero (Multiset.cons_ne_zero)
  shared := fun _ ↦ h.shared (ne_zero_of_mem ht)

/-- The waiting threads may change in any way that adds only holders. -/
theorem withReady (h : References refs holders disposing frees ready) {ready' : CondVar τ}
    (hready : ∀ t ∈ ready'.waiting + ready'.woken, t ∈ holders) :
    References refs holders disposing frees ready' :=
  ⟨h.refs_eq, h.card_lt, hready, h.last, h.shared⟩

variable [DecidableEq τ]

theorem release (h : References refs holders disposing frees ready) {t : τ} (ht : t ∈ holders)
    (hidle : t ∉ ready.waiting + ready.woken) :
    References (refs - 1) (holders.erase t)
      (if refs - 1 = 0 then disposing + 1 else disposing) frees ready := by
  obtain ⟨hdisposing, hfrees⟩ := h.shared (ne_zero_of_mem ht)
  have hcard : holders.card = (holders.erase t).card + 1 :=
    (Multiset.card_erase_add_one ht).symm
  have hlt := h.card_lt
  have hrefs : refs - 1 = BitVec.ofNat 64 (holders.erase t).card := by
    rw [h.refs_eq, hcard, BitVec.ofNat_add]
    exact BitVec.add_sub_cancel _ _
  have hzero : refs - 1 = 0 ↔ holders.erase t = 0 := by
    rw [hrefs, ← Multiset.card_eq_zero, ← BitVec.toNat_inj, BitVec.toNat_ofNat,
      Nat.mod_eq_of_lt (by omega)]
    rfl
  refine ⟨hrefs, by omega, fun u hu ↦ ?_, fun hnone ↦ ?_, fun hsome ↦ ?_⟩
  · have hne : u ≠ t := by
      rintro rfl
      exact hidle hu
    exact (Multiset.mem_erase_of_ne hne).mpr (h.waiters u hu)
  · rw [if_pos (hzero.mpr hnone), hdisposing, hfrees]
  · rw [if_neg fun hrefs0 ↦ hsome (hzero.mp hrefs0)]
    exact ⟨hdisposing, hfrees⟩

omit [DecidableEq τ] in
theorem dispose (h : References refs holders disposing frees ready) (hne : disposing ≠ 0) :
    frees = 0 ∧ References refs holders (disposing - 1) (frees + 1) ready := by
  have hnone : holders = 0 := by
    by_contra hsome
    exact hne (h.shared hsome).1
  have hlast := h.last hnone
  exact ⟨by omega, h.refs_eq, h.card_lt, h.waiters, fun _ ↦ by omega,
    fun hsome ↦ absurd hnone hsome⟩

omit [DecidableEq τ] in
/-- Somebody who holds a reference keeps the future. -/
theorem frees_eq (h : References refs holders disposing frees ready) {t : τ} (ht : t ∈ holders) :
    frees = 0 :=
  (h.shared (ne_zero_of_mem ht)).2

end References

/-! ## Completion -/

/-- When an outcome may follow the outcomes before it. -/
def FutureAllowed (pre : List (FutureOutcome τ V P A)) : FutureOutcome τ V P A → Prop
  | .completed _ _ _ => completions pre = []
  | .completeRefused _ => completions pre ≠ []
  | .wasReady _ ready => ready = true ↔ completions pre ≠ []
  | .got _ value error => completions pre = [(value, error)]
  | .registered _ => True
  | .ran k => completions pre ≠ [] ∧ k ∈ registered pre

structure Completion (done : Bool) (data : V) (error : ℤ)
    (history : List (FutureOutcome τ V P A)) : Prop where
  completions_eq : completions history = if done = true then [(data, error)] else []
  allowed : Each FutureAllowed history

namespace Completion

variable {done : Bool} {data : V} {error : ℤ} {history : List (FutureOutcome τ V P A)}

theorem ne_nil_iff (h : Completion done data error history) :
    completions history ≠ [] ↔ done = true := by
  rw [h.completions_eq]
  cases done <;> simp

/-- Something happens that does not complete the future. -/
theorem record (h : Completion done data error history) {x : FutureOutcome τ V P A}
    (hx : x.completion = none) (hallowed : FutureAllowed history x) :
    Completion done data error (history ++ [x]) where
  completions_eq := by
    rw [completions_snoc, hx, Option.toList_none, List.append_nil, h.completions_eq]
  allowed := h.allowed.snoc hallowed

theorem complete (h : Completion false data error history) (t : τ) (value : V) (error' : ℤ) :
    Completion true value error' (history ++ [.completed t value error']) := by
  have hnone : completions history = [] := by
    simpa using h.completions_eq
  exact ⟨by rw [completions_snoc, hnone]; rfl, h.allowed.snoc hnone⟩

end Completion

/-! ## Continuations -/

/-- Where the continuations are: in the list of the future, in the hands of a
thread that delivers them, in the queue of a pool, or run. -/
structure Registrations (done : Bool) (listed pending jobs : Multiset (Continuation P A))
    (calls : ℕ) (history : List (FutureOutcome τ V P A)) : Prop where
  registered_eq : (registered history : Multiset (Continuation P A)) =
    listed + pending + jobs + ran history
  calls_eq : (registered history).map Continuation.call = List.range calls
  detached : done = true → listed = 0
  delivered : ∀ k ∈ pending + jobs, done = true

namespace Registrations

variable {done : Bool} {listed pending jobs : Multiset (Continuation P A)} {calls : ℕ}
  {history : List (FutureOutcome τ V P A)} {k : Continuation P A}

theorem create : Registrations false (0 : Multiset (Continuation P A)) 0 0 0
    ([] : List (FutureOutcome τ V P A)) :=
  ⟨rfl, rfl, fun h ↦ absurd h Bool.false_ne_true, fun k hk ↦ absurd hk (Multiset.notMem_zero k)⟩

/-- Something happens that is nothing to the continuations. -/
theorem record (h : Registrations done listed pending jobs calls history)
    {x : FutureOutcome τ V P A} (hregistration : x.registration = none) (hrun : x.run = none) :
    Registrations done listed pending jobs calls (history ++ [x]) := by
  have hregistered : registered (history ++ [x]) = registered history := by
    rw [registered_snoc, hregistration, Option.toList_none, List.append_nil]
  have hran : ran (history ++ [x]) = ran history := by
    rw [ran_snoc, hrun, Option.toList_none, List.append_nil]
  refine ⟨?_, ?_, h.detached, h.delivered⟩
  · rw [hregistered, hran, h.registered_eq]
  · rw [hregistered, h.calls_eq]

/-- What a registration does to the history. -/
theorem register (h : Registrations done listed pending jobs calls history)
    {history' : List (FutureOutcome τ V P A)} {pool : Option P} {action : A}
    (hhistory : history' = history ++ [.registered ⟨calls, pool, action⟩]) :
    (registered history' : Multiset (Continuation P A)) =
      ⟨calls, pool, action⟩ ::ₘ (listed + pending + jobs + (ran history' : Multiset _)) ∧
    (registered history').map Continuation.call = List.range (calls + 1) := by
  subst hhistory
  constructor
  · rw [registered_snoc, ran_snoc]
    simp only [FutureOutcome.registration, FutureOutcome.run, Option.toList_some,
      Option.toList_none, List.append_nil]
    rw [← h.registered_eq, Multiset.cons_coe]
    exact Multiset.coe_eq_coe.mpr (List.perm_append_singleton _ _)
  · rw [registered_snoc, List.map_append, h.calls_eq, List.range_succ]
    rfl

/-- A continuation is put into the list. -/
theorem push (h : Registrations false listed pending jobs calls history)
    (pool : Option P) (action : A) :
    Registrations false (⟨calls, pool, action⟩ ::ₘ listed) pending jobs (calls + 1)
      (history ++ [.registered ⟨calls, pool, action⟩]) where
  registered_eq := by
    rw [(h.register rfl).1, Multiset.cons_add, Multiset.cons_add, Multiset.cons_add]
  calls_eq := (h.register rfl).2
  detached := fun hfalse ↦ absurd hfalse Bool.false_ne_true
  delivered := h.delivered

/-- A continuation that comes after the completion is delivered at once. -/
theorem late (h : Registrations true listed pending jobs calls history)
    (pool : Option P) (action : A) :
    Registrations true listed (⟨calls, pool, action⟩ ::ₘ pending) jobs (calls + 1)
      (history ++ [.registered ⟨calls, pool, action⟩]) where
  registered_eq := by
    rw [(h.register rfl).1, Multiset.add_cons, Multiset.cons_add, Multiset.cons_add]
  calls_eq := (h.register rfl).2
  detached := h.detached
  delivered := fun _ _ ↦ rfl

/-- The list is detached. -/
theorem complete (h : Registrations done listed pending jobs calls history) (t : τ)
    (value : V) (error : ℤ) :
    Registrations true 0 (listed + pending) jobs calls
      (history ++ [.completed t value error]) := by
  have hrecord := h.record (x := .completed t value error) rfl rfl
  refine ⟨?_, hrecord.calls_eq, fun _ ↦ rfl, fun _ _ ↦ rfl⟩
  rw [hrecord.registered_eq, zero_add]

/-- A pool accepts a continuation. -/
theorem submit (h : Registrations done listed (k ::ₘ pending) jobs calls history) :
    Registrations done listed pending (k ::ₘ jobs) calls history where
  registered_eq := by
    rw [h.registered_eq, Multiset.add_cons, Multiset.cons_add, Multiset.add_cons]
  calls_eq := h.calls_eq
  detached := h.detached
  delivered := by
    rw [Multiset.add_cons, ← Multiset.cons_add]
    exact h.delivered

theorem mem_registered (h : Registrations done listed pending jobs calls history)
    (hk : k ∈ pending + jobs) : k ∈ registered history := by
  rw [← Multiset.mem_coe, h.registered_eq, add_assoc listed]
  exact Multiset.mem_add.mpr (.inl (Multiset.mem_add.mpr (.inr hk)))

theorem run_pending (h : Registrations done listed (k ::ₘ pending) jobs calls history) :
    Registrations done listed pending jobs calls (history ++ [.ran k]) where
  registered_eq := by
    have hsplit := h.registered_eq
    rw [Multiset.add_cons, Multiset.cons_add, Multiset.cons_add] at hsplit
    rw [registered_snoc, ran_snoc]
    simp only [FutureOutcome.registration, FutureOutcome.run, Option.toList_some,
      Option.toList_none, List.append_nil]
    rw [hsplit, Multiset.coe_eq_coe.mpr (List.perm_append_singleton k _), ← Multiset.cons_coe,
      Multiset.add_cons]
  calls_eq := by
    rw [registered_snoc]
    exact (congrArg _ (List.append_nil _)).trans h.calls_eq
  detached := h.detached
  delivered := fun l hl ↦ h.delivered l (by
    rw [Multiset.cons_add]
    exact Multiset.mem_cons_of_mem hl)

theorem run_job (h : Registrations done listed pending (k ::ₘ jobs) calls history) :
    Registrations done listed pending jobs calls (history ++ [.ran k]) := by
  refine run_pending ⟨?_, h.calls_eq, h.detached, ?_⟩
  · rw [h.registered_eq, Multiset.add_cons, Multiset.add_cons, Multiset.cons_add,
      Multiset.cons_add, Multiset.cons_add]
  · rw [Multiset.cons_add, ← Multiset.add_cons]
    exact h.delivered

end Registrations

end TinyCPlus.Runtime
