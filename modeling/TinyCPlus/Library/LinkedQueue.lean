import Mathlib

/-!
# Linked queues

A first-in first-out queue of heap cells with a pointer to its first and its
last cell.  An operation that reads or writes a cell that is not allocated has
no result.
-/

namespace TinyCPlus.Library

structure Cell (α : Type*) where
  value : α
  next : Option ℕ

structure LinkedQueue (α : Type*) where
  cells : ℕ → Option (Cell α)
  head : Option ℕ
  tail : Option ℕ

/-- The cells from `p` on are those of a list of addresses and values. -/
def Chain {α : Type*} (cells : ℕ → Option (Cell α)) : Option ℕ → List (ℕ × α) → Prop
  | p, [] => p = none
  | p, e :: rest => p = some e.1 ∧ ∃ next, cells e.1 = some ⟨e.2, next⟩ ∧ Chain cells next rest

namespace Chain

variable {α : Type*} {cells cells' : ℕ → Option (Cell α)}

theorem head_eq {p : Option ℕ} {jobs : List (ℕ × α)} (h : Chain cells p jobs) :
    p = jobs.head?.map Prod.fst := by
  cases jobs with
  | nil => exact h
  | cons e rest => exact h.1

theorem mem {p : Option ℕ} {jobs : List (ℕ × α)} (h : Chain cells p jobs) {e : ℕ × α}
    (he : e ∈ jobs) : ∃ next, cells e.1 = some ⟨e.2, next⟩ := by
  induction jobs generalizing p with
  | nil => cases he
  | cons d rest ih =>
      obtain ⟨-, next, hcell, hrest⟩ := h
      rcases List.mem_cons.mp he with rfl | he
      · exact ⟨next, hcell⟩
      · exact ih hrest he

/-- Only the cells of the list matter. -/
theorem congr {p : Option ℕ} {jobs : List (ℕ × α)} (h : Chain cells p jobs)
    (hsame : ∀ e ∈ jobs, cells' e.1 = cells e.1) : Chain cells' p jobs := by
  induction jobs generalizing p with
  | nil => exact h
  | cons e rest ih =>
      obtain ⟨hp, next, hcell, hrest⟩ := h
      refine ⟨hp, next, ?_, ih hrest fun d hd ↦ hsame d (List.mem_cons_of_mem e hd)⟩
      rw [hsame e List.mem_cons_self, hcell]

/-- A new cell is linked behind the last one. -/
theorem snoc {p : Option ℕ} {init : List (ℕ × α)} {e : ℕ × α} {a : ℕ} {x : α}
    (h : Chain cells p (init ++ [e])) (hnodup : ((init ++ [e]).map Prod.fst).Nodup)
    (hfresh : cells a = none) :
    Chain (Function.update (Function.update cells a (some ⟨x, none⟩)) e.1 (some ⟨e.2, some a⟩)) p
      (init ++ [e] ++ [(a, x)]) := by
  have hne {d : ℕ × α} (hd : ∃ next, cells d.1 = some ⟨d.2, next⟩) : d.1 ≠ a := by
    rintro rfl
    obtain ⟨next, hcell⟩ := hd
    rw [hfresh] at hcell
    cases hcell
  induction init generalizing p with
  | nil =>
      obtain ⟨hp, next, hcell, -⟩ := h
      refine ⟨hp, some a, Function.update_self .., rfl, none, ?_, rfl⟩
      rw [Function.update_of_ne (hne ⟨next, hcell⟩).symm, Function.update_self]
  | cons d init ih =>
      obtain ⟨hp, next, hcell, hrest⟩ := h
      rw [List.cons_append, List.map_cons, List.nodup_cons] at hnodup
      have hde : d.1 ≠ e.1 := by
        intro heq
        exact hnodup.1 (by simp [heq])
      refine ⟨hp, next, ?_, ih hrest hnodup.2⟩
      rw [Function.update_of_ne hde, Function.update_of_ne (hne ⟨next, hcell⟩), hcell]

end Chain

namespace LinkedQueue

variable {α : Type*}

def empty : LinkedQueue α := ⟨fun _ ↦ none, none, none⟩

/-- The new cell `a` becomes the last one. -/
def enqueue (q : LinkedQueue α) (a : ℕ) (x : α) : Option (LinkedQueue α) :=
  let cells := Function.update q.cells a (some ⟨x, none⟩)
  match q.tail with
  | some t =>
      (cells t).map fun last ↦
        ⟨Function.update cells t (some { last with next := some a }), q.head, some a⟩
  | none => some ⟨cells, some a, some a⟩

/-- Unlinks the first cell, which stays allocated; its address and value. -/
def dequeue (q : LinkedQueue α) : Option ((ℕ × α) × LinkedQueue α) :=
  q.head.bind fun p ↦
    (q.cells p).map fun first ↦
      ((p, first.value), ⟨q.cells, first.next, if first.next = none then none else q.tail⟩)

def free (q : LinkedQueue α) (p : ℕ) : LinkedQueue α :=
  { q with cells := Function.update q.cells p none }

/-- The queue consists of these cells, the first one first. -/
structure Holds (q : LinkedQueue α) (jobs : List (ℕ × α)) : Prop where
  chain : Chain q.cells q.head jobs
  tail_eq : q.tail = jobs.getLast?.map Prod.fst
  nodup : (jobs.map Prod.fst).Nodup

theorem holds_empty : (empty : LinkedQueue α).Holds [] := ⟨rfl, rfl, List.nodup_nil⟩

namespace Holds

variable {q : LinkedQueue α} {jobs : List (ℕ × α)}

theorem head_eq_none_iff (h : q.Holds jobs) : q.head = none ↔ jobs = [] := by
  rw [h.chain.head_eq, Option.map_eq_none_iff, List.head?_eq_none_iff]

theorem tail_eq_none_iff (h : q.Holds jobs) : q.tail = none ↔ jobs = [] := by
  rw [h.tail_eq, Option.map_eq_none_iff, List.getLast?_eq_none_iff]

theorem enqueue (h : q.Holds jobs) {a : ℕ} (hfresh : q.cells a = none) (x : α) :
    ∃ q', q.enqueue a x = some q' ∧ q'.Holds (jobs ++ [(a, x)]) ∧
      ∀ b, b ≠ a → b ∉ jobs.map Prod.fst → q'.cells b = q.cells b := by
  have hnew : a ∉ jobs.map Prod.fst := by
    intro hmem
    obtain ⟨e, he, rfl⟩ := List.mem_map.mp hmem
    obtain ⟨next, hcell⟩ := h.chain.mem he
    rw [hfresh] at hcell
    cases hcell
  have hnodup : ((jobs ++ [(a, x)]).map Prod.fst).Nodup := by
    rw [List.map_append, List.map_singleton, List.nodup_append_comm]
    exact List.nodup_cons.mpr ⟨hnew, h.nodup⟩
  rcases List.eq_nil_or_concat jobs with rfl | ⟨init, e, rfl⟩
  · refine ⟨_, by rw [LinkedQueue.enqueue, h.tail_eq_none_iff.mpr rfl],
      ⟨⟨rfl, none, Function.update_self .., rfl⟩, rfl, hnodup⟩, fun b hb _ ↦ ?_⟩
    exact Function.update_of_ne hb ..
  · rw [List.concat_eq_append] at h hnodup hnew ⊢
    have htail : q.tail = some e.1 := by simpa using h.tail_eq
    obtain ⟨next, hcell⟩ := h.chain.mem (List.mem_append_right init List.mem_cons_self)
    have hne : e.1 ≠ a := by
      rintro rfl
      exact hnew (by simp)
    refine ⟨⟨Function.update (Function.update q.cells a (some ⟨x, none⟩)) e.1 (some ⟨e.2, some a⟩),
      q.head, some a⟩, ?_, ⟨h.chain.snoc h.nodup hfresh, ?_, hnodup⟩, fun b hb hmem ↦ ?_⟩
    · rw [LinkedQueue.enqueue, htail]
      simp only [Function.update_of_ne hne, hcell, Option.map_some]
    · simp
    · have hbe : b ≠ e.1 := by
        rintro rfl
        exact hmem (by simp)
      dsimp only
      rw [Function.update_of_ne hbe, Function.update_of_ne hb]

theorem dequeue {e : ℕ × α} {rest : List (ℕ × α)} (h : q.Holds (e :: rest)) :
    ∃ q', q.dequeue = some (e, q') ∧ q'.Holds rest ∧ q'.cells = q.cells := by
  obtain ⟨hhead, next, hcell, hrest⟩ := h.chain
  refine ⟨⟨q.cells, next, if next = none then none else q.tail⟩, ?_, ⟨hrest, ?_, ?_⟩, rfl⟩
  · rw [LinkedQueue.dequeue, hhead, Option.bind_some, hcell, Option.map_some]
  · have hnext := hrest.head_eq
    cases rest with
    | nil => simp [hnext]
    | cons d rest => simpa [hnext] using h.tail_eq
  · exact (List.nodup_cons.mp h.nodup).2

/-- Cells outside the queue may change. -/
theorem congr {q' : LinkedQueue α} (h : q.Holds jobs) (hhead : q'.head = q.head)
    (htail : q'.tail = q.tail) (hsame : ∀ e ∈ jobs, q'.cells e.1 = q.cells e.1) :
    q'.Holds jobs :=
  ⟨hhead ▸ h.chain.congr hsame, htail.trans h.tail_eq, h.nodup⟩

end Holds

end LinkedQueue

end TinyCPlus.Library
