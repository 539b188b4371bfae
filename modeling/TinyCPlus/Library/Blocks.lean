import TinyCPlus.Library.Effects

/-!
# Ownership of allocated blocks

A heap knows the blocks that are allocated.  Freeing or using a block that is not
allocated leaves nothing.  A triple says that a computation needs the blocks it is given
and no others, that it does not fail, and which blocks it leaves; whatever else is
allocated stays so.
-/

namespace TinyCPlus.Library

/-- The allocated blocks; `next` is the next new one. -/
structure Heap where
  next : ℕ
  live : Multiset ℕ
  below : ∀ a ∈ live, a < next
  nodup : live.Nodup

namespace Heap

def empty : Heap := ⟨0, 0, fun _ h ↦ absurd h (Multiset.notMem_zero _), Multiset.nodup_zero⟩

def grow (h : Heap) : Heap where
  next := h.next + 1
  live := h.next ::ₘ h.live
  below a ha := by
    rcases Multiset.mem_cons.mp ha with rfl | ha
    · exact Nat.lt_succ_self _
    · exact (h.below a ha).trans (Nat.lt_succ_self _)
  nodup := Multiset.nodup_cons.mpr ⟨fun hmem ↦ lt_irrefl _ (h.below _ hmem), h.nodup⟩

def erase (h : Heap) (a : ℕ) : Heap where
  next := h.next
  live := h.live.erase a
  below b hb := h.below b (Multiset.mem_of_mem_erase hb)
  nodup := h.nodup.erase a

end Heap

namespace Blocks

/-- `malloc` -/
def alloc : Effect Heap ℕ := fun h ↦ some (h.next, h.grow)

/-- `free` of a block. -/
def free (a : ℕ) : Effect Heap Unit := fun h ↦ if a ∈ h.live then some ((), h.erase a) else none

/-- An access to a block. -/
def use (a : ℕ) : Effect Heap Unit := fun h ↦ if a ∈ h.live then some ((), h) else none

/-- `free` of a pointer that may be null. -/
def freeOpt (p : Option ℕ) : Effect Heap Unit := p.elim (pure ()) free

/-- An access that happens if the pointer is not null. -/
def useOpt (p : Option ℕ) : Effect Heap Unit := p.elim (pure ()) use

def realloc (p : Option ℕ) : Effect Heap ℕ := do
  let a ← alloc
  freeOpt p
  pure a

/-- The block of a pointer. -/
def ofOpt (p : Option ℕ) : Multiset ℕ := p.elim 0 ({·})

@[simp] theorem ofOpt_none : ofOpt none = 0 := rfl

@[simp] theorem ofOpt_some (a : ℕ) : ofOpt (some a) = {a} := rfl

end Blocks

open Blocks

variable {α β : Type}

/-- From the blocks `pre` the computation leaves blocks that `post` allows. -/
def Triple (pre : Multiset ℕ) (m : Effect Heap α) (post : α → Multiset ℕ → Prop) : Prop :=
  ∀ h frame, h.live = pre + frame →
    ∃ a h' s, m h = some (a, h') ∧ post a s ∧ h'.live = s + frame

namespace Triple

variable {pre s : Multiset ℕ} {m : Effect Heap α} {post : α → Multiset ℕ → Prop}

theorem pure {a : α} (h : post a s) : Triple s (pure a : Effect Heap α) post :=
  fun heap _ hlive ↦ ⟨a, heap, s, rfl, h, hlive⟩

theorem mono {post' : α → Multiset ℕ → Prop} (h : Triple pre m post)
    (hpost : ∀ a s, post a s → post' a s) : Triple pre m post' := by
  intro heap frame hlive
  obtain ⟨a, heap', s, hrun, ha, hlive'⟩ := h heap frame hlive
  exact ⟨a, heap', s, hrun, hpost a s ha, hlive'⟩

theorem of_eq {pre' : Multiset ℕ} (h : Triple pre m post) (heq : pre' = pre) :
    Triple pre' m post := heq ▸ h

/-- The first computation takes a part of the blocks; the rest is left to the second. -/
theorem bind {p : Multiset ℕ} (rest : Multiset ℕ) {mid : α → Multiset ℕ → Prop}
    {f : α → Effect Heap β} {post : β → Multiset ℕ → Prop} (hm : Triple p m mid)
    (hpre : pre = p + rest) (hf : ∀ a s, mid a s → Triple (s + rest) (f a) post) :
    Triple pre (m >>= f) post := by
  intro heap frame hlive
  rw [hpre, add_assoc] at hlive
  obtain ⟨a, heap₁, s, hrun, ha, hlive₁⟩ := hm heap (rest + frame) hlive
  rw [← add_assoc] at hlive₁
  obtain ⟨b, heap₂, s', hrun', hb, hlive₂⟩ := hf a s ha heap₁ frame hlive₁
  refine ⟨b, heap₂, s', ?_, hb, hlive₂⟩
  rw [Effect.bind_apply, hrun]
  exact hrun'

/-- Blocks that the computation does not need stay. -/
theorem frame {post' : α → Multiset ℕ → Prop} (h : Triple pre m post) (rest : Multiset ℕ)
    (hpost : ∀ a s, post a s → post' a (s + rest)) : Triple (pre + rest) m post' := by
  intro heap others hlive
  obtain ⟨a, heap', s, hrun, ha, hlive'⟩ := h heap (rest + others) (hlive.trans (add_assoc _ _ _))
  exact ⟨a, heap', s + rest, hrun, hpost a s ha, hlive'.trans (add_assoc _ _ _).symm⟩

theorem alloc : Triple 0 alloc fun a s ↦ s = {a} := by
  intro heap frame hlive
  rw [zero_add] at hlive
  refine ⟨heap.next, heap.grow, {heap.next}, rfl, rfl, ?_⟩
  rw [Multiset.singleton_add, ← hlive]
  rfl

theorem free (a : ℕ) : Triple {a} (free a) fun _ s ↦ s = 0 := by
  intro heap frame hlive
  rw [Multiset.singleton_add] at hlive
  have hmem : a ∈ heap.live := hlive ▸ Multiset.mem_cons_self a frame
  refine ⟨(), heap.erase a, 0, if_pos hmem, rfl, ?_⟩
  change heap.live.erase a = 0 + frame
  rw [hlive, Multiset.erase_cons_head, zero_add]

theorem freeOpt (p : Option ℕ) : Triple (ofOpt p) (freeOpt p) fun _ s ↦ s = 0 := by
  cases p with
  | none => exact pure rfl
  | some a => exact free a

theorem realloc (p : Option ℕ) : Triple (ofOpt p) (realloc p) fun a s ↦ s = {a} := by
  apply bind (ofOpt p) alloc (zero_add _).symm
  rintro a _ rfl
  apply bind {a} (freeOpt p) (add_comm _ _)
  rintro - _ rfl
  exact pure (zero_add _)

/-- An access to one of the blocks. -/
theorem use {a : ℕ} (h : a ∈ pre) : Triple pre (Blocks.use a) fun _ s ↦ s = pre := by
  intro heap frame hlive
  have hmem : a ∈ heap.live := hlive ▸ Multiset.mem_add.mpr (.inl h)
  exact ⟨(), heap, pre, if_pos hmem, rfl, hlive⟩

theorem useOpt {p : Option ℕ} (h : ofOpt p ≤ pre) :
    Triple pre (Blocks.useOpt p) fun _ s ↦ s = pre := by
  cases p with
  | none => exact pure rfl
  | some a => exact use (Multiset.singleton_le.mp h)

/-- A computation that keeps the blocks comes first. -/
theorem keep {f : α → Effect Heap β} {post : β → Multiset ℕ → Prop}
    (hm : Triple pre m fun _ s ↦ s = pre) (hf : ∀ a, Triple pre (f a) post) :
    Triple pre (m >>= f) post := by
  apply bind 0 hm (add_zero pre).symm
  rintro a _ rfl
  rw [add_zero]
  exact hf a

/-- Every turn of the loop takes the blocks of its element, and `kept` stays. -/
theorem forM {r : α → Multiset ℕ} {f : α → Effect Heap Unit} {xs : List α} {kept : Multiset ℕ}
    (h : ∀ x ∈ xs, Triple (kept + r x) (f x) fun _ s ↦ s = kept) :
    Triple (kept + (xs.map r).sum) (xs.forM f) fun _ s ↦ s = kept := by
  induction xs with
  | nil => exact pure (add_zero kept)
  | cons x xs ih =>
      have hrun : (x :: xs).forM f = f x >>= fun _ ↦ xs.forM f := rfl
      rw [List.map_cons, List.sum_cons, hrun]
      apply bind (xs.map r).sum (h x List.mem_cons_self) (add_assoc _ _ _).symm
      rintro - _ rfl
      exact ih fun y hy ↦ h y (List.mem_cons_of_mem x hy)

/-- What is left when the computation has all the blocks it needs. -/
theorem run (h : Triple pre m post) {heap : Heap} (hlive : heap.live = pre) :
    ∃ a heap', m heap = some (a, heap') ∧ post a heap'.live := by
  obtain ⟨a, heap', s, hrun, hpost, hlive'⟩ := h heap 0 (hlive.trans (add_zero pre).symm)
  rw [add_zero] at hlive'
  exact ⟨a, heap', hrun, hlive'.symm ▸ hpost⟩

end Triple

end TinyCPlus.Library
