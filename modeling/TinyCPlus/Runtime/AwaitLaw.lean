import TinyCPlus.Runtime.AwaitRuns

/-!
# The ownership of an awaited task

An await of a stored task leaves its owner the reference, and an await of a
temporary gives back the one reference that there is.  The code of an await
gives back one reference and takes one only for a name or a member.
-/

namespace TinyCPlus.Runtime

open TinyCPlus.Library

variable {ι H : Type*} [DecidableEq ι] [DecidableEq H]

/-- What an await is to add to the references of its future. -/
def Operand.promised (a : Operand) : Option ℤ :=
  a.denotes.map fun
    | .stored => 0
    | .temporary => -1

/-- The await `w` of the future `h` kept to the ownership that its operand
has: every count is what it would be without the await, but for the reference
of a temporary, and a future that the await freed had no owner left. -/
structure Kept (s : AwaitSystem ι H) (w : ℕ) (a : Operand) (h : H) : Prop where
  own : ∀ n, a.promised = some n → ∀ h', contribution w h' s.history = if h' = h then n else 0
  count : ∀ n, a.promised = some n → ∀ h', (s.futures h').refs =
    ((without w h' s.history + if h' = h then n else 0 : ℤ) : BitVec 64)
  owner : a.denotes = some .stored → ∀ pre h' post,
    s.history = pre ++ .released (some w) h' true :: post →
      ((without w h' pre : ℤ) : BitVec 64) = 0

/-- An element of an array, a slice or an `Array`, or what a pointer points to. -/
def Operand.Indirect (a : Operand) : Prop :=
  a.kind = .index ∨ a.kind = .unary ∧ a.text = "*"

/-- The retain fits the ownership of every operand but the indirect ones. -/
theorem promised_eq_iff (a : Operand) :
    (∀ n, a.promised = some n → (if a.retained then 0 else -1) = n) ↔ ¬ a.Indirect := by
  obtain ⟨kind, text, getter, type⟩ := a
  cases kind <;> cases getter <;>
    simp [Operand.promised, Operand.denotes, Operand.retained, Operand.Indirect]

theorem retained_of_stored {a : Operand} (hstored : a.denotes = some .stored)
    (ha : ¬ a.Indirect) : a.retained = true := by
  obtain ⟨kind, text, getter, type⟩ := a
  cases kind <;> cases getter <;>
    simp_all [Operand.denotes, Operand.retained, Operand.Indirect]

namespace AwaitSystem

/-- An async function that awaits `tasks[i]`. -/
def awaitsElement : AsyncFunction where
  awaits := [⟨.index, "", false, .named "Task" [.other]⟩]
  checked := by simp [Operand.check]

/-- An async function that awaits a variable. -/
def awaitsVariable : AsyncFunction where
  awaits := [⟨.id, "", false, .named "Task" [.other]⟩]
  checked := by simp [Operand.check]

/-- A task of somebody else that is awaited before it is complete, and that
fails; its owner destroys it afterwards. -/
def awaitedTask (f : AsyncFunction) (statements : ℕ) : List (AwaitEvent ℕ ℕ) :=
  [.create 1, .call 0 f 2, .runJob 0, .evaluate 0 0 1] ++
    List.replicate statements (.exec 0 true) ++ [.complete 1 4, .runJob 0] ++
      List.replicate 5 (.exec 0 true) ++ [.finish 0 0, .release 1]

end AwaitSystem

end TinyCPlus.Runtime
