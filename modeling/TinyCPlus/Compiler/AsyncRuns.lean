import TinyCPlus.Compiler.AsyncFunction

/-!
# The step function goes on where it was left

Every state has one label in the code, jumps and loops are in order, and so the step function,
left at every await that is not ready and entered again by its state, runs as one that waits
at its awaits.
-/

namespace TinyCPlus.Compiler.Async

open Library.Resumable
open Unwinding (Cleanup registers)

/-! ## The generator -/

theorem bind_eq_some {α β : Type} {x : Gen α} {f : α → Gen β} {c c'' : Counters} {b : β} :
    (x >>= f) c = some (b, c'') ↔ ∃ a c', x c = some (a, c') ∧ f a c' = some (b, c'') := by
  constructor
  · intro h
    obtain ⟨⟨a, c'⟩, hx, hf⟩ := Option.bind_eq_some_iff.mp h
    exact ⟨a, c', hx, hf⟩
  · rintro ⟨a, c', hx, hf⟩
    exact Option.bind_eq_some_iff.mpr ⟨(a, c'), hx, hf⟩

theorem pure_eq_some {α : Type} {a b : α} {c c' : Counters} :
    (pure a : Gen α) c = some (b, c') ↔ a = b ∧ c = c' := by
  constructor
  · intro h
    cases h
    exact ⟨rfl, rfl⟩
  · rintro ⟨rfl, rfl⟩
    rfl

/-- The number of a label: a state or the number of its loop. -/
def number : Label → ℕ
  | .named (.brk id) => id
  | .named (.cont id) => id
  | .state k => k

/-- The label is from between the counters. -/
def Between (c c' : Counters) : Label → Prop
  | .state k => c.states < k ∧ k ≤ c'.states
  | l => c.serial < number l ∧ number l ≤ c'.serial

/-- The labels made between two values of the counters: none twice, and one for every state. -/
structure Within (c c' : Counters) (labels : List Label) : Prop where
  serial_le : c.serial ≤ c'.serial
  states_le : c.states ≤ c'.states
  nodup : labels.Nodup
  between : ∀ l ∈ labels, Between c c' l
  all : ∀ k, c.states < k → k ≤ c'.states → .state k ∈ labels

namespace Within

variable {c c' c'' : Counters} {a b : List Label}

theorem nil (c : Counters) : Within c c [] where
  serial_le := le_rfl
  states_le := le_rfl
  nodup := List.nodup_nil
  between := nofun
  all _ hlow hhigh := absurd hlow (not_lt.mpr hhigh)

theorem mono_left {l : Label} (h : Between c c' l)
    (hserial : c'.serial ≤ c''.serial) (hstates : c'.states ≤ c''.states) : Between c c'' l := by
  cases l with
  | state k => exact ⟨h.1, h.2.trans hstates⟩
  | named g => exact ⟨h.1, h.2.trans hserial⟩

theorem mono_right {l : Label} (h : Between c' c'' l)
    (hserial : c.serial ≤ c'.serial) (hstates : c.states ≤ c'.states) : Between c c'' l := by
  cases l with
  | state k => exact ⟨hstates.trans_lt h.1, h.2⟩
  | named g => exact ⟨hserial.trans_lt h.1, h.2⟩

/-- Labels made one after the other are different. -/
theorem between_ne {l : Label} (h : Between c c' l) (h' : Between c' c'' l) :
    False := by
  cases l with
  | state k => exact absurd h.2 (not_le.mpr h'.1)
  | named g => exact absurd h.2 (not_le.mpr h'.1)

theorem append (h : Within c c' a) (h' : Within c' c'' b) : Within c c'' (a ++ b) where
  serial_le := h.serial_le.trans h'.serial_le
  states_le := h.states_le.trans h'.states_le
  nodup := h.nodup.append h'.nodup fun l ha hb ↦ between_ne (h.between l ha) (h'.between l hb)
  between l hl := by
    rcases List.mem_append.mp hl with hl | hl
    · exact mono_left (h.between l hl) h'.serial_le h'.states_le
    · exact mono_right (h'.between l hl) h.serial_le h.states_le
  all k hlow hhigh := by
    rcases le_or_gt k c'.states with hk | hk
    · exact List.mem_append_left _ (h.all k hlow hk)
    · exact List.mem_append_right _ (h'.all k hk hhigh)

theorem perm (h : Within c c' a) (hab : a.Perm b) : Within c c' b where
  serial_le := h.serial_le
  states_le := h.states_le
  nodup := hab.nodup h.nodup
  between l hl := h.between l (hab.mem_iff.mpr hl)
  all k hlow hhigh := hab.mem_iff.mp (h.all k hlow hhigh)

/-- A new temporary has no label. -/
theorem serial {n : ℕ} (h : Async.serial c = some (n, c')) : Within c c' [] := by
  cases h
  exact ⟨Nat.le_succ _, le_rfl, List.nodup_nil, nofun,
    fun k hlow hhigh ↦ absurd hlow (not_lt.mpr hhigh)⟩

/-- The labels of a new loop. -/
theorem loop {id : ℕ} (h : Async.serial c = some (id, c')) :
    Within c c' [.named (.cont id), .named (.brk id)] := by
  cases h
  refine ⟨Nat.le_succ _, le_rfl, by simp, fun l hl ↦ ?_,
    fun k hlow hhigh ↦ absurd hlow (not_lt.mpr hhigh)⟩
  simp only [List.mem_cons, List.not_mem_nil, or_false] at hl
  rcases hl with rfl | rfl
  · exact ⟨Nat.lt_succ_self _, le_rfl⟩
  · exact ⟨Nat.lt_succ_self _, le_rfl⟩

/-- The label of a new state. -/
theorem state {k : ℕ} (h : Async.state c = some (k, c')) : Within c c' [.state k] := by
  cases h
  refine ⟨le_rfl, Nat.le_succ _, List.nodup_singleton _, fun l hl ↦ ?_, fun k hlow hhigh ↦ ?_⟩
  · rw [List.mem_singleton] at hl
    subst hl
    exact ⟨Nat.lt_succ_self _, le_rfl⟩
  · have hk : k = c.states + 1 := le_antisymm hhigh hlow
    rw [hk]
    exact List.mem_singleton_self _

end Within

/-! ## Pieces of code -/

/-- What the generator emits between two values of the counters: every jump has its label or
leaves one of the loops around, and every exit of a loop has a loop around it. -/
structure Emitted {A : Type} (loops : List ℕ) (c c' : Counters) (code : List (Code A)) :
    Prop where
  within : Within c c' (labelsAll code)
  jumps : ∀ g ∈ jumpsAll code, .named g ∈ labelsAll code ∨ ∃ id ∈ loops, g = .brk id ∨ g = .cont id
  exits : ∀ inside, exitsAll inside code = true

namespace Emitted

variable {A : Type} {loops loops' : List ℕ} {c c' c'' : Counters} {a b : List (Code A)}

theorem nil : Emitted (A := A) loops c c [] := ⟨Within.nil c, nofun, fun _ ↦ rfl⟩

theorem append (h : Emitted loops c c' a) (h' : Emitted loops c' c'' b) :
    Emitted loops c c'' (a ++ b) where
  within := by
    rw [labelsAll_append]
    exact h.within.append h'.within
  jumps g hg := by
    rw [jumpsAll_append, List.mem_append] at hg
    rw [labelsAll_append, List.mem_append]
    rcases hg with hg | hg
    · exact (h.jumps g hg).imp_left Or.inl
    · exact (h'.jumps g hg).imp_left Or.inr
  exits inside := by rw [exitsAll_append, h.exits, h'.exits]; rfl

theorem weaken (h : Emitted loops c c' a) (hloops : loops ⊆ loops') : Emitted loops' c c' a where
  within := h.within
  jumps g hg := (h.jumps g hg).imp_right fun ⟨id, hid, hg⟩ ↦ ⟨id, hloops hid, hg⟩
  exits := h.exits

/-- The same pieces put together in another way. -/
theorem rearrange (h : Emitted loops c c' a) (hlabels : (labelsAll a).Perm (labelsAll b))
    (hjumps : jumpsAll b ⊆ jumpsAll a) (hexits : ∀ inside, exitsAll inside b = true) :
    Emitted loops c c' b where
  within := h.within.perm hlabels
  jumps g hg := (h.jumps g (hjumps hg)).imp_left hlabels.mem_iff.mp
  exits := hexits

/-- The jumps out of a loop have the labels of the loop. -/
theorem close {id : ℕ} (h : Emitted (id :: loops) c c' a) (hcont : .named (.cont id) ∈ labelsAll a)
    (hbrk : .named (.brk id) ∈ labelsAll a) : Emitted loops c c' a where
  within := h.within
  jumps g hg := by
    rcases h.jumps g hg with hlabel | ⟨id', hid', hg'⟩
    · exact Or.inl hlabel
    · rcases List.mem_cons.mp hid' with rfl | hid'
      · rcases hg' with rfl | rfl
        · exact Or.inl hbrk
        · exact Or.inl hcont
      · exact Or.inr ⟨id', hid', hg'⟩
  exits := h.exits

theorem line (l : Line A) : Emitted loops c c [.line l] := ⟨Within.nil c, nofun, fun _ ↦ rfl⟩

theorem finish (l : Line A) : Emitted loops c c [.finish l] := ⟨Within.nil c, nofun, fun _ ↦ rfl⟩

theorem goto {g : Unwinding.Label} {id : ℕ} (hid : id ∈ loops) (hg : g = .brk id ∨ g = .cont id) :
    Emitted (A := A) loops c c [.goto g] := by
  refine ⟨Within.nil c, fun g' hg' ↦ Or.inr ⟨id, hid, ?_⟩, fun _ ↦ rfl⟩
  rw [List.mem_singleton.mp hg']
  exact hg

theorem block (h : Emitted loops c c' a) : Emitted loops c c' [.block a] := by
  refine h.rearrange ?_ ?_ ?_
  · simp [Library.Resumable.Code.labels]
  · simp [Library.Resumable.Code.jumps]
  · intro inside
    simp [Library.Resumable.Code.exits, h.exits]

theorem cond (t : Test A) (ha : Emitted loops c c' a) (hb : Emitted loops c' c'' b) :
    Emitted loops c c'' [.cond t a b] := by
  refine (ha.append hb).rearrange ?_ ?_ ?_
  · simp [Library.Resumable.Code.labels]
  · simp [Library.Resumable.Code.jumps]
  · intro inside
    simp [Library.Resumable.Code.exits, ha.exits, hb.exits]

/-- New counters without code. -/
theorem serial {n : ℕ} (h : Async.serial c = some (n, c')) : Emitted (A := A) loops c c' [] :=
  ⟨Within.serial h, nofun, fun _ ↦ rfl⟩

end Emitted

/-! ## Expressions -/

section Expressions

variable {A : Type} {cleanup : Gen (List (Code A))}

/-- What is left to run has no jumps and its states are new. -/
def Cleans (cleanup : Gen (List (Code A))) : Prop :=
  ∀ {c c' : Counters} {code : List (Code A)}, cleanup c = some (code, c') → Emitted [] c c' code

theorem saved_emitted {void : Bool} {r r' : List (Code A) × Text A} {c c' c'' : Counters}
    (hr : Emitted [] c c' r.1) (h : saved void r c' = some (r', c'')) : Emitted [] c c'' r'.1 := by
  rw [saved] at h
  split at h
  · obtain ⟨rfl, rfl⟩ := pure_eq_some.mp h
    exact hr.append (.line _)
  · obtain ⟨n, c₁, hn, h⟩ := bind_eq_some.mp h
    obtain ⟨rfl, rfl⟩ := pure_eq_some.mp h
    have hall := (hr.append (.serial hn)).append (.line (.define n r.2))
    rwa [List.append_nil] at hall

theorem resultTemp_emitted {void : Bool} {n : Option ℕ} {c c' : Counters}
    (h : resultTemp void c = some (n, c')) :
    Emitted (A := A) [] c c' (n.toList.map fun n ↦ .line (.zero n)) := by
  rw [resultTemp] at h
  split at h
  · obtain ⟨rfl, rfl⟩ := pure_eq_some.mp h
    exact .nil
  · obtain ⟨n, c₁, hn, h⟩ := bind_eq_some.mp h
    obtain ⟨rfl, rfl⟩ := pure_eq_some.mp h
    exact (Emitted.serial hn).append (.line (.zero n))

mutual

theorem expression_emitted (hclean : Cleans cleanup) : ∀ (a : Expr A) {c c' : Counters}
    {r : List (Code A) × Text A}, expression cleanup a c = some (r, c') → Emitted [] c c' r.1
  | .leaf a, c, c', r, h => by
      rw [expression] at h
      obtain ⟨rfl, rfl⟩ := pure_eq_some.mp h
      exact .nil
  | .apply f void args, c, c', r, h => by
      rw [expression] at h
      obtain ⟨ra, c₁, ha, h⟩ := bind_eq_some.mp h
      obtain ⟨rfl, rfl⟩ := pure_eq_some.mp h
      exact operands_emitted hclean args ha
  | .logic or a b, c, c', r, h => by
      rw [expression] at h
      obtain ⟨ra, c₁, ha, h⟩ := bind_eq_some.mp h
      obtain ⟨a', c₂, hsaved, h⟩ := bind_eq_some.mp h
      obtain ⟨n, c₃, hn, h⟩ := bind_eq_some.mp h
      obtain ⟨rb, c₄, hb, h⟩ := bind_eq_some.mp h
      obtain ⟨b', c₅, hsaved', h⟩ := bind_eq_some.mp h
      obtain ⟨rfl, rfl⟩ := pure_eq_some.mp h
      have hleft := saved_emitted (expression_emitted hclean a ha) hsaved
      have hright := saved_emitted (expression_emitted hclean b hb) hsaved'
      have hfront := (hleft.append (.serial hn)).append (.line (.truth n a'.2))
      rw [List.append_nil] at hfront
      have hall := hfront.append
        (Emitted.cond (if or then .fails (.temp n) else .holds (.temp n))
          (hright.append (.line (.truth n b'.2))) .nil)
      rwa [List.append_assoc] at hall
  | .await task void named, c, c', r, h => by
      rw [expression] at h
      obtain ⟨k, c₁, hk, h⟩ := bind_eq_some.mp h
      obtain ⟨ra, c₂, ha, h⟩ := bind_eq_some.mp h
      obtain ⟨a', c₃, hsaved, h⟩ := bind_eq_some.mp h
      obtain ⟨n, c₄, hn, h⟩ := bind_eq_some.mp h
      obtain ⟨clean, c₅, hcleanup, h⟩ := bind_eq_some.mp h
      obtain ⟨rfl, rfl⟩ := pure_eq_some.mp h
      have htask := saved_emitted (expression_emitted hclean task ha) hsaved
      have hstate : Emitted (A := A) [] c c₁ [.suspend k] :=
        ⟨Within.state hk, nofun, fun _ ↦ rfl⟩
      have hresult := resultTemp_emitted (A := A) hn
      have herror := Emitted.cond (A := A) .error
        ((hclean hcleanup).append (.finish .fail)) .nil
      refine (((hstate.append htask).append hresult).append herror).rearrange ?_ ?_ ?_
      · simp [Library.Resumable.Code.labels]
        exact List.perm_middle.symm
      · simp [Library.Resumable.Code.jumps]
      · intro inside
        simp [Library.Resumable.Code.exits, htask.exits, hresult.exits, herror.exits]

theorem operands_emitted (hclean : Cleans cleanup) : ∀ (args : List (Bool × Expr A))
    {c c' : Counters} {r : List (Code A) × List (Text A)},
      operands cleanup args c = some (r, c') → Emitted [] c c' r.1
  | [], c, c', r, h => by
      rw [operands] at h
      obtain ⟨rfl, rfl⟩ := pure_eq_some.mp h
      exact .nil
  | (byValue, a) :: rest, c, c', r, h => by
      rw [operands] at h
      obtain ⟨ra, c₁, ha, h⟩ := bind_eq_some.mp h
      obtain ⟨a', c₂, hsaved, h⟩ := bind_eq_some.mp h
      obtain ⟨r', c₃, hrest, h⟩ := bind_eq_some.mp h
      obtain ⟨rfl, rfl⟩ := pure_eq_some.mp h
      have hfirst : Emitted [] c c₂ a'.1 := by
        split at hsaved
        · exact saved_emitted (expression_emitted hclean a ha) hsaved
        · obtain ⟨rfl, rfl⟩ := pure_eq_some.mp hsaved
          exact expression_emitted hclean a ha
      exact hfirst.append (operands_emitted hclean rest hrest)

end

end Expressions

/-! ## Clean-up code -/

section Cleanups

variable {A : Type} {F : Facts A}

theorem value_emitted {cleanup : Gen (List (Code A))} (hclean : Cleans cleanup) {a : Expr A}
    {c c' : Counters} {r : List (Code A) × Text A} (h : value cleanup a c = some (r, c')) :
    Emitted [] c c' r.1 := by
  rw [value] at h
  obtain ⟨ra, c₁, ha, h⟩ := bind_eq_some.mp h
  exact saved_emitted (expression_emitted hclean a ha) h

theorem cleanupLine_emitted {cleanup : Gen (List (Code A))} (hclean : Cleans cleanup)
    {returning : Option (Expr A)} {p : Cleanup (Expr A)} {c c' : Counters} {code : List (Code A)}
    (h : cleanupLine F cleanup returning p c = some (code, c')) : Emitted [] c c' code := by
  cases p with
  | defer a =>
      rw [cleanupLine] at h
      obtain ⟨ra, c₁, ha, h⟩ := bind_eq_some.mp h
      obtain ⟨rfl, rfl⟩ := pure_eq_some.mp h
      exact (expression_emitted hclean a ha).append (.line _)
  | drop l =>
      rw [cleanupLine] at h
      obtain ⟨rfl, rfl⟩ := pure_eq_some.mp h
      split
      · exact .nil
      · exact .line _

theorem cleanupLines_emitted {cleanup : Gen (List (Code A))} (hclean : Cleans cleanup)
    {returning : Option (Expr A)} {part : List (Cleanup (Expr A))} {c c' : Counters}
    {code : List (Code A)} (h : cleanupLines F cleanup returning part c = some (code, c')) :
    Emitted [] c c' code := by
  induction part generalizing c code with
  | nil =>
      rw [cleanupLines] at h
      obtain ⟨rfl, rfl⟩ := pure_eq_some.mp h
      exact .nil
  | cons p rest ih =>
      rw [cleanupLines] at h
      obtain ⟨first, c₁, hfirst, h⟩ := bind_eq_some.mp h
      obtain ⟨others, c₂, hothers, h⟩ := bind_eq_some.mp h
      obtain ⟨rfl, rfl⟩ := pure_eq_some.mp h
      exact (cleanupLine_emitted hclean hfirst).append (ih hothers)

theorem cleans_cleanupEmit (returning : Option (Expr A)) (all : List (Cleanup (Expr A)))
    (fuel : ℕ) (part : List (Cleanup (Expr A))) : Cleans (cleanupEmit F returning all fuel part) := by
  induction fuel generalizing part with
  | zero =>
      intro c c' code h
      cases h
  | succ fuel ih =>
      intro c c' code h
      exact cleanupLines_emitted (ih all) h

end Cleanups

/-! ## Statements -/

section Statements

variable {A : Type} {F : Facts A} {fuel : ℕ}

/-- The loops that jumps may leave. -/
def around (loop : Option (ℕ × List (Cleanup (Expr A)))) : List ℕ := loop.toList.map Prod.fst

theorem scopedCode_emitted {loops : List ℕ} {cleanup : List (Cleanup (Expr A))} {s : Stmt (Expr A)}
    {r : List (Code A) × List (Cleanup (Expr A))} {c c' c'' : Counters} {code : List (Code A)}
    (hr : Emitted loops c c' r.1) (h : scopedCode F fuel cleanup s r c' = some (code, c'')) :
    Emitted loops c c'' code := by
  have hscope (h : (do
      let clean ← cleanupTo F fuel r.2 cleanup
      pure [.block (r.1 ++ clean)] : Gen (List (Code A))) c' = some (code, c'')) :
      Emitted loops c c'' code := by
    obtain ⟨clean, c₁, hclean, h⟩ := bind_eq_some.mp h
    obtain ⟨rfl, rfl⟩ := pure_eq_some.mp h
    have hcleanup := cleans_cleanupEmit (F := F) none r.2 fuel _ hclean
    exact (hr.append (hcleanup.weaken (List.nil_subset _))).block
  cases s with
  | block body =>
      obtain ⟨rfl, rfl⟩ := pure_eq_some.mp h
      exact hr
  | _ => exact hscope h

theorem valueOption_emitted {cleanup : Gen (List (Code A))} (hclean : Cleans cleanup)
    {a : Option (Expr A)} {c c' : Counters} {r : List (Code A) × Option (Text A)}
    (h : valueOption cleanup a c = some (r, c')) : Emitted [] c c' r.1 := by
  cases a with
  | none =>
      obtain ⟨rfl, rfl⟩ := pure_eq_some.mp h
      exact .nil
  | some a =>
      rw [valueOption] at h
      obtain ⟨ra, c₁, ha, h⟩ := bind_eq_some.mp h
      obtain ⟨rfl, rfl⟩ := pure_eq_some.mp h
      exact value_emitted hclean ha

theorem expressionOption_emitted {cleanup : Gen (List (Code A))} (hclean : Cleans cleanup)
    {a : Option (Expr A)} {c c' : Counters} {r : List (Code A) × Option (Text A)}
    (h : expressionOption cleanup a c = some (r, c')) : Emitted [] c c' r.1 := by
  cases a with
  | none =>
      obtain ⟨rfl, rfl⟩ := pure_eq_some.mp h
      exact .nil
  | some a =>
      rw [expressionOption] at h
      obtain ⟨ra, c₁, ha, h⟩ := bind_eq_some.mp h
      obtain ⟨rfl, rfl⟩ := pure_eq_some.mp h
      exact expression_emitted hclean a ha

theorem evalOption_emitted {cleanup : Gen (List (Code A))} (hclean : Cleans cleanup)
    {a : Option (Expr A)} {c c' : Counters} {code : List (Code A)}
    (h : evalOption cleanup a c = some (code, c')) : Emitted [] c c' code := by
  cases a with
  | none =>
      obtain ⟨rfl, rfl⟩ := pure_eq_some.mp h
      exact .nil
  | some a =>
      rw [evalOption] at h
      obtain ⟨ra, c₁, ha, h⟩ := bind_eq_some.mp h
      obtain ⟨rfl, rfl⟩ := pure_eq_some.mp h
      exact (expression_emitted hclean a ha).append (.line _)

/-- The condition of a loop is in order inside of the loop. -/
structure Tested (c c' : Counters) (code : List (Code A)) : Prop where
  within : Within c c' (labelsAll code)
  jumps : ∀ g ∈ jumpsAll code, .named g ∈ labelsAll code
  exits : exitsAll true code = true

theorem Emitted.tested {c c' : Counters} {code : List (Code A)} (h : Emitted [] c c' code) :
    Tested c c' code where
  within := h.within
  jumps g hg := (h.jumps g hg).resolve_right fun ⟨_, hid, _⟩ ↦ List.not_mem_nil hid
  exits := h.exits true

theorem loopTest_tested {cleanup : Gen (List (Code A))} (hclean : Cleans cleanup)
    {a : Option (Expr A)} {c c' : Counters} {code : List (Code A)}
    (h : loopTest cleanup a c = some (code, c')) : Tested c c' code := by
  cases a with
  | none =>
      obtain ⟨rfl, rfl⟩ := pure_eq_some.mp h
      exact Emitted.nil.tested
  | some a =>
      rw [loopTest] at h
      obtain ⟨ra, c₁, ha, h⟩ := bind_eq_some.mp h
      obtain ⟨rfl, rfl⟩ := pure_eq_some.mp h
      have hvalue := (value_emitted hclean ha).tested
      refine ⟨?_, ?_, ?_⟩
      · simpa [Library.Resumable.Code.labels] using hvalue.within
      · simpa [Library.Resumable.Code.jumps, Library.Resumable.Code.labels] using hvalue.jumps
      · simp [Library.Resumable.Code.exits, hvalue.exits]

/-- The pieces of a loop put together. -/
theorem loopCode_emitted {loops : List ℕ} {c c₀ c₁ c₂ c₃ c₄ c₅ : Counters} {id : ℕ}
    {init test body step clean : List (Code A)} (hinit : Emitted loops c c₀ init)
    (hid : serial c₀ = some (id, c₁)) (htest : Tested c₁ c₂ test)
    (hbody : Emitted (id :: loops) c₂ c₃ body) (hstep : Emitted [] c₃ c₄ step)
    (hclean : Emitted [] c₄ c₅ clean) :
    Emitted loops c c₅ (loopCode id init (test ++ body) step clean) := by
  have hlabels : labelsAll (loopCode id init (test ++ body) step clean) =
      labelsAll init ++ (labelsAll test ++ (labelsAll body ++ .named (.cont id) :: labelsAll step)) ++
        .named (.brk id) :: labelsAll clean := by
    simp [loopCode, Library.Resumable.Code.labels]
  have hjumps : jumpsAll (loopCode id init (test ++ body) step clean) =
      jumpsAll init ++ (jumpsAll test ++ (jumpsAll body ++ jumpsAll step)) ++ jumpsAll clean := by
    simp [loopCode, Library.Resumable.Code.jumps]
  refine ⟨?_, fun g hg ↦ ?_, fun inside ↦ ?_⟩
  · rw [hlabels]
    refine ((((((hinit.within.append (.loop hid)).append htest.within).append hbody.within).append
      hstep.within).append hclean.within).perm ?_)
    rw [List.perm_iff_count]
    intro l
    simp only [List.count_append, List.count_cons, List.count_nil]
    omega
  · rw [hlabels]
    rw [hjumps] at hg
    simp only [List.mem_append] at hg
    rcases hg with (hg | hg | hg | hg) | hg
    · exact (hinit.jumps g hg).imp_left fun h ↦ by simp [h]
    · exact Or.inl (by simp [htest.jumps g hg])
    · rcases hbody.jumps g hg with hlabel | ⟨id', hid', hg'⟩
      · exact Or.inl (by simp [hlabel])
      · rcases List.mem_cons.mp hid' with rfl | hid'
        · exact Or.inl (by rcases hg' with rfl | rfl <;> simp)
        · exact Or.inr ⟨id', hid', hg'⟩
    · exact Or.inl (by simp [hstep.tested.jumps g hg])
    · exact Or.inl (by simp [hclean.tested.jumps g hg])
  · simp [loopCode, Library.Resumable.Code.exits, hinit.exits, htest.exits, hbody.exits, hstep.exits,
      hclean.exits]

theorem caseLabels_emitted {cleanup : Gen (List (Code A))} (hclean : Cleans cleanup) :
    ∀ {items : List (Item (Expr A))} {c c' : Counters}
      {r : List (Code A) × List (List (Text A))},
      caseLabels cleanup items c = some (r, c') → Emitted [] c c' r.1
  | [], c, c', r, h => by
      obtain ⟨rfl, rfl⟩ := pure_eq_some.mp h
      exact .nil
  | (some labels, body) :: items, c, c', r, h => by
      rw [caseLabels] at h
      obtain ⟨ra, c₁, ha, h⟩ := bind_eq_some.mp h
      obtain ⟨rb, c₂, hb, h⟩ := bind_eq_some.mp h
      obtain ⟨rfl, rfl⟩ := pure_eq_some.mp h
      exact (operands_emitted hclean _ ha).append (caseLabels_emitted hclean hb)
  | (none, body) :: items, c, c', r, h => by
      rw [caseLabels] at h
      exact caseLabels_emitted hclean h

/-- A chain has the labels and jumps of its blocks and of its fallback, which there is none of
behind a guard. -/
theorem chain_pieces {fallback : List (Code A)} {guard : Bool} (hguard : guard = true → fallback = [])
    (t : Text A) (cases : List (List (Text A) × List (Code A))) :
    labelsAll (chain t guard fallback cases) =
        labelsAll (cases.map Prod.snd).flatten ++ labelsAll fallback ∧
      jumpsAll (chain t guard fallback cases) =
        jumpsAll (cases.map Prod.snd).flatten ++ jumpsAll fallback ∧
      ∀ inside, exitsAll inside (chain t guard fallback cases) =
        (exitsAll inside (cases.map Prod.snd).flatten && exitsAll inside fallback) := by
  induction cases with
  | nil => simp [chain]
  | cons case cases ih =>
      obtain ⟨labels, body⟩ := case
      obtain ⟨hlabels, hjumps, hexits⟩ := ih
      rw [chain]
      split
      · rename_i hlast
        obtain ⟨hg, hempty⟩ := Bool.and_eq_true_iff.mp hlast
        rw [List.isEmpty_iff.mp hempty, hguard hg]
        simp
      · refine ⟨?_, ?_, fun inside ↦ ?_⟩
        · simp [Library.Resumable.Code.labels, hlabels]
        · simp [Library.Resumable.Code.jumps, hjumps]
        · simp [Library.Resumable.Code.exits, hexits, Bool.and_assoc]

theorem length_caseLabels {cleanup : Gen (List (Code A))} :
    ∀ (items : List (Item (Expr A))) {c c' : Counters} {r : List (Code A) × List (List (Text A))},
      caseLabels cleanup items c = some (r, c') →
        r.2.length = (items.filter fun item ↦ item.1.isSome).length
  | [], c, c', r, h => by
      obtain ⟨rfl, rfl⟩ := pure_eq_some.mp h
      rfl
  | (some labels, body) :: items, c, c', r, h => by
      rw [caseLabels] at h
      obtain ⟨ra, c₁, ha, h⟩ := bind_eq_some.mp h
      obtain ⟨rb, c₂, hb, h⟩ := bind_eq_some.mp h
      obtain ⟨rfl, rfl⟩ := pure_eq_some.mp h
      rw [List.length_cons, length_caseLabels items hb]
      rfl
  | (none, body) :: items, c, c', r, h => by
      rw [caseLabels] at h
      exact length_caseLabels items h

theorem length_caseCodes {cleanup : List (Cleanup (Expr A))}
    {loop : Option (ℕ × List (Cleanup (Expr A)))} :
    ∀ (items : List (Item (Expr A))) {c c' : Counters} {r : List (List (Code A))},
      caseCodes F fuel cleanup loop items c = some (r, c') →
        r.length = (items.filter fun item ↦ item.1.isSome).length
  | [], c, c', r, h => by
      obtain ⟨rfl, rfl⟩ := pure_eq_some.mp h
      rfl
  | (some labels, body) :: items, c, c', r, h => by
      rw [caseCodes] at h
      obtain ⟨ra, c₁, ha, h⟩ := bind_eq_some.mp h
      obtain ⟨clean, c₂, hclean, h⟩ := bind_eq_some.mp h
      obtain ⟨rb, c₃, hb, h⟩ := bind_eq_some.mp h
      obtain ⟨rfl, rfl⟩ := pure_eq_some.mp h
      rw [List.length_cons, length_caseCodes items hb]
      rfl
  | (none, body) :: items, c, c', r, h => by
      rw [caseCodes] at h
      exact length_caseCodes items h

/-- Without a default there is no code for it. -/
theorem defaultCode_eq_nil {cleanup : List (Cleanup (Expr A))}
    {loop : Option (ℕ × List (Cleanup (Expr A)))} :
    ∀ {items : List (Item (Expr A))} {c c' : Counters} {code : List (Code A)},
      hasDefault items = false → defaultCode F fuel cleanup loop items c = some (code, c') →
        code = []
  | [], c, c', code, _, h => by
      obtain ⟨rfl, rfl⟩ := pure_eq_some.mp h
      rfl
  | (some labels, body) :: items, c, c', code, hnone, h => by
      rw [defaultCode] at h
      exact defaultCode_eq_nil (by simpa [hasDefault] using hnone) h
  | (none, body) :: items, c, c', code, hnone, h => by
      simp [hasDefault] at hnone

theorem cleanupTo_emitted {all stop : List (Cleanup (Expr A))} {loops : List ℕ} {c c' : Counters}
    {code : List (Code A)} (h : cleanupTo F fuel all stop c = some (code, c')) :
    Emitted loops c c' code :=
  (cleans_cleanupEmit (F := F) none all fuel _ h).weaken (List.nil_subset _)

theorem cleans_cleanupAll (all : List (Cleanup (Expr A))) : Cleans (cleanupAll F fuel all) :=
  cleans_cleanupEmit none all fuel all

mutual

theorem statement_emitted : ∀ (s : Stmt (Expr A)) {cleanup : List (Cleanup (Expr A))}
    {loop : Option (ℕ × List (Cleanup (Expr A)))} {c c' : Counters}
    {r : List (Code A) × List (Cleanup (Expr A))},
      statement F fuel cleanup loop s c = some (r, c') → Emitted (around loop) c c' r.1
  | .block body, cleanup, loop, c, c', r, h => by
      rw [statement] at h
      obtain ⟨ra, c₁, ha, h⟩ := bind_eq_some.mp h
      obtain ⟨clean, c₂, hclean, h⟩ := bind_eq_some.mp h
      obtain ⟨rfl, rfl⟩ := pure_eq_some.mp h
      exact ((blockItems_emitted body ha).append (cleanupTo_emitted hclean)).block
  | .var locals a, cleanup, loop, c, c', r, h => by
      rw [statement] at h
      obtain ⟨ra, c₁, ha, h⟩ := bind_eq_some.mp h
      obtain ⟨rfl, rfl⟩ := pure_eq_some.mp h
      have hvalue : Emitted [] c c₁ ra.1 := by
        split at ha
        · exact valueOption_emitted (cleans_cleanupAll cleanup) ha
        · exact expressionOption_emitted (cleans_cleanupAll cleanup) ha
      exact (hvalue.append (.line _)).weaken (List.nil_subset _)
  | .expr a, cleanup, loop, c, c', r, h => by
      rw [statement] at h
      obtain ⟨ra, c₁, ha, h⟩ := bind_eq_some.mp h
      obtain ⟨rfl, rfl⟩ := pure_eq_some.mp h
      exact (evalOption_emitted (cleans_cleanupAll cleanup) ha).weaken (List.nil_subset _)
  | .ret a, cleanup, loop, c, c', r, h => by
      rw [statement] at h
      obtain ⟨ra, c₁, ha, h⟩ := bind_eq_some.mp h
      obtain ⟨clean, c₂, hclean, h⟩ := bind_eq_some.mp h
      obtain ⟨rfl, rfl⟩ := pure_eq_some.mp h
      exact (((valueOption_emitted (cleans_cleanupAll cleanup) ha).append
        (cleans_cleanupEmit a cleanup fuel cleanup hclean)).append (.finish _)).weaken
          (List.nil_subset _)
  | .ite a body b, cleanup, loop, c, c', r, h => by
      rw [statement.eq_def] at h
      dsimp only at h
      obtain ⟨ra, c₁, ha, h⟩ := bind_eq_some.mp h
      obtain ⟨rb, c₂, hb, h⟩ := bind_eq_some.mp h
      obtain ⟨left, c₃, hleft, h⟩ := bind_eq_some.mp h
      obtain ⟨right, c₄, hright, h⟩ := bind_eq_some.mp h
      obtain ⟨rfl, rfl⟩ := pure_eq_some.mp h
      have hvalue := (value_emitted (cleans_cleanupAll cleanup) ha).weaken
        (List.nil_subset (around loop))
      have hthen := scopedCode_emitted (statement_emitted body hb) hleft
      have helse : Emitted (around loop) c₃ c₄ right := by
        cases b with
        | none =>
            obtain ⟨rfl, rfl⟩ := pure_eq_some.mp hright
            exact .nil
        | some b =>
            obtain ⟨rb', c₅, hb', hright⟩ := bind_eq_some.mp hright
            exact scopedCode_emitted (statement_emitted b hb') hright
      exact hvalue.append (Emitted.cond _ hthen helse)
  | .switch a items, cleanup, loop, c, c', r, h => by
      rw [statement] at h
      obtain ⟨ra, c₁, ha, h⟩ := bind_eq_some.mp h
      obtain ⟨labels, c₂, hlabels, h⟩ := bind_eq_some.mp h
      obtain ⟨cases, c₃, hcases, h⟩ := bind_eq_some.mp h
      obtain ⟨fallback, c₄, hfallback, h⟩ := bind_eq_some.mp h
      obtain ⟨rfl, rfl⟩ := pure_eq_some.mp h
      have hvalue := (value_emitted (cleans_cleanupAll cleanup) ha).weaken
        (List.nil_subset (around loop))
      have hwords := (caseLabels_emitted (cleans_cleanupAll cleanup) hlabels).weaken
        (List.nil_subset (around loop))
      have hblocks := caseCodes_emitted items hcases
      have hdefault := defaultCode_emitted items hfallback
      have hlength : cases.length ≤ labels.2.length := by
        rw [length_caseLabels items hlabels, length_caseCodes items hcases]
      have hguard : (F.isEnum a && !hasDefault items) = true → fallback = [] := fun hg ↦
        defaultCode_eq_nil (by simpa using (Bool.and_eq_true_iff.mp hg).2) hfallback
      obtain ⟨hchain, hjumps, hexits⟩ := chain_pieces hguard ra.2 (labels.2.zip cases)
      rw [List.map_snd_zip hlength] at hchain hjumps hexits
      have hall := ((hvalue.append hwords).append hblocks).append hdefault
      refine hall.rearrange ?_ ?_ fun inside ↦ ?_
      · split <;> simp [hchain, Library.Resumable.Code.labels]
      · split <;> simp [hjumps, Library.Resumable.Code.jumps]
      · split <;> simp [hexits, Library.Resumable.Code.exits, hvalue.exits, hwords.exits,
          hblocks.exits, hdefault.exits]
  | .while a body, cleanup, loop, c, c', r, h => by
      rw [statement] at h
      obtain ⟨id, c₁, hid, h⟩ := bind_eq_some.mp h
      obtain ⟨test, c₂, htest, h⟩ := bind_eq_some.mp h
      obtain ⟨rb, c₃, hb, h⟩ := bind_eq_some.mp h
      obtain ⟨turn, c₄, hturn, h⟩ := bind_eq_some.mp h
      obtain ⟨rfl, rfl⟩ := pure_eq_some.mp h
      have hbody := (scopedCode_emitted (statement_emitted body hb) hturn).weaken
        (List.cons_subset_cons id (List.nil_subset (around loop)))
      exact loopCode_emitted .nil hid (loopTest_tested (cleans_cleanupAll cleanup) htest) hbody
        .nil .nil
  | .for a b d body, cleanup, loop, c, c', r, h => by
      rw [statement.eq_def] at h
      dsimp only at h
      obtain ⟨init, c₀, hinit, h⟩ := bind_eq_some.mp h
      obtain ⟨id, c₁, hid, h⟩ := bind_eq_some.mp h
      obtain ⟨test, c₂, htest, h⟩ := bind_eq_some.mp h
      obtain ⟨rb, c₃, hb, h⟩ := bind_eq_some.mp h
      obtain ⟨turn, c₄, hturn, h⟩ := bind_eq_some.mp h
      obtain ⟨step, c₅, hstep, h⟩ := bind_eq_some.mp h
      obtain ⟨clean, c₆, hclean, h⟩ := bind_eq_some.mp h
      obtain ⟨rfl, rfl⟩ := pure_eq_some.mp h
      have hfirst : Emitted (around loop) c c₀ init.1 := by
        cases a with
        | none =>
            obtain ⟨rfl, rfl⟩ := pure_eq_some.mp hinit
            exact .nil
        | some a => exact statement_emitted a hinit
      have hbody := (scopedCode_emitted (statement_emitted body hb) hturn).weaken
        (List.cons_subset_cons id (List.nil_subset (around loop)))
      exact loopCode_emitted hfirst hid (loopTest_tested (cleans_cleanupAll init.2) htest) hbody
        (evalOption_emitted (cleans_cleanupAll init.2) hstep) (cleanupTo_emitted hclean)
  | .range a body, cleanup, loop, c, c', r, h => by
      rw [statement] at h
      obtain ⟨ra, c₁, ha, h⟩ := bind_eq_some.mp h
      obtain ⟨n, c₂, hn, h⟩ := bind_eq_some.mp h
      obtain ⟨index, c₃, hindex, h⟩ := bind_eq_some.mp h
      obtain ⟨id, c₄, hid, h⟩ := bind_eq_some.mp h
      obtain ⟨rb, c₅, hb, h⟩ := bind_eq_some.mp h
      obtain ⟨turn, c₆, hturn, h⟩ := bind_eq_some.mp h
      obtain ⟨rfl, rfl⟩ := pure_eq_some.mp h
      have hvalue := (expression_emitted (cleans_cleanupAll cleanup) a ha).weaken
        (List.nil_subset (around loop))
      have hinit := ((hvalue.append (.serial hn)).append (.serial hindex)).append
        ((Emitted.line (.define n ra.2)).append (.line (.zero index)))
      rw [List.append_nil, List.append_nil] at hinit
      have htest : Tested c₄ c₄ ([.cond (.atEnd n index) [.breakLoop] [],
          .line (.element n index)] : List (Code A)) :=
        ⟨Within.nil c₄, nofun, rfl⟩
      have hbody := (scopedCode_emitted (statement_emitted body hb) hturn).weaken
        (List.cons_subset_cons id (List.nil_subset (around loop)))
      exact loopCode_emitted hinit hid htest hbody (.line _) .nil
  | .break, cleanup, loop, c, c', r, h => by
      cases loop with
      | none => cases h
      | some outer =>
          rw [statement] at h
          obtain ⟨clean, c₁, hclean, h⟩ := bind_eq_some.mp h
          obtain ⟨rfl, rfl⟩ := pure_eq_some.mp h
          exact (cleanupTo_emitted hclean).append
            (.goto (List.mem_singleton_self outer.1) (Or.inl rfl))
  | .continue, cleanup, loop, c, c', r, h => by
      cases loop with
      | none => cases h
      | some outer =>
          rw [statement] at h
          obtain ⟨clean, c₁, hclean, h⟩ := bind_eq_some.mp h
          obtain ⟨rfl, rfl⟩ := pure_eq_some.mp h
          exact (cleanupTo_emitted hclean).append
            (.goto (List.mem_singleton_self outer.1) (Or.inr rfl))
  | .defer a, cleanup, loop, c, c', r, h => by
      rw [statement] at h
      obtain ⟨rfl, rfl⟩ := pure_eq_some.mp h
      exact .nil
  | .delete a, cleanup, loop, c, c', r, h => by
      rw [statement] at h
      obtain ⟨ra, c₁, ha, h⟩ := bind_eq_some.mp h
      obtain ⟨rfl, rfl⟩ := pure_eq_some.mp h
      exact ((value_emitted (cleans_cleanupAll cleanup) ha).append (.line _)).weaken
        (List.nil_subset _)

theorem blockItems_emitted : ∀ (body : List (Stmt (Expr A))) {cleanup : List (Cleanup (Expr A))}
    {loop : Option (ℕ × List (Cleanup (Expr A)))} {c c' : Counters}
    {r : List (Code A) × List (Cleanup (Expr A))},
      blockItems F fuel cleanup loop body c = some (r, c') → Emitted (around loop) c c' r.1
  | [], cleanup, loop, c, c', r, h => by
      rw [blockItems] at h
      obtain ⟨rfl, rfl⟩ := pure_eq_some.mp h
      exact .nil
  | s :: rest, cleanup, loop, c, c', r, h => by
      rw [blockItems] at h
      obtain ⟨ra, c₁, ha, h⟩ := bind_eq_some.mp h
      obtain ⟨rb, c₂, hb, h⟩ := bind_eq_some.mp h
      obtain ⟨rfl, rfl⟩ := pure_eq_some.mp h
      exact (statement_emitted s ha).append (blockItems_emitted rest hb)

theorem caseCodes_emitted : ∀ (items : List (Item (Expr A))) {cleanup : List (Cleanup (Expr A))}
    {loop : Option (ℕ × List (Cleanup (Expr A)))} {c c' : Counters} {r : List (List (Code A))},
      caseCodes F fuel cleanup loop items c = some (r, c') → Emitted (around loop) c c' r.flatten
  | [], cleanup, loop, c, c', r, h => by
      rw [caseCodes] at h
      obtain ⟨rfl, rfl⟩ := pure_eq_some.mp h
      exact .nil
  | (some labels, body) :: items, cleanup, loop, c, c', r, h => by
      rw [caseCodes] at h
      obtain ⟨ra, c₁, ha, h⟩ := bind_eq_some.mp h
      obtain ⟨clean, c₂, hclean, h⟩ := bind_eq_some.mp h
      obtain ⟨rb, c₃, hb, h⟩ := bind_eq_some.mp h
      obtain ⟨rfl, rfl⟩ := pure_eq_some.mp h
      exact (((blockItems_emitted body ha).append (cleanupTo_emitted hclean)).block).append
        (caseCodes_emitted items hb)
  | (none, body) :: items, cleanup, loop, c, c', r, h => by
      rw [caseCodes] at h
      exact caseCodes_emitted items h

theorem defaultCode_emitted : ∀ (items : List (Item (Expr A)))
    {cleanup : List (Cleanup (Expr A))} {loop : Option (ℕ × List (Cleanup (Expr A)))}
    {c c' : Counters} {code : List (Code A)},
      defaultCode F fuel cleanup loop items c = some (code, c') → Emitted (around loop) c c' code
  | [], cleanup, loop, c, c', code, h => by
      rw [defaultCode] at h
      obtain ⟨rfl, rfl⟩ := pure_eq_some.mp h
      exact .nil
  | (none, body) :: items, cleanup, loop, c, c', code, h => by
      rw [defaultCode] at h
      split at h
      · exact defaultCode_emitted items h
      · obtain ⟨ra, c₁, ha, h⟩ := bind_eq_some.mp h
        obtain ⟨clean, c₂, hclean, h⟩ := bind_eq_some.mp h
        obtain ⟨rfl, rfl⟩ := pure_eq_some.mp h
        exact ((blockItems_emitted body ha).append (cleanupTo_emitted hclean)).block
  | (some labels, body) :: items, cleanup, loop, c, c', code, h => by
      rw [defaultCode] at h
      exact defaultCode_emitted items h

end

end Statements

/-! ## The step function -/

section StepFunction

variable {A σ : Type} {F : Facts A} {fuel : ℕ} {body : List (Stmt (Expr A))} {code : List (Code A)}
  {c : Counters}

theorem asyncFunction_pieces (h : asyncFunction F fuel body ⟨0, 0⟩ = some (code, c)) :
    ∃ rest, code = .label (.state 0) :: rest ∧ Emitted [] ⟨0, 0⟩ c rest ∧
      ∃ front l, rest = front ++ [.finish l] := by
  rw [asyncFunction] at h
  obtain ⟨r, c₁, hr, h⟩ := bind_eq_some.mp h
  obtain ⟨clean, c₂, hclean, h⟩ := bind_eq_some.mp h
  obtain ⟨rfl, rfl⟩ := pure_eq_some.mp h
  refine ⟨r.1 ++ clean ++ [.finish (.finish none)], rfl, ?_, r.1 ++ clean, .finish none, rfl⟩
  exact ((blockItems_emitted body hr).append (cleans_cleanupAll r.2 hclean)).append (.finish _)

/-- Every case of the `switch` has one label, and no label stands twice. -/
theorem asyncFunction_labels (h : asyncFunction F fuel body ⟨0, 0⟩ = some (code, c)) :
    (labelsAll code).Nodup ∧ ∀ k, .state k ∈ labelsAll code ↔ k ≤ c.states := by
  obtain ⟨rest, rfl, hrest, -⟩ := asyncFunction_pieces h
  have hlabels : labelsAll (.label (.state 0) :: rest) = .state 0 :: labelsAll rest := rfl
  rw [hlabels]
  refine ⟨List.nodup_cons.mpr ⟨fun hmem ↦ ?_, hrest.within.nodup⟩, fun k ↦ ⟨fun hmem ↦ ?_,
    fun hk ↦ ?_⟩⟩
  · exact absurd (hrest.within.between _ hmem).1 (lt_irrefl 0)
  · rcases List.mem_cons.mp hmem with hzero | hmem
    · cases hzero
      exact Nat.zero_le _
    · exact (hrest.within.between _ hmem).2
  · rcases Nat.eq_zero_or_pos k with rfl | hpos
    · exact List.mem_cons_self
    · exact List.mem_cons_of_mem _ (hrest.within.all k hpos hk)

theorem asyncFunction_sound (h : asyncFunction F fuel body ⟨0, 0⟩ = some (code, c)) :
    Sound code := by
  obtain ⟨rest, rfl, hrest, front, l, hends⟩ := asyncFunction_pieces h
  refine ⟨fun g hg ↦ ?_, ?_, .label (.state 0) :: front, l, by rw [hends, List.cons_append]⟩
  · exact List.mem_cons_of_mem _ (hrest.tested.jumps g hg)
  · exact hrest.exits false

/-- The step function of an async function, left at awaits that are not ready and entered again
by its state whenever the world wants, does what one does that waits at its awaits with its
blocks and loops around it, and it never jumps to a label that there is not or runs off its
end.  Every state has one label. -/
theorem step_function_resumes (h : asyncFunction F fuel body ⟨0, 0⟩ = some (code, c))
    (M : Meaning (Line A) (Test A) σ) (s : σ) (inputs : List (Option σ)) :
    (∀ k, (labelsAll code).count (.state k) = if k ≤ c.states then 1 else 0) ∧
      inputs.foldl (resumed M code) (.waiting 0 s) =
        (inputs.foldl (direct M code) (.waiting (0, code.tail, []) s)).map Prod.fst ∧
      inputs.foldl (direct M code) (.waiting (0, code.tail, []) s) ≠ .stuck := by
  obtain ⟨hnodup, hstates⟩ := asyncFunction_labels h
  have hstart : Placed code (.waiting (0, code.tail, []) s) := by
    obtain ⟨rest, rfl, -, front, l, hends⟩ := asyncFunction_pieces h
    have hplace : At (.label (.state 0) :: rest) rest [] := At.start.next nofun
    exact ⟨rfl, hplace⟩
  refine ⟨fun k ↦ ?_, (resumed_run hnodup hstart inputs).1,
    (asyncFunction_sound h).direct_run hnodup hstart nofun inputs⟩
  split
  · rename_i hk
    exact List.count_eq_one_of_mem hnodup ((hstates k).mpr hk)
  · rename_i hk
    exact List.count_eq_zero_of_not_mem fun hmem ↦ hk ((hstates k).mp hmem)

/-- `while (0) { await 1; }` -/
def pollBody : List (Stmt (Expr ℕ)) :=
  [.while (.leaf 0) (.block [.expr (some (.await (.leaf 1) true false))])]

def pollFacts : Facts ℕ := ⟨fun _ _ ↦ false, fun _ ↦ false⟩

def pollCode : List (Code ℕ) :=
  [.label (.state 0), .block [.loop [.line (.define 2 (.leaf 0)),
    .cond (.fails (.temp 2)) [.breakLoop] [],
    .block [.line (.define 3 (.leaf 1)), .line (.wait (.temp 3) false), .suspend 1,
      .line (.get none), .cond .error [.finish .fail] [], .line (.eval .unit)],
    .label (.named (.cont 1))], .label (.named (.brk 1))], .finish (.finish none)]

/-- Every line counts; what is waited for is ready when the count is even. -/
def counting : Meaning (Line ℕ) (Test ℕ) ℕ := ⟨fun _ n ↦ some (n + 1), fun _ n ↦ 9 < n, (· % 2 = 0)⟩

/-- A loop with an await in it, left once and entered again. -/
theorem step_function_resumes_poll :
    [some 1, none, none, none, none, none, none, none, none, none, none, some 12].foldl
        (resumed counting pollCode) (.waiting 0 0) =
      ([some 1, none, none, none, none, none, none, none, none, none, none, some 12].foldl
        (direct counting pollCode) (.waiting (0, pollCode.tail, []) 0)).map Prod.fst :=
  (step_function_resumes (F := pollFacts) (rfl : asyncFunction pollFacts 1 pollBody ⟨0, 0⟩ =
    some (pollCode, ⟨3, 1⟩)) counting 0 _).2.1

end StepFunction

end TinyCPlus.Compiler.Async
