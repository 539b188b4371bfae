import TinyCPlus.Compiler.StreamCorrect

/-!
# Pipelines of functions

Where expressions and callbacks have no effects, a pipeline is what the operations
of the same names do with the list of the source's elements.
-/

namespace TinyCPlus.Compiler

open TinyCPlus.Library

namespace StreamWorld

variable {E V σ γ : Type} {T : SourceTypes E} {W : StreamWorld E V σ} {ev : E → V}
  {apply : V → List V → V}

/-- The list that comes out of the stages. -/
def listStages (W : StreamWorld E V σ) (apply : V → List V → V) :
    List (StageKind × V) → List V → List V
  | [], xs => xs
  | (.filter, f) :: stages, xs => listStages W apply stages (xs.filter fun x ↦ W.isTrue (apply f [x]))
  | (.map, f) :: stages, xs => listStages W apply stages (xs.map fun x ↦ apply f [x])

/-- What a terminal operation does with a list. -/
def listTerminal (W : StreamWorld E V σ) (ev : E → V) (apply : V → List V → V) (xs : List V) :
    Terminal E → Effect σ (Option V)
  | .forEach _ => pure none
  | .count => pure (some (W.ofCount xs.length))
  | .first => pure (some (W.ofFirst xs.head?))
  | .any callback => pure (some (W.ofBool (xs.any fun x ↦ W.isTrue (apply (ev callback) [x]))))
  | .all callback => pure (some (W.ofBool (xs.all fun x ↦ W.isTrue (apply (ev callback) [x]))))
  | .reduce init callback =>
      pure (some (xs.foldl (fun acc x ↦ apply (ev callback) [acc, x]) (ev init)))
  | .collect destination => do
      (Traversal.ofList xs).forEach (W.push (ev destination))
      pure none

theorem fold_listStages (hinvoke : ∀ f args, W.invoke f args = pure (apply f args))
    (step : γ → V → Effect σ (γ × Bool)) (acc : γ) (stages : List (StageKind × V)) (xs : List V) :
    Traversal.fold step acc (stages.foldl W.applyStage (Traversal.ofList xs)) =
      Traversal.fold step acc (Traversal.ofList (W.listStages apply stages xs)) := by
  induction stages generalizing xs with
  | nil => rfl
  | cons stage stages ih =>
      obtain ⟨kind, f⟩ := stage
      rw [List.foldl_cons]
      cases kind with
      | filter =>
          have hstage : W.applyStage (Traversal.ofList xs) (.filter, f) =
              Traversal.filter (fun x ↦ pure (W.isTrue (apply f [x]))) (Traversal.ofList xs) := by
            simp only [applyStage, hinvoke, pure_bind]
          rw [hstage, fold_stages, Traversal.fold_filter_pure, ← fold_stages, ih]
          rfl
      | map =>
          have hstage : W.applyStage (Traversal.ofList xs) (.map, f) =
              Traversal.ofList (xs.map fun x ↦ apply f [x]) := by
            simp only [applyStage, hinvoke]
            exact Traversal.map_pure _ _
          rw [hstage, ih]
          rfl

theorem terminalMeaning_list (heval : ∀ e, W.eval e = pure (ev e))
    (hinvoke : ∀ f args, W.invoke f args = pure (apply f args)) (stages : List (StageKind × V))
    (source : V) (length : ℕ) (terminal : Terminal E) :
    W.terminalMeaning (W.elements stages source length) terminal = (do
      let xs ← W.contents source length
      W.listTerminal ev apply (W.listStages apply stages xs) terminal) := by
  have hfold {γ : Type} (step : γ → V → Effect σ (γ × Bool)) (acc : γ) (xs : List V) :=
    fold_listStages hinvoke step acc stages xs
  cases terminal with
  | forEach callback =>
      rw [terminalMeaning, elements, heval, pure_bind, bind_assoc]
      refine bind_congr fun xs ↦ ?_
      simp only [pure_bind, hinvoke]
      rw [Traversal.forEach, hfold, ← Traversal.forEach, Traversal.forEach_ofList, pure_bind]
      rfl
  | count =>
      rw [terminalMeaning, elements, bind_assoc]
      refine bind_congr fun xs ↦ ?_
      rw [pure_bind, Traversal.count, hfold, ← Traversal.count, Traversal.count_ofList, pure_bind]
      rfl
  | first =>
      rw [terminalMeaning, elements, bind_assoc]
      refine bind_congr fun xs ↦ ?_
      rw [pure_bind, Traversal.first, hfold, ← Traversal.first, Traversal.first_ofList, pure_bind]
      rfl
  | any callback =>
      rw [terminalMeaning, elements, heval, pure_bind, bind_assoc]
      refine bind_congr fun xs ↦ ?_
      simp only [pure_bind, hinvoke]
      rw [Traversal.any, hfold, ← Traversal.any, Traversal.any_ofList, pure_bind]
      rfl
  | all callback =>
      rw [terminalMeaning, elements, heval, pure_bind, bind_assoc]
      refine bind_congr fun xs ↦ ?_
      simp only [pure_bind, hinvoke]
      rw [Traversal.all, hfold, ← Traversal.all, Traversal.all_ofList, pure_bind]
      rfl
  | reduce init callback =>
      rw [terminalMeaning, elements, heval, heval, pure_bind, pure_bind, bind_assoc]
      refine bind_congr fun xs ↦ ?_
      simp only [pure_bind, hinvoke]
      rw [Traversal.reduce, hfold, ← Traversal.reduce, Traversal.reduce_ofList, pure_bind]
      rfl
  | collect destination =>
      rw [terminalMeaning, elements, heval, pure_bind, bind_assoc]
      refine bind_congr fun xs ↦ ?_
      rw [pure_bind, Traversal.forEach, hfold, ← Traversal.forEach]
      rfl

theorem evalStages_list (heval : ∀ e, W.eval e = pure (ev e)) (stages : Stages E) :
    W.evalStages stages = pure (stages.unwind.reverse.map fun stage ↦ (stage.1, ev stage.2)) := by
  induction stages with
  | stream source => rfl
  | stage base kind callback ih =>
      rw [evalStages, ih, pure_bind, heval, pure_bind, Stages.unwind, List.reverse_cons,
        List.map_append]
      rfl

/-- Without effects a pipeline is what the list operations make of its source. -/
theorem meaning_list (heval : ∀ e, W.eval e = pure (ev e))
    (hinvoke : ∀ f args, W.invoke f args = pure (apply f args)) (p : StreamPipeline E) :
    W.meaning T p = (do
      let source := ev p.stages.source
      let xs ← W.contents source ((T.count p.stages.source).getD (W.length source))
      W.listTerminal ev apply
        (W.listStages apply (p.stages.unwind.reverse.map fun stage ↦ (stage.1, ev stage.2)) xs)
        p.terminal) := by
  rw [meaning, heval, pure_bind, evalStages_list heval, pure_bind]
  exact terminalMeaning_list heval hinvoke _ _ _ _

end StreamWorld

end TinyCPlus.Compiler
