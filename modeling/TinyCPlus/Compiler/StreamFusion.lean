import TinyCPlus.Compiler.Stream

/-!
# The loop of a stream pipeline

The loop does what the pipeline means.  The stages of a pipeline are fused into
the step of a fold, and the body of the loop makes that step.
-/

namespace TinyCPlus.Compiler

open TinyCPlus.Library TinyCPlus.Library.Effect

namespace StreamWorld

variable {E V σ γ : Type} {T : SourceTypes E} {W : StreamWorld E V σ}

/-! ## Fused stages -/

/-- The step of a fold on the elements that pass the stages. -/
def through (W : StreamWorld E V σ) (step : γ → V → Effect σ (γ × Bool)) :
    List (StageKind × V) → γ → V → Effect σ (γ × Bool)
  | [], acc, x => step acc x
  | (.filter, f) :: stages, acc, x => do
      let b ← W.invoke f [x]
      if W.isTrue b then through W step stages acc x else pure (acc, false)
  | (.map, f) :: stages, acc, x => do
      let y ← W.invoke f [x]
      through W step stages acc y

theorem fold_stages (step : γ → V → Effect σ (γ × Bool)) (acc : γ)
    (stages : List (StageKind × V)) (xs : Traversal (Effect σ) V) :
    Traversal.fold step acc (stages.foldl W.applyStage xs) =
      Traversal.fold (W.through step stages) acc xs := by
  induction stages generalizing xs with
  | nil => rfl
  | cons stage stages ih =>
      obtain ⟨kind, f⟩ := stage
      rw [List.foldl_cons, ih]
      cases kind with
      | filter =>
          rw [applyStage, Traversal.fold_filter]
          simp only [bind_assoc, pure_bind]
          rfl
      | map =>
          rw [applyStage, Traversal.fold_map]
          rfl

/-! ## Temporaries -/

@[simp] theorem setTemp_self (env : Temps V) (t : Temp) (v : V) :
    setTemp env t v t = some (.value v) := Function.update_self ..

theorem setTemp_of_ne {env : Temps V} {t u : Temp} (h : u ≠ t) (v : V) :
    setTemp env t v u = env u := Function.update_of_ne h ..

theorem getValue_eq {env : Temps V} {t : Temp} {v : V} (h : env t = some (.value v)) :
    getValue (σ := σ) env t = pure v := by
  rw [getValue, h]

section Statements

variable {env : Temps V} {rest : List (StreamCode E)} {callback item t : Temp} {f x : V}

theorem exec_skipUnless (hf : env callback = some (.value f)) (hx : env item = some (.value x)) :
    W.exec T env (.skipUnless callback item :: rest) = (do
      let b ← W.invoke f [x]
      if W.isTrue b then W.exec T env rest else pure (.continue, env)) := by
  rw [exec, execStatement, getValue_eq hf, getValue_eq hx]
  simp only [pure_bind, bind_assoc]
  refine bind_congr fun b ↦ ?_
  cases W.isTrue b <;> rfl

theorem exec_map (hf : env callback = some (.value f)) (hx : env item = some (.value x)) :
    W.exec T env (.map t callback item :: rest) = (do
      let y ← W.invoke f [x]
      W.exec T (setTemp env t y) rest) := by
  rw [exec, execStatement, getValue_eq hf, getValue_eq hx]
  simp only [pure_bind, bind_assoc]

end Statements

/-- The temporaries below a bound are left alone. -/
def Below (bound : Temp) (env env' : Temps V) : Prop := ∀ u < bound, env' u = env u

theorem Below.setTemp {bound t : Temp} {env env' : Temps V} (h : Below bound env env')
    (ht : bound ≤ t) (v : V) : Below bound env (setTemp env' t v) := by
  intro u hu
  rw [setTemp_of_ne (Nat.ne_of_lt (hu.trans_le ht)), h u hu]

/-- A temporary holds the callback of a stage. -/
def CallbackIs (bound : Temp) (env : Temps V) (stage : StageKind × Temp)
    (evaluated : StageKind × V) : Prop :=
  stage.1 = evaluated.1 ∧ stage.2 < bound ∧ env stage.2 = some (.value evaluated.2)

/-- The stages in the body of the loop, with the last statement behind them. -/
theorem stages_related {I : σ → Prop} (hinvoke : ∀ f args, Keeps I (W.invoke f args))
    {step : γ → V → Effect σ (γ × Bool)} {acc : γ} {Q : LoopFlow × Temps V → γ × Bool → Prop}
    {last : Temp → StreamCode E} {bound : Temp} {env : Temps V}
    (hskip : ∀ env', Below bound env env' → Q (.continue, env') (acc, false))
    (hlast : ∀ env' item y, Below bound env env' → env' item = some (.value y) →
      Related I Q (W.exec T env' [last item]) (step acc y))
    {temps : List (StageKind × Temp)} {stages : List (StageKind × V)}
    (hstages : List.Forall₂ (CallbackIs bound env) temps stages) {env' : Temps V}
    {item t : Temp} {x : V} (hbelow : Below bound env env') (hx : env' item = some (.value x))
    (ht : bound ≤ t) :
    Related I Q
      (W.exec T env' ((lowerStages temps item t).1 ++ [last (lowerStages (E := E) temps item t).2]))
      (W.through step stages acc x) := by
  induction hstages generalizing env' item t x with
  | nil => exact hlast env' item x hbelow hx
  | @cons stage evaluated temps stages hcallback hstages ih =>
      obtain ⟨kind, callback⟩ := stage
      obtain ⟨kind', f⟩ := evaluated
      obtain ⟨hkind, hlt, hf⟩ := hcallback
      dsimp only at hkind hlt hf
      subst hkind
      have hf' : env' callback = some (.value f) := (hbelow callback hlt).trans hf
      cases kind with
      | filter =>
          rw [lowerStages, through, List.cons_append, exec_skipUnless hf' hx]
          refine Related.bind (Related.refl (hinvoke f [x])) fun b b' hb ↦ ?_
          subst hb
          by_cases htrue : W.isTrue b = true
          · rw [if_pos htrue, if_pos htrue]
            exact ih hbelow hx ht
          · rw [if_neg htrue, if_neg htrue]
            exact Related.pure (hskip env' hbelow)
      | map =>
          rw [lowerStages, through, List.cons_append, exec_map hf' hx]
          refine Related.bind (Related.refl (hinvoke f [x])) fun y y' hy ↦ ?_
          subst hy
          exact ih (hbelow.setTemp ht y) (setTemp_self env' t y) (Nat.le_succ_of_le ht)

/-! ## The loop -/

/-- The source of the loop holds a collection of a length. -/
def SourceIs (W : StreamWorld E V σ) (env : Temps V) (source : V) (length : ℕ) :
    LoopSource → Prop
  | .pointer data count => env data = some (.pointer (some source)) ∧ length = count
  | .saved t => env t = some (.value source) ∧ length = W.length source

/-- The temporary of the source. -/
def sourceTemp : LoopSource → Temp
  | .pointer data _ => data
  | .saved t => t

theorem SourceIs.congr {env env' : Temps V} {source : V} {length : ℕ} {loopSource : LoopSource}
    (h : SourceIs W env source length loopSource)
    (heq : env' (sourceTemp loopSource) = env (sourceTemp loopSource)) :
    SourceIs W env' source length loopSource := by
  cases loopSource with
  | pointer data count => exact ⟨heq.trans h.1, h.2⟩
  | saved t => exact ⟨heq.trans h.1, h.2⟩

/-- The result of the loop has a value, if it has a result. -/
def ResultIs (result : Option Temp) (env : Temps V) (v : V) : Prop :=
  ∀ t ∈ result, env t = some (.value v)

/-- A turn of the loop body makes a step: it changes no temporary below the bound
but the result, and it breaks at the last step. -/
structure Turn (bound : Temp) (r : Option Temp) (value : γ → V) (env : Temps V)
    (turn : LoopFlow × Temps V) (step : γ × Bool) : Prop where
  flow : turn.1 = .break ↔ step.2 = true
  result : ResultIs r turn.2 (value step.1)
  below : ∀ u < bound, some u ≠ r → turn.2 u = env u

/-- What stands in the temporaries before every turn. -/
structure LoopTemps (W : StreamWorld E V σ) (L : FusedLoop E) (bound : Temp) (source : V)
    (length : ℕ) (env : Temps V) : Prop where
  source : SourceIs W env source length L.source
  source_lt : sourceTemp L.source < bound
  source_ne : some (sourceTemp L.source) ≠ L.result
  source_ne_index : sourceTemp L.source ≠ L.index
  index_lt : L.index < bound
  index_ne : some L.index ≠ L.result

namespace LoopTemps

variable {L : FusedLoop E} {bound : Temp} {source : V} {length : ℕ} {env env' : Temps V}

theorem congr (h : LoopTemps W L bound source length env)
    (heq : env' (sourceTemp L.source) = env (sourceTemp L.source)) :
    LoopTemps W L bound source length env' :=
  { h with source := h.source.congr heq }

theorem getLength_eq (h : LoopTemps W L bound source length env) :
    W.getLength env L.source = pure length := by
  have hsource := h.source
  cases hL : L.source with
  | pointer data count =>
      rw [hL] at hsource
      rw [getLength, hsource.2]
  | saved t =>
      rw [hL] at hsource
      rw [getLength, getValue_eq hsource.1, pure_bind, hsource.2]

theorem getSource_eq (h : LoopTemps W L bound source length env) :
    getSource (σ := σ) env L.source = pure source := by
  have hsource := h.source
  cases hL : L.source with
  | pointer data count =>
      rw [hL] at hsource
      rw [getSource, hsource.1]
  | saved t =>
      rw [hL] at hsource
      exact getValue_eq hsource.1

end LoopTemps

theorem getIndex_eq {env : Temps V} {t : Temp} {i : ℕ} (h : env t = some (.index i)) :
    getIndex (σ := σ) env t = pure i := by
  rw [getIndex, h]

/-- A loop whose body makes the steps of a fold. -/
theorem loop_related {I : σ → Prop} {L : FusedLoop E} {bound : Temp} {source : V} {length : ℕ}
    {env₀ : Temps V} {contents : ℕ → V} {step : γ → V → Effect σ (γ × Bool)} {value : γ → V}
    (hbody : ∀ {env acc i}, (∀ u < bound, some u ≠ L.result → u ≠ L.index → env u = env₀ u) →
      env L.index = some (.index i) → ResultIs L.result env (value acc) →
      Related I (Turn bound L.result value env) (W.exec T env L.body) (step acc (contents i)))
    (h₀ : LoopTemps W L bound source length env₀) {k i fuel : ℕ} (hi : i + k = length)
    (hfuel : k < fuel) {env : Temps V} {acc : γ}
    (henv : ∀ u < bound, some u ≠ L.result → u ≠ L.index → env u = env₀ u)
    (hindex : env L.index = some (.index i)) (hresult : ResultIs L.result env (value acc)) :
    Related I (fun env acc ↦ ResultIs L.result env (value acc)) (W.execLoop T L fuel env)
      (Traversal.fold step acc (Traversal.ofList ((List.range' i k).map contents))) := by
  induction k generalizing i fuel env acc with
  | zero =>
      obtain ⟨fuel, rfl⟩ : ∃ n, fuel = n + 1 := ⟨fuel - 1, by omega⟩
      have htemps := h₀.congr (henv _ h₀.source_lt h₀.source_ne h₀.source_ne_index)
      rw [execLoop, getIndex_eq hindex, htemps.getLength_eq]
      simp only [pure_bind]
      rw [if_neg (by omega)]
      exact Related.pure hresult
  | succ k ih =>
      obtain ⟨fuel, rfl⟩ : ∃ n, fuel = n + 1 := ⟨fuel - 1, by omega⟩
      have htemps := h₀.congr (henv _ h₀.source_lt h₀.source_ne h₀.source_ne_index)
      rw [execLoop, getIndex_eq hindex, htemps.getLength_eq, List.range'_succ, List.map_cons,
        Traversal.fold_ofList_cons]
      simp only [pure_bind]
      rw [if_pos (by omega)]
      refine Related.bind (hbody henv hindex hresult) fun turn stepped hturn ↦ ?_
      obtain ⟨flow, env₁⟩ := turn
      obtain ⟨acc₁, last⟩ := stepped
      obtain ⟨hflow, hresult₁, hbelow⟩ := hturn
      dsimp only at hflow hresult₁ hbelow ⊢
      have hindex₁ : env₁ L.index = some (.index i) :=
        (hbelow _ h₀.index_lt h₀.index_ne).trans hindex
      -- the next turn starts with the index incremented
      have hnext : Related I (fun env acc ↦ ResultIs L.result env (value acc))
          (do
            let i ← getIndex env₁ L.index
            W.execLoop T L fuel (Function.update env₁ L.index (some (.index (i + 1)))))
          (Traversal.fold step acc₁ (Traversal.ofList ((List.range' (i + 1) k).map contents))) := by
        rw [getIndex_eq hindex₁, pure_bind]
        refine ih (by omega) (by omega) ?_ (Function.update_self ..) ?_
        · intro u hu hne hindex'
          rw [Function.update_of_ne hindex', hbelow u hu hne, henv u hu hne hindex']
        · intro t ht
          have hne : t ≠ L.index := fun heq ↦ h₀.index_ne (heq ▸ ht.symm)
          rw [Function.update_of_ne hne, hresult₁ t ht]
      cases last with
      | true =>
          rw [hflow.mpr rfl, if_pos rfl]
          exact Related.pure hresult₁
      | false =>
          rw [if_neg Bool.false_ne_true]
          cases flow with
          | «break» => exact absurd (hflow.mp rfl) Bool.false_ne_true
          | next => exact hnext
          | «continue» => exact hnext

/-! ## Terminal operations -/

theorem exec_singleton (env : Temps V) (statement : StreamCode E) :
    W.exec T env [statement] = W.execStatement T env statement := by
  rw [exec]
  refine (bind_congr fun turn ↦ ?_).trans (bind_pure _)
  obtain ⟨flow, env'⟩ := turn
  cases flow <;> rfl

/-- The statement of a terminal operation makes a step wherever the temporaries hold
what they hold in `env₀`. -/
def Steps (W : StreamWorld E V σ) (T : SourceTypes E) (bound : Temp) (r : Option Temp)
    (index : Temp) (env₀ : Temps V) (last : Temp → StreamCode E) (value : γ → V)
    (step : γ → V → Effect σ (γ × Bool)) : Prop :=
  ∀ {I : σ → Prop}, (∀ f args, Keeps I (W.invoke f args)) → (∀ d x, Keeps I (W.push d x)) →
    ∀ {env : Temps V} {acc : γ} {item : Temp} {x : V},
      (∀ u < bound, some u ≠ r → u ≠ index → env u = env₀ u) → ResultIs r env (value acc) →
      env item = some (.value x) →
      Related I (Turn bound r value env) (W.exec T env [last item]) (step acc x)

section Steps

variable {bound index t u : Temp} {env₀ : Temps V} {f : V}

/-- A turn that leaves the temporaries alone. -/
theorem Turn.same {r : Option Temp} {value : γ → V} {env : Temps V} {acc : γ}
    (hresult : ResultIs r env (value acc)) : Turn bound r value env (.next, env) (acc, false) :=
  ⟨by simp, hresult, fun _ _ _ ↦ rfl⟩

/-- A turn that sets the result. -/
theorem Turn.set {value : γ → V} {env : Temps V} (acc : γ) {v : V} (hv : v = value acc)
    (last : Bool) :
    Turn bound (some t) value env (if last then .break else .next, setTemp env t v) (acc, last) where
  flow := by cases last <;> simp
  result := by
    intro u hu
    cases hu
    exact (setTemp_self env t v).trans (by rw [hv])
  below := fun u _ hne ↦ setTemp_of_ne (fun heq ↦ hne (congrArg some heq)) v

theorem steps_forEach (hu : u < bound) (hne : u ≠ index) (hf : env₀ u = some (.value f)) :
    Steps W T bound none index env₀ (.run u) (fun _ : Unit ↦ W.zero) (fun _ x ↦ do
      let _ ← W.invoke f [x]
      pure ((), false)) := by
  intro I hinvoke _ env acc item x henv hresult hx
  have hf' := (henv u hu (by simp) hne).trans hf
  rw [exec_singleton, execStatement, getValue_eq hf', getValue_eq hx]
  simp only [pure_bind]
  exact Related.bind (Related.refl (hinvoke f [x])) fun _ _ _ ↦ Related.pure (Turn.same hresult)

theorem steps_collect (hu : u < bound) (hne : u ≠ index) (hf : env₀ u = some (.value f)) :
    Steps W T bound none index env₀ (.push u) (fun _ : Unit ↦ W.zero) (fun _ x ↦ do
      W.push f x
      pure ((), false)) := by
  intro I _ hpush env acc item x henv hresult hx
  have hf' := (henv u hu (by simp) hne).trans hf
  rw [exec_singleton, execStatement, getValue_eq hf', getValue_eq hx]
  simp only [pure_bind]
  exact Related.bind (Related.refl (hpush f x)) fun _ _ _ ↦ Related.pure (Turn.same hresult)

theorem steps_count :
    Steps W T bound (some t) index env₀ (fun _ ↦ .increment t) W.ofCount
      (fun n _ ↦ pure (n + 1, false)) := by
  intro I _ _ env n item x _ hresult _
  rw [exec_singleton, execStatement, getValue_eq (hresult t rfl)]
  simp only [pure_bind]
  exact Related.pure (Turn.set (n + 1) (W.succ_ofCount n) false)

theorem steps_first :
    Steps W T bound (some t) index env₀ (.found t) W.ofFirst (fun _ x ↦ pure (some x, true)) := by
  intro I _ _ env acc item x _ _ hx
  rw [exec_singleton, execStatement, getValue_eq hx]
  simp only [pure_bind]
  exact Related.pure (Turn.set (some x) rfl true)

theorem steps_decide (hu : u < bound) (hne : u ≠ index) (hut : u ≠ t)
    (hf : env₀ u = some (.value f)) (wanted : Bool) {step : Bool → V → Effect σ (Bool × Bool)}
    (hstep : ∀ b x, step b x = do
      let v ← W.invoke f [x]
      if W.isTrue v = wanted then pure (wanted, true) else pure (b, false)) :
    Steps W T bound (some t) index env₀ (fun item ↦ .decide t u item wanted) W.ofBool step := by
  intro I hinvoke _ env b item x henv hresult hx
  have hf' := (henv u hu (fun heq ↦ hut (Option.some.inj heq)) hne).trans hf
  rw [exec_singleton, execStatement, getValue_eq hf', getValue_eq hx, hstep]
  simp only [pure_bind]
  refine Related.bind (Related.refl (hinvoke f [x])) fun v v' hv ↦ ?_
  subst hv
  by_cases hwanted : W.isTrue v = wanted
  · rw [if_pos hwanted, if_pos hwanted]
    exact Related.pure (Turn.set wanted rfl true)
  · rw [if_neg hwanted, if_neg hwanted]
    exact Related.pure (Turn.same hresult)

theorem steps_reduce (hu : u < bound) (hne : u ≠ index) (hut : u ≠ t)
    (hf : env₀ u = some (.value f)) :
    Steps W T bound (some t) index env₀ (.combine t u) id (fun acc x ↦ do
      let acc ← W.invoke f [acc, x]
      pure (acc, false)) := by
  intro I hinvoke _ env acc item x henv hresult hx
  have hf' := (henv u hu (fun heq ↦ hut (Option.some.inj heq)) hne).trans hf
  rw [exec_singleton, execStatement, getValue_eq hf', getValue_eq (hresult t rfl), getValue_eq hx]
  simp only [pure_bind]
  refine Related.bind (Related.refl (hinvoke f [id acc, x])) fun v v' hv ↦ ?_
  subst hv
  exact Related.pure (Turn.set v rfl false)

end Steps

end StreamWorld

end TinyCPlus.Compiler
