import TinyCPlus.Compiler.StreamFusion

/-!
# Stream pipelines are lowered correctly

The statements before the loop evaluate the source, the callbacks and what the
terminal operation needs; the loop then takes the elements of the last stage.  A
fixed array must outlive the statement that points into it.
-/

namespace TinyCPlus.Compiler

open TinyCPlus.Library TinyCPlus.Library.Effect

namespace StreamWorld

variable {E V σ γ δ : Type} {T : SourceTypes E} {W : StreamWorld E V σ}

/-! ## The loop with its body -/

section Loop

variable {L : FusedLoop E} {bound : Temp} {env₀ : Temps V} {source : V} {length : ℕ}
  {temps : List (StageKind × Temp)} {stages : List (StageKind × V)} {last : Temp → StreamCode E}
  {value : γ → V} {step : γ → V → Effect σ (γ × Bool)}

/-- A loop that was lowered from stages and a terminal operation. -/
structure Lowered (W : StreamWorld E V σ) (T : SourceTypes E) (L : FusedLoop E) (bound : Temp)
    (env₀ : Temps V) (source : V) (length : ℕ) (temps : List (StageKind × Temp))
    (stages : List (StageKind × V)) (last : Temp → StreamCode E) (value : γ → V)
    (step : γ → V → Effect σ (γ × Bool)) : Prop where
  loop : LoopTemps W L bound source length env₀
  body : L.body = .item bound L.source L.index :: ((lowerStages temps bound (bound + 1)).1 ++
    [last (lowerStages (E := E) temps bound (bound + 1)).2])
  result_lt : ∀ t ∈ L.result, t < bound
  callbacks : List.Forall₂ (CallbackIs bound env₀) temps stages
  apart : ∀ stage ∈ temps, some stage.2 ≠ L.result ∧ stage.2 ≠ L.index
  steps : Steps W T bound L.result L.index env₀ last value step

theorem callbacks_congr {env : Temps V} {bound' : Temp}
    (h : List.Forall₂ (CallbackIs bound env₀) temps stages) (hle : bound ≤ bound')
    (heq : ∀ stage ∈ temps, stage.2 < bound → env stage.2 = env₀ stage.2) :
    List.Forall₂ (CallbackIs bound' env) temps stages := by
  induction h with
  | nil => exact .nil
  | @cons stage evaluated temps stages hcallback _ ih =>
      obtain ⟨hkind, hlt, hf⟩ := hcallback
      refine .cons ⟨hkind, hlt.trans_le hle, ?_⟩ (ih fun s hs ↦ heq s (List.mem_cons_of_mem _ hs))
      rw [heq stage List.mem_cons_self hlt, hf]

theorem Lowered.body_related
    (h : Lowered W T L bound env₀ source length temps stages last value step)
    {I : σ → Prop} {contents : ℕ → V} (hI : ∀ s, I s → ∀ i, W.element source i s = contents i)
    (hinvoke : ∀ f args, Keeps I (W.invoke f args)) (hpush : ∀ d x, Keeps I (W.push d x))
    {env : Temps V} {acc : γ} {i : ℕ}
    (henv : ∀ u < bound, some u ≠ L.result → u ≠ L.index → env u = env₀ u)
    (hindex : env L.index = some (.index i)) (hresult : ResultIs L.result env (value acc)) :
    Related I (Turn bound L.result value env) (W.exec T env L.body)
      (W.through step stages acc (contents i)) := by
  have htemps := h.loop.congr
    (henv _ h.loop.source_lt h.loop.source_ne h.loop.source_ne_index)
  have hcallbacks := callbacks_congr h.callbacks le_rfl fun stage hstage hlt ↦
    henv stage.2 hlt (h.apart stage hstage).1 (h.apart stage hstage).2
  have helement : Related I (· = ·) (W.getElement source i) (pure (contents i)) :=
    fun s hs ↦ ⟨rfl, hs, hI s hs i⟩
  rw [h.body, exec, execStatement, getIndex_eq hindex, htemps.getSource_eq,
    ← pure_bind (contents i) (W.through step stages acc)]
  simp only [pure_bind, bind_assoc]
  refine Related.bind (P := (· = ·)) helement fun x x' hx ↦ ?_
  subst hx
  have hbelow : Below bound env (setTemp env bound x) := fun u hu ↦
    setTemp_of_ne (Nat.ne_of_lt hu) x
  have hkeep {env' : Temps V} (hbelow' : Below bound env env') :
      ResultIs L.result env' (value acc) :=
    fun t ht ↦ (hbelow' t (h.result_lt t ht)).trans (hresult t ht)
  refine stages_related hinvoke (fun env' hbelow' ↦ ?_) (fun env' item y hbelow' hy ↦ ?_)
    hcallbacks hbelow (setTemp_self env bound x) (Nat.le_succ bound)
  · exact ⟨by simp, hkeep hbelow', fun u hu _ ↦ hbelow' u hu⟩
  · refine (h.steps hinvoke hpush (fun u hu hne hne' ↦ ?_) (hkeep hbelow') hy).mono ?_
    · rw [hbelow' u hu, henv u hu hne hne']
    · intro turn stepped hturn
      exact ⟨hturn.flow, hturn.result, fun u hu hne ↦ (hturn.below u hu hne).trans (hbelow' u hu)⟩

/-- The loop and the result, behind the statements before the loop. -/
def finish (T : SourceTypes E) (W : StreamWorld E V σ) (L : FusedLoop E) (env : Temps V) :
    Effect σ (Option V) := do
  let env : Temps V := Function.update env L.index (some (.index 0))
  let length ← W.getLength env L.source
  let env ← W.execLoop T L (length + 1) env
  match L.result with
  | some t => do
      let v ← getValue env t
      pure (some v)
  | none => pure none

theorem run_eq (L : FusedLoop E) :
    W.run T L = W.exec T (fun _ ↦ none) L.prologue >>= fun turn ↦ finish T W L turn.2 := rfl

theorem Lowered.finish_eq
    (h : Lowered W T L bound env₀ source length temps stages last value step)
    (hkept : W.SourceKept source) (acc : γ) (hresult : ResultIs L.result env₀ (value acc)) :
    finish T W L env₀ = (do
      let xs ← W.contents source length
      let acc ← Traversal.fold step acc (stages.foldl W.applyStage (Traversal.ofList xs))
      pure (L.result.map fun _ ↦ value acc)) := by
  funext s
  let contents : ℕ → V := fun i ↦ W.element source i s
  let I : σ → Prop := fun s ↦ ∀ i, W.element source i s = contents i
  obtain ⟨hinvoke, hpush⟩ := hkept contents
  let env : Temps V := Function.update env₀ L.index (some (.index 0))
  have henv : ∀ u < bound, some u ≠ L.result → u ≠ L.index → env u = env₀ u :=
    fun u _ _ hne ↦ Function.update_of_ne hne ..
  have hresult' : ResultIs L.result env (value acc) := by
    intro t ht
    have hne : t ≠ L.index := fun heq ↦ h.loop.index_ne (heq ▸ ht.symm)
    exact (Function.update_of_ne hne ..).trans (hresult t ht)
  have hloop := loop_related (k := length) (i := 0)
    (fun henv hindex hresult ↦ h.body_related (I := I) (fun _ hs ↦ hs) hinvoke hpush henv hindex
      hresult) h.loop (Nat.zero_add length) (Nat.lt_succ_self length) henv (Function.update_self ..)
    hresult'
  have hlength : W.getLength env L.source = pure length :=
    (h.loop.congr (henv _ h.loop.source_lt h.loop.source_ne h.loop.source_ne_index)).getLength_eq
  have hend (env : Temps V) (acc : γ) (hr : ResultIs L.result env (value acc)) :
      Related I (· = ·)
        (match L.result with
        | some t => do
            let v ← getValue env t
            pure (some v)
        | none => pure none : Effect σ (Option V))
        (pure (L.result.map fun _ ↦ value acc)) := by
    cases hresult : L.result with
    | none => exact Related.pure rfl
    | some t =>
        dsimp only
        rw [getValue_eq (hr t hresult), pure_bind]
        exact Related.pure rfl
  have hcontents : W.contents source length s =
      some ((List.range' 0 length).map contents, s) := by
    rw [StreamWorld.contents, List.range_eq_range']
  have hsame := (Related.bind hloop hend).apply_eq (s := s) fun _ ↦ rfl
  rw [finish]
  rw [hlength, pure_bind, hsame, bind_apply (W.contents source length), hcontents,
    Option.bind_some, fold_stages]

end Loop

/-! ## The statements before the loop -/

/-- The temporary of the source. -/
def setSource (T : SourceTypes E) (env : Temps V) (t : Temp) (e : E) (v : V) : Temps V :=
  match T.count e with
  | some _ => Function.update env t (some (.pointer (if T.lasting e then some v else none)))
  | none => setTemp env t v

theorem exec_source (env : Temps V) (t : Temp) (e : E) (rest : List (StreamCode E)) :
    W.exec T env ((lowerSource T e t).1 :: rest) = (do
      let v ← W.eval e
      W.exec T (setSource T env t e v) rest) := by
  rw [exec, lowerSource]
  cases hcount : T.count e with
  | none =>
      dsimp only
      rw [execStatement, bind_assoc]
      simp only [pure_bind, setSource, hcount]
  | some count =>
      dsimp only
      rw [execStatement, bind_assoc]
      simp only [pure_bind, setSource, hcount]

/-- A callback with its kind. -/
def evalStage (W : StreamWorld E V σ) (stage : StageKind × E) : Effect σ (StageKind × V) := do
  let f ← W.eval stage.2
  pure (stage.1, f)

theorem evalStages_eq (stages : Stages E) :
    W.evalStages stages = stages.unwind.reverse.mapM W.evalStage := by
  induction stages with
  | stream source => rfl
  | stage base kind callback ih =>
      rw [evalStages, ih, Stages.unwind, List.reverse_cons, List.mapM_append]
      refine bind_congr fun stages ↦ ?_
      rw [List.mapM_cons, List.mapM_nil, evalStage]
      simp only [bind_assoc, pure_bind]

/-- The callbacks stand in their temporaries when the statements behind them run. -/
theorem exec_callbacks_congr {rest : List (StreamCode E)} {k : LoopFlow × Temps V → Effect σ δ}
    (callbacks : List (StageKind × E)) (t : Temp) (env : Temps V)
    (g : List (StageKind × V) → Effect σ δ)
    (h : ∀ env' stages, Below t env env' →
      List.Forall₂ (CallbackIs (t + callbacks.length) env')
        (lowerCallbacks callbacks t).2 stages → W.exec T env' rest >>= k = g stages) :
    W.exec T env ((lowerCallbacks callbacks t).1 ++ rest) >>= k =
      callbacks.mapM W.evalStage >>= g := by
  induction callbacks generalizing t env g with
  | nil =>
      rw [List.mapM_nil, pure_bind]
      exact h env [] (fun _ _ ↦ rfl) .nil
  | cons stage callbacks ih =>
      obtain ⟨kind, callback⟩ := stage
      rw [lowerCallbacks, List.cons_append, exec, execStatement, List.mapM_cons, evalStage]
      simp only [bind_assoc, pure_bind]
      refine bind_congr fun f ↦ ?_
      rw [ih (t + 1) (setTemp env t f) fun stages ↦ g ((kind, f) :: stages)]
      intro env' stages hbelow hstages
      refine h env' _ (fun u hu ↦ ?_) (.cons ⟨rfl, ?_, ?_⟩ ?_)
      · rw [hbelow u (Nat.lt_succ_of_lt hu), setTemp_of_ne (Nat.ne_of_lt hu)]
      · exact Nat.lt_add_of_pos_right (Nat.succ_pos _)
      · rw [hbelow t (Nat.lt_succ_self t), setTemp_self]
      · have hlength : t + ((kind, callback) :: callbacks).length = t + 1 + callbacks.length := by
          rw [List.length_cons, Nat.add_right_comm, Nat.add_assoc]
        rw [hlength]
        exact hstages

/-! ## Pipelines -/

section Pipeline

variable {p : StreamPipeline E} {t : Temp} {v : V} {env env' env'' : Temps V}
  {stages : List (StageKind × V)} {value : γ → V} {step : γ → V → Effect σ (γ × Bool)}

/-- The callbacks of a pipeline in the order of its stages. -/
def callbacksOf (p : StreamPipeline E) : List (StageKind × E) := p.stages.unwind.reverse

/-- The first temporary behind the callbacks. -/
def baseTemp (p : StreamPipeline E) (t : Temp) : Temp := t + 1 + (callbacksOf p).length

/-- The length of the source. -/
def lengthOf (T : SourceTypes E) (W : StreamWorld E V σ) (p : StreamPipeline E) (v : V) : ℕ :=
  (T.count p.stages.source).getD (W.length v)

theorem callbackIs_lt {bound : Temp} {temps : List (StageKind × Temp)}
    (h : List.Forall₂ (CallbackIs bound env) temps stages) :
    ∀ stage ∈ temps, stage.2 < bound := by
  induction h with
  | nil => exact fun _ hmem ↦ absurd hmem List.not_mem_nil
  | cons hcallback _ ih =>
      intro stage hmem
      rcases List.mem_cons.mp hmem with rfl | hmem
      · exact hcallback.2.1
      · exact ih stage hmem

theorem sourceIs_setSource (W : StreamWorld E V σ) (env : Temps V) (t : Temp) (v : V)
    (hlasting : T.lasting p.stages.source ∨ T.count p.stages.source = none) :
    SourceIs W (setSource T env t p.stages.source v) v (lengthOf T W p v)
      (lowerSource T p.stages.source t).2 := by
  rw [lowerSource, lengthOf]
  cases hcount : T.count p.stages.source with
  | none =>
      refine ⟨?_, rfl⟩
      rw [setSource, hcount]
      exact setTemp_self env t v
  | some count =>
      refine ⟨?_, rfl⟩
      have htrue : T.lasting p.stages.source = true :=
        hlasting.resolve_right (by rw [hcount]; exact Option.some_ne_none count)
      rw [setSource, hcount, htrue]
      exact Function.update_self ..

theorem sourceTemp_lowerSource (e : E) (t : Temp) : sourceTemp (lowerSource T e t).2 = t := by
  rw [lowerSource]
  cases T.count e <;> rfl

/-- The source and the callbacks stand in their temporaries. -/
structure Prepared (T : SourceTypes E) (W : StreamWorld E V σ) (p : StreamPipeline E) (t : Temp)
    (v : V) (env env' : Temps V) (stages : List (StageKind × V)) : Prop where
  kept : W.SourceKept v
  lasting : T.lasting p.stages.source ∨ T.count p.stages.source = none
  below : Below (t + 1) (setSource T env t p.stages.source v) env'
  callbacks : List.Forall₂ (CallbackIs (baseTemp p t) env')
    (lowerCallbacks (callbacksOf p) (t + 1)).2 stages

/-- The statements before the loop make the temporaries ready for it. -/
theorem Prepared.lowered (h : Prepared T W p t v env env' stages) {r : Option Temp}
    {u index : Temp} (hbelow : Below (baseTemp p t) env' env'')
    (hterminal : (lowerTerminal p.terminal (baseTemp p t)).2 = (r, u, index))
    (hr : ∀ x ∈ r, baseTemp p t ≤ x ∧ x < index) (hindex : baseTemp p t ≤ index)
    (hsteps : Steps W T (index + 1) r index env''
      (terminalCode p.terminal (r.getD 0) u) value step) :
    Lowered W T (streamExpression T p t) (index + 1) env'' v (lengthOf T W p v)
      (lowerCallbacks (callbacksOf p) (t + 1)).2 stages (terminalCode p.terminal (r.getD 0) u)
      value step := by
  have hfields : streamExpression T p t =
      ⟨(streamExpression T p t).prologue, (lowerSource T p.stages.source t).2,
        (lowerTerminal p.terminal (baseTemp p t)).2.2.2,
        (streamExpression T p t).body, (lowerTerminal p.terminal (baseTemp p t)).2.1⟩ := rfl
  have hL_index : (streamExpression T p t).index = index := by
    rw [hfields, hterminal]
  have hL_result : (streamExpression T p t).result = r := by
    rw [hfields, hterminal]
  have hL_source : (streamExpression T p t).source = (lowerSource T p.stages.source t).2 := rfl
  have ht : t < baseTemp p t :=
    Nat.lt_of_lt_of_le (Nat.lt_succ_self t) (Nat.le_add_right (t + 1) _)
  have hlt := callbackIs_lt h.callbacks
  have hne {x : Temp} (hx : x < baseTemp p t) : some x ≠ r := fun heq ↦
    absurd (hr x heq.symm).1 (Nat.not_le.mpr hx)
  have hsame : env'' t = setSource T env t p.stages.source v t :=
    (hbelow t ht).trans (h.below t (Nat.lt_succ_self t))
  refine ⟨⟨?_, ?_, ?_, ?_, ?_, ?_⟩, ?_, ?_, ?_, ?_, ?_⟩
  · rw [hL_source]
    refine (sourceIs_setSource W env t v h.lasting).congr ?_
    rw [sourceTemp_lowerSource, hsame]
  · rw [hL_source, sourceTemp_lowerSource]
    exact ht.trans_le (hindex.trans (Nat.le_succ index))
  · rw [hL_source, sourceTemp_lowerSource, hL_result]
    exact hne ht
  · rw [hL_source, sourceTemp_lowerSource, hL_index]
    exact Nat.ne_of_lt (ht.trans_le hindex)
  · rw [hL_index]
    exact Nat.lt_succ_self index
  · rw [hL_index, hL_result]
    exact fun heq ↦ absurd (hr index heq.symm).2 (lt_irrefl index)
  · rw [hL_index, hL_source]
    have hbody : (streamExpression T p t).body =
        .item ((lowerTerminal p.terminal (baseTemp p t)).2.2.2 + 1)
          (lowerSource T p.stages.source t).2 (lowerTerminal p.terminal (baseTemp p t)).2.2.2 ::
          ((lowerStages (lowerCallbacks (callbacksOf p) (t + 1)).2
            ((lowerTerminal p.terminal (baseTemp p t)).2.2.2 + 1)
            ((lowerTerminal p.terminal (baseTemp p t)).2.2.2 + 1 + 1)).1 ++
          [terminalCode p.terminal ((lowerTerminal p.terminal (baseTemp p t)).2.1.getD 0)
            (lowerTerminal p.terminal (baseTemp p t)).2.2.1
            (lowerStages (E := E) (lowerCallbacks (callbacksOf p) (t + 1)).2
              ((lowerTerminal p.terminal (baseTemp p t)).2.2.2 + 1)
              ((lowerTerminal p.terminal (baseTemp p t)).2.2.2 + 1 + 1)).2]) := rfl
    rw [hbody, hterminal]
  · rw [hL_result]
    exact fun x hx ↦ (hr x hx).2.trans (Nat.lt_succ_self index)
  · exact callbacks_congr h.callbacks (hindex.trans (Nat.le_succ index)) fun stage _ hlt ↦
      hbelow stage.2 hlt
  · intro stage hstage
    rw [hL_result, hL_index]
    exact ⟨hne (hlt stage hstage), Nat.ne_of_lt ((hlt stage hstage).trans_le hindex)⟩
  · rw [hL_result, hL_index]
    exact hsteps

theorem Prepared.finish_eq (h : Prepared T W p t v env env' stages) {r : Option Temp}
    {u index : Temp} (hbelow : Below (baseTemp p t) env' env'')
    (hterminal : (lowerTerminal p.terminal (baseTemp p t)).2 = (r, u, index))
    (hr : ∀ x ∈ r, baseTemp p t ≤ x ∧ x < index) (hindex : baseTemp p t ≤ index)
    (hsteps : Steps W T (index + 1) r index env''
      (terminalCode p.terminal (r.getD 0) u) value step)
    (acc : γ) (hresult : ResultIs r env'' (value acc)) :
    finish T W (streamExpression T p t) env'' = (do
      let xs ← W.elements stages v (lengthOf T W p v)
      let acc ← Traversal.fold step acc xs
      pure (r.map fun _ ↦ value acc)) := by
  have hL_result : (streamExpression T p t).result = r := by
    change (lowerTerminal p.terminal (baseTemp p t)).2.1 = r
    rw [hterminal]
  have hlowered := h.lowered hbelow hterminal hr hindex hsteps
  rw [hlowered.finish_eq h.kept acc (by rw [hL_result]; exact hresult), hL_result, elements]
  simp only [bind_assoc, pure_bind]

theorem exec_value (env : Temps V) (t : Temp) (e : E) (rest : List (StreamCode E)) :
    W.exec T env (.value t e :: rest) = (do
      let v ← W.eval e
      W.exec T (setTemp env t v) rest) := by
  rw [exec, execStatement, bind_assoc]
  simp only [pure_bind]

theorem exec_initial (env : Temps V) (t : Temp) (r : InitialResult) (rest : List (StreamCode E)) :
    W.exec T env (.initial t r :: rest) = W.exec T (setTemp env t (W.initialResult r)) rest := by
  rw [exec, execStatement, pure_bind]

theorem exec_copy {env : Temps V} {t u : Temp} {v : V} (h : env u = some (.value v))
    (rest : List (StreamCode E)) :
    W.exec T env (.copy t u :: rest) = W.exec T (setTemp env t v) rest := by
  rw [exec, execStatement, getValue_eq h, pure_bind, pure_bind]

theorem below_refl (bound : Temp) (env : Temps V) : Below bound env env := fun _ _ ↦ rfl

/-- The terminal operation does what it means when the callbacks are ready. -/
theorem Prepared.terminal_eq (h : Prepared T W p t v env env' stages) :
    (W.exec T env' (lowerTerminal p.terminal (baseTemp p t)).1 >>= fun turn ↦
      finish T W (streamExpression T p t) turn.2) =
      W.terminalMeaning (W.elements stages v (lengthOf T W p v)) p.terminal := by
  have hfinish := @h.finish_eq
  have hbelow := below_refl (baseTemp p t) env'
  generalize baseTemp p t = b at hfinish hbelow ⊢
  have hb₁ : b < b + 1 := Nat.lt_succ_self b
  have hb₂ : b + 1 < b + 2 := Nat.lt_succ_self (b + 1)
  have hb₃ : b + 2 < b + 3 := Nat.lt_succ_self (b + 2)
  cases hterm : p.terminal with
  | forEach callback =>
      rw [hterm] at hfinish
      rw [lowerTerminal, exec_value, bind_assoc, terminalMeaning]
      refine bind_congr fun f ↦ ?_
      rw [exec, pure_bind, hfinish _ _ _ _ (hbelow.setTemp le_rfl f) rfl (fun x hx ↦ by cases hx) hb₁.le
        (steps_forEach (hb₁.trans hb₂) hb₁.ne (setTemp_self ..)) () (fun x hx ↦ by cases hx)]
      simp only [Traversal.forEach, bind_assoc, pure_bind]
      rfl
  | collect destination =>
      rw [hterm] at hfinish
      rw [lowerTerminal, exec_value, bind_assoc, terminalMeaning]
      refine bind_congr fun d ↦ ?_
      rw [exec, pure_bind, hfinish _ _ _ _ (hbelow.setTemp le_rfl d) rfl (fun x hx ↦ by cases hx) hb₁.le
        (steps_collect (hb₁.trans hb₂) hb₁.ne (setTemp_self ..)) () (fun x hx ↦ by cases hx)]
      rfl
  | count =>
      rw [hterm] at hfinish
      rw [lowerTerminal, exec_initial, exec, pure_bind, terminalMeaning,
        hfinish _ _ _ _ (hbelow.setTemp le_rfl _) rfl
          (fun x hx ↦ by cases hx; exact ⟨le_rfl, hb₁⟩) hb₁.le steps_count 0
          (fun x hx ↦ by cases hx; exact setTemp_self ..)]
      rfl
  | first =>
      rw [hterm] at hfinish
      rw [lowerTerminal, exec_initial, exec, pure_bind, terminalMeaning,
        hfinish _ _ _ _ (hbelow.setTemp le_rfl _) rfl
          (fun x hx ↦ by cases hx; exact ⟨le_rfl, hb₁⟩) hb₁.le steps_first none
          (fun x hx ↦ by cases hx; exact setTemp_self ..)]
      rfl
  | any callback =>
      rw [hterm] at hfinish
      rw [lowerTerminal, exec_initial, exec_value, bind_assoc, terminalMeaning]
      refine bind_congr fun f ↦ ?_
      rw [exec, pure_bind, hfinish _ _ _ _ ((hbelow.setTemp le_rfl _).setTemp hb₁.le f) rfl
        (fun x hx ↦ by cases hx; exact ⟨le_rfl, hb₁.trans hb₂⟩) (hb₁.trans hb₂).le
        (steps_decide (hb₂.trans hb₃) hb₂.ne hb₁.ne' (setTemp_self ..) true (fun _ _ ↦ rfl)) false
        (fun x hx ↦ by cases hx; exact (setTemp_of_ne hb₁.ne _).trans (setTemp_self ..))]
      refine bind_congr fun xs ↦ ?_
      simp only [Traversal.any, bind_assoc, pure_bind]
      rfl
  | all callback =>
      rw [hterm] at hfinish
      rw [lowerTerminal, exec_initial, exec_value, bind_assoc, terminalMeaning]
      refine bind_congr fun f ↦ ?_
      have hstep (b : Bool) (x : V) :
          (W.invoke f [x] >>= fun v ↦
            if W.isTrue v = true then pure (b, false) else pure (false, true)) =
            (W.invoke f [x] >>= fun v ↦
              if W.isTrue v = false then pure (false, true) else pure (b, false)) := by
        refine bind_congr fun v ↦ ?_
        cases W.isTrue v <;> rfl
      rw [exec, pure_bind, hfinish _ _ _ _ ((hbelow.setTemp le_rfl _).setTemp hb₁.le f) rfl
        (fun x hx ↦ by cases hx; exact ⟨le_rfl, hb₁.trans hb₂⟩) (hb₁.trans hb₂).le
        (steps_decide (hb₂.trans hb₃) hb₂.ne hb₁.ne' (setTemp_self ..) false hstep) true
        (fun x hx ↦ by cases hx; exact (setTemp_of_ne hb₁.ne _).trans (setTemp_self ..))]
      refine bind_congr fun xs ↦ ?_
      simp only [Traversal.all, bind_assoc, pure_bind]
      rfl
  | reduce init callback =>
      rw [hterm] at hfinish
      rw [lowerTerminal, exec_value, bind_assoc, terminalMeaning]
      refine bind_congr fun acc ↦ ?_
      rw [exec_copy (setTemp_self ..), exec_value, bind_assoc]
      refine bind_congr fun f ↦ ?_
      rw [exec, pure_bind, hfinish _ _ _ _
        (((hbelow.setTemp hb₁.le acc).setTemp le_rfl acc).setTemp (hb₁.trans hb₂).le f) rfl
        (fun x hx ↦ by cases hx; exact ⟨le_rfl, (hb₁.trans hb₂).trans hb₃⟩)
        ((hb₁.trans hb₂).trans hb₃).le
        (steps_reduce (hb₃.trans (Nat.lt_succ_self _)) hb₃.ne (hb₁.trans hb₂).ne'
          (setTemp_self ..)) acc
        (fun x hx ↦ by cases hx; exact (setTemp_of_ne (hb₁.trans hb₂).ne _).trans (setTemp_self ..))]
      rfl

theorem prologue_eq (T : SourceTypes E) (p : StreamPipeline E) (t : Temp) :
    (streamExpression T p t).prologue = (lowerSource T p.stages.source t).1 ::
      ((lowerCallbacks (callbacksOf p) (t + 1)).1 ++
        (lowerTerminal p.terminal (baseTemp p t)).1) := rfl

/-- A pipeline does what it means when its source is no fixed array or outlives the
statement that points into it. -/
theorem run_eq_meaning (hleaves : W.LeavesAlone p)
    (hlasting : T.lasting p.stages.source ∨ T.count p.stages.source = none) (t : Temp) :
    W.run T (streamExpression T p t) = W.meaning T p := by
  rw [run_eq, prologue_eq, exec_source, bind_assoc, meaning]
  funext s
  rw [bind_apply (W.eval p.stages.source), bind_apply (W.eval p.stages.source)]
  cases hv : W.eval p.stages.source s with
  | none => rfl
  | some r =>
      obtain ⟨v, s'⟩ := r
      rw [Option.bind_some, Option.bind_some, evalStages_eq]
      refine congrFun ?_ s'
      refine exec_callbacks_congr (callbacksOf p) (t + 1) _ _ fun env' stages hbelow hstages ↦ ?_
      exact Prepared.terminal_eq ⟨hleaves s v s' hv, hlasting, hbelow, hstages⟩

/-! ## Arrays that are gone -/

theorem bind_failure (x : Effect σ γ) :
    (x >>= fun _ ↦ (failure : Effect σ δ)) = failure := by
  funext s
  rw [bind_apply]
  cases x s <;> rfl

theorem finish_fails (hcount : T.count p.stages.source ≠ none) (hsource : env t = some (.pointer none))
    (hindex : t < (streamExpression T p t).index) :
    finish T W (streamExpression T p t) env = failure := by
  obtain ⟨count, hcount⟩ := Option.ne_none_iff_exists'.mp hcount
  obtain ⟨n, rfl⟩ : ∃ n, count = n + 1 := by
    refine Nat.exists_eq_succ_of_ne_zero fun hzero ↦ T.count_ne_zero p.stages.source ?_
    rw [hcount, hzero]
  have hL : (streamExpression T p t).source = .pointer t (n + 1) := by
    change (lowerSource T p.stages.source t).2 = _
    rw [lowerSource, hcount]
  obtain ⟨item, rest, hbody⟩ : ∃ item rest, (streamExpression T p t).body =
      .item item (streamExpression T p t).source (streamExpression T p t).index :: rest :=
    ⟨_, _, rfl⟩
  rw [finish, hL, getLength, pure_bind, execLoop, getIndex_eq (Function.update_self ..), pure_bind,
    hL, getLength, pure_bind]
  dsimp only
  rw [if_pos (Nat.succ_pos n), hbody, exec, execStatement, getIndex_eq (Function.update_self ..),
    pure_bind, hL, getSource]
  rw [Function.update_of_ne hindex.ne, hsource]
  rfl

/-- Nothing is left when the loop reads an array that is gone. -/
theorem run_fails (hcount : T.count p.stages.source ≠ none)
    (hlasting : T.lasting p.stages.source = false) (t : Temp) :
    W.run T (streamExpression T p t) = failure := by
  have hbase : t < baseTemp p t :=
    Nat.lt_of_lt_of_le (Nat.lt_succ_self t) (Nat.le_add_right (t + 1) _)
  rw [run_eq, prologue_eq, exec_source, bind_assoc]
  refine (bind_congr fun v ↦ ?_).trans (bind_failure (W.eval p.stages.source))
  refine (exec_callbacks_congr (callbacksOf p) (t + 1) _ (fun _ ↦ failure)
    fun env' stages hbelow _ ↦ ?_).trans (bind_failure _)
  have hsource : env' t = some (.pointer none) := by
    obtain ⟨count, hcount⟩ := Option.ne_none_iff_exists'.mp hcount
    rw [hbelow t (Nat.lt_succ_self t), setSource, hcount, hlasting]
    exact Function.update_self ..
  have hset {env : Temps V} {b : Temp} (hb : t < b) (x : V) (h : env t = some (.pointer none)) :
      setTemp env b x t = some (.pointer none) := (setTemp_of_ne hb.ne x).trans h
  have hfails {env : Temps V} (h : env t = some (.pointer none)) :
      finish T W (streamExpression T p t) env = failure := by
    refine finish_fails hcount h ?_
    change t < (lowerTerminal p.terminal (baseTemp p t)).2.2.2
    refine hbase.trans_le ?_
    cases p.terminal <;> simp only [lowerTerminal] <;> exact Nat.le_add_right _ _
  generalize baseTemp p t = b at hbase
  cases hterm : p.terminal with
  | forEach callback =>
      rw [lowerTerminal, exec_value, bind_assoc]
      refine (bind_congr fun f ↦ ?_).trans (bind_failure (W.eval callback))
      exact hfails (hset hbase f hsource)
  | collect destination =>
      rw [lowerTerminal, exec_value, bind_assoc]
      refine (bind_congr fun d ↦ ?_).trans (bind_failure (W.eval destination))
      exact hfails (hset hbase d hsource)
  | count =>
      rw [lowerTerminal, exec_initial]
      exact hfails (hset hbase _ hsource)
  | first =>
      rw [lowerTerminal, exec_initial]
      exact hfails (hset hbase _ hsource)
  | any callback | all callback =>
      rw [lowerTerminal, exec_initial, exec_value, bind_assoc]
      refine (bind_congr fun f ↦ ?_).trans (bind_failure (W.eval callback))
      exact hfails (hset (Nat.lt_succ_of_lt hbase) f (hset hbase _ hsource))
  | reduce init callback =>
      rw [lowerTerminal, exec_value, bind_assoc]
      refine (bind_congr fun acc ↦ ?_).trans (bind_failure (W.eval init))
      rw [exec_copy (setTemp_self ..), exec_value, bind_assoc]
      refine (bind_congr fun f ↦ ?_).trans (bind_failure (W.eval callback))
      exact hfails (hset (Nat.lt_succ_of_lt (Nat.lt_succ_of_lt hbase)) f
        (hset hbase _ (hset (Nat.lt_succ_of_lt hbase) _ hsource)))

end Pipeline

/-! ## A world without effects -/

/-- Every expression and every callback just returns. -/
def still (E : Type) : StreamWorld E Bool Unit where
  eval _ := pure true
  invoke _ _ := pure true
  push _ _ := pure ()
  length _ := 0
  element _ _ _ := true
  ofCount _ := true
  succ := id
  ofBool := id
  isTrue := id
  pair b _ := b
  zero := false
  succ_ofCount _ := rfl

theorem still_leavesAlone (p : StreamPipeline E) : (still E).LeavesAlone p := by
  intro s source s' _ contents
  constructor
  · intro f args s a s' hs _
    exact hs
  · intro d x s a s' hs _
    exact hs

theorem fold_returns {step : γ → V → Effect σ (γ × Bool)} (h : ∀ acc x, ∃ r, step acc x = pure r)
    (xs : List V) (acc : γ) : ∃ a, Traversal.fold step acc (Traversal.ofList xs) = pure a := by
  induction xs generalizing acc with
  | nil => exact ⟨acc, rfl⟩
  | cons x xs ih =>
      obtain ⟨⟨acc', last⟩, hstep⟩ := h acc x
      rw [Traversal.fold_ofList_cons, hstep, pure_bind]
      cases last with
      | true => exact ⟨acc', rfl⟩
      | false => exact ih acc'

theorem through_returns {step : γ → Bool → Effect Unit (γ × Bool)}
    (h : ∀ acc x, ∃ r, step acc x = pure r) (stages : List (StageKind × Bool)) (acc : γ)
    (x : Bool) : ∃ r, (still E).through step stages acc x = pure r := by
  induction stages generalizing x with
  | nil => exact h acc x
  | cons stage stages ih =>
      obtain ⟨kind, f⟩ := stage
      cases kind with
      | filter => exact ih x
      | map => exact ih true

/-- Folds over what comes out of the stages return. -/
theorem elements_return {step : γ → Bool → Effect Unit (γ × Bool)}
    (h : ∀ acc x, ∃ r, step acc x = pure r) (acc : γ) (stages : List (StageKind × Bool))
    (source : Bool) (length : ℕ) :
    ∃ a, ((still E).elements stages source length >>= fun xs ↦ Traversal.fold step acc xs) =
      pure a := by
  obtain ⟨a, ha⟩ := fold_returns (fun acc x ↦ through_returns (E := E) h stages acc x)
    ((List.range length).map fun _ ↦ true) acc
  refine ⟨a, ?_⟩
  rw [← ha, ← fold_stages, elements, bind_assoc]
  simp only [pure_bind]
  rfl

theorem returns_then {x : Effect σ γ} {f : γ → Effect σ δ} (h : ∃ a, x >>= f = pure a)
    (g : δ → Option V) : ∃ r, (x >>= fun xs ↦ f xs >>= fun a ↦ pure (g a)) = pure r := by
  obtain ⟨a, ha⟩ := h
  exact ⟨g a, by rw [← bind_assoc, ha, pure_bind]⟩

theorem still_meaning (T : SourceTypes E) (p : StreamPipeline E) :
    ∃ r, (still E).meaning T p = pure r := by
  obtain ⟨stages, hstages⟩ : ∃ stages, (still E).evalStages p.stages = pure stages := by
    induction p.stages with
    | stream source => exact ⟨[], rfl⟩
    | stage base kind callback ih =>
        obtain ⟨stages, hstages⟩ := ih
        refine ⟨stages ++ [(kind, true)], ?_⟩
        rw [evalStages, hstages, pure_bind]
        rfl
  obtain ⟨source, hsource⟩ : ∃ source, (still E).eval p.stages.source = pure source := ⟨true, rfl⟩
  rw [meaning, hsource, pure_bind, hstages, pure_bind]
  dsimp only
  cases p.terminal with
  | forEach callback | collect destination =>
      exact returns_then (f := Traversal.forEach fun _ ↦ pure ())
        (elements_return (fun _ _ ↦ ⟨((), false), rfl⟩) () stages source _) fun _ ↦ none
  | count =>
      exact returns_then (elements_return (fun n _ ↦ ⟨(n + 1, false), rfl⟩) 0 stages source _) _
  | first =>
      exact returns_then (elements_return (fun _ x ↦ ⟨(some x, true), rfl⟩) none stages source _) _
  | any callback =>
      exact returns_then (elements_return (fun _ _ ↦ ⟨(true, true), rfl⟩) false stages source _) _
  | all callback =>
      exact returns_then (elements_return (fun b _ ↦ ⟨(b, false), rfl⟩) true stages source _) _
  | reduce init callback =>
      exact returns_then (elements_return (fun _ _ ↦ ⟨(true, false), rfl⟩) true stages source _) _

/-- The loop of a pipeline does what the pipeline means, whatever its expressions and
callbacks do, when its source is no fixed array or outlives the statement that
points into it, and only then. -/
theorem run_eq_meaning_iff (T : SourceTypes E) (p : StreamPipeline E) (t : Temp) :
    (∀ {V σ : Type} (W : StreamWorld E V σ), W.LeavesAlone p →
      W.run T (streamExpression T p t) = W.meaning T p) ↔
      T.lasting p.stages.source ∨ T.count p.stages.source = none := by
  constructor
  · intro h
    by_contra hgone
    rw [not_or] at hgone
    obtain ⟨r, hmeaning⟩ := still_meaning T p
    have hfails := run_fails (W := still E) hgone.2 (Bool.eq_false_of_not_eq_true hgone.1) t
    have hsame := (h (still E) (still_leavesAlone p)).symm.trans hfails
    rw [hmeaning] at hsame
    exact absurd (congrFun hsame ()) (Option.some_ne_none _)
  · exact fun hlasting V σ W hleaves ↦ run_eq_meaning hleaves hlasting t

/-- `make()` returns an array of three elements. -/
def makeTypes : SourceTypes (CallExpr Unit) :=
  ⟨fun _ ↦ some 3, fun _ ↦ false, fun _ ↦ by simp⟩

/-- `make().stream().count()` reads an array that is gone. -/
theorem make_count_undefined :
    CallExpr.streamCall (.call (.call (.other ()) "stream" []) "count" []) =
        .ok (some ⟨.stream (.other ()), .count⟩) ∧
      (still (CallExpr Unit)).LeavesAlone ⟨.stream (.other ()), .count⟩ ∧
      (still (CallExpr Unit)).run makeTypes
        (streamExpression makeTypes ⟨.stream (.other ()), .count⟩ 1) () = none ∧
      (still (CallExpr Unit)).meaning makeTypes ⟨.stream (.other ()), .count⟩ () =
        some (some true, ()) :=
  ⟨rfl, still_leavesAlone _, rfl, rfl⟩

end StreamWorld

end TinyCPlus.Compiler
