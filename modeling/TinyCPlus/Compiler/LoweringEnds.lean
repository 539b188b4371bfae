import TinyCPlus.Compiler.LoweringExpressions

/-!
# Termination of lowering

Lowering terminates if and only if no deferred expression of an async function awaits: every
exit of a scope lowers its deferred expressions, and an `await` leaves all scopes.
-/

namespace TinyCPlus.Compiler.Lowering

open TinyCPlus.Library Budgeted

variable {T : Texts}

/-! ## Deferred expressions -/

mutual

/-- The deferred expressions of a statement that are lowered. -/
def defers : Stmt Expr → List Expr
  | .block body => defersAll body
  | .ite _ body b =>
      defers body ++
        (match b with
        | some b => defers b
        | none => [])
  | .switch _ items => defersItems items
  | .while _ body | .range _ body => defers body
  | .for a _ _ body =>
      (match a with
      | some a => defers a
      | none => []) ++ defers body
  | .defer a => [a]
  | .var _ _ | .expr _ | .ret _ | .break | .continue | .delete _ => []

def defersAll : List (Stmt Expr) → List Expr
  | [] => []
  | s :: body => defers s ++ defersAll body

/-- Of the defaults the last one counts. -/
def defersItems : List (Item Expr) → List Expr
  | [] => []
  | (vs, body) :: items =>
      (if vs.isNone && hasDefault items then [] else defersAll body) ++ defersItems items

end

/-- What a statement adds to the clean-up of its scope. -/
def added : Stmt Expr → List Cleanup
  | .var locals _ => ((locals.filter Local.destructor).map Cleanup.drop).reverse
  | .defer a => [.defer a]
  | _ => []

/-- What the statements of a scope add. -/
def addedInside : Stmt Expr → List Cleanup
  | .block body => body.reverse.flatMap added
  | s => added s

/-! ## Lowering that ends -/

/-- No deferred expression awaits. -/
def Still (g : State) : Prop := ∀ c ∈ g.cleanup, c.Quiet

theorem Still.frame {g g' : State} (h : Still g) (hg : Frame g g') : Still g' := by
  rwa [Still, hg.cleanup]

/-- Clean-up is added. -/
structure Adds (cs : List Cleanup) (g g' : State) : Prop where
  asynchronous : g'.asynchronous = g.asynchronous
  cleanup : g'.cleanup = cs ++ g.cleanup
  loops : g'.loops = g.loops

theorem Adds.of_frame {cs : List Cleanup} {g g' g'' : State} (h : Adds cs g' g'')
    (hg : Frame g g') : Adds cs g g'' :=
  ⟨h.asynchronous.trans hg.asynchronous, h.cleanup.trans (congrArg (cs ++ ·) hg.cleanup),
    h.loops.trans hg.loops⟩

theorem Adds.frame {g g' : State} (h : Adds [] g g') : Frame g g' :=
  ⟨h.asynchronous, h.cleanup, h.loops⟩

theorem Frame.adds {g g' : State} (h : Frame g g') : Adds [] g g' :=
  ⟨h.asynchronous, h.cleanup, h.loops⟩

theorem Adds.trans {cs ds : List Cleanup} {g g' g'' : State} (h : Adds cs g g')
    (h' : Adds ds g' g'') : Adds (ds ++ cs) g g'' := by
  refine ⟨h'.asynchronous.trans h.asynchronous, ?_, h'.loops.trans h.loops⟩
  rw [h'.cleanup, h.cleanup, List.append_assoc]

/-- With every budget, `x` leads from `g` to states with `P` or stops at a line that is too long;
it ends if nothing that awaits is deferred, here or by itself. -/
structure Good (T : Texts) {α : Type} (Q : Prop) (P : State → Prop) (x : ℕ → Lower α)
    (g : State) : Prop where
  meets : ∀ n, Meets (TooLong T) (fun _ g' ↦ P g') (x n) g
  ends : Q → Still g → Ends x g

section Good

variable {α β : Type} {g : State} {Q Q' : Prop} {P R : State → Prop}

theorem Good.imp {x : ℕ → Lower α} (h : Good T Q P x g) (hP : ∀ g', P g' → R g') :
    Good T Q R x g :=
  ⟨fun n ↦ (h.meets n).imp fun _ g' hg' ↦ hP g' hg', h.ends⟩

theorem Good.weaken {x : ℕ → Lower α} (h : Good T Q P x g) (hquiet : Q' → Q) :
    Good T Q' P x g := ⟨h.meets, fun hq ↦ h.ends (hquiet hq)⟩

theorem Good.succ {x : ℕ → Lower α} (h₀ : x 0 = exhausted) (h : Good T Q P (fun n ↦ x (n + 1)) g) :
    Good T Q P x g := by
  refine ⟨fun n ↦ ?_, fun hq hg ↦ (h.ends hq hg).succ⟩
  cases n with
  | zero =>
      rw [h₀]
      exact Meets.exhausted
  | succ n => exact h.meets n

theorem Good.bind {x : ℕ → Lower α} {f : ℕ → α → Lower β} (h : Good T Q P x g)
    (hquiet : Q → Still g → ∀ g', P g' → Still g')
    (hf : ∀ a g', P g' → Good T Q R (fun n ↦ f n a) g') :
    Good T Q R (fun n ↦ x n >>= f n) g := by
  refine ⟨fun n ↦ (h.meets n).bind fun a g' hg' ↦ (hf a g' hg').meets n, fun hq hg ↦ ?_⟩
  refine (h.ends hq hg).bind fun n a g' hg' ↦ ?_
  have hP := (h.meets n).ok hg'
  exact (hf a g' hP).ends hq (hquiet hq hg g' hP)

/-- A step that leaves the scopes alone. -/
theorem Good.then {x : ℕ → Lower α} {f : ℕ → α → Lower β} {cs : List Cleanup}
    (h : Good T Q (Frame g) x g)
    (hf : ∀ a g', Frame g g' → Good T Q (Adds cs g') (fun n ↦ f n a) g') :
    Good T Q (Adds cs g) (fun n ↦ x n >>= f n) g :=
  h.bind (fun _ hg _ hg' ↦ hg.frame hg') fun a g' hg' ↦
    (hf a g' hg').imp fun _ hadds ↦ hadds.of_frame hg'

theorem Plain.good {x : Lower α} (h : Plain T x) : Good T Q (Frame g) (fun _ ↦ x) g :=
  ⟨fun _ ↦ h.keeps, fun _ _ ↦ h.ends⟩

theorem Good.adds {x : ℕ → Lower α} (h : Good T Q (Frame g) x g) : Good T Q (Adds [] g) x g :=
  h.imp fun _ ↦ Frame.adds

theorem Good.frame {x : ℕ → Lower α} (h : Good T Q (Adds [] g) x g) :
    Good T Q (Frame g) x g :=
  h.imp fun _ ↦ Adds.frame

theorem good_pure (a : α) : Good T Q (Frame g) (fun _ ↦ (pure a : Lower α)) g :=
  (plain_pure a).good

theorem good_get {f : ℕ → State → Lower β} (h : Good T Q P (fun n ↦ f n g) g) :
    Good T Q P (fun n ↦ get >>= f n) g := by
  constructor
  · intro n
    refine Meets.bind (Q := fun g₁ g' ↦ g₁ = g ∧ g' = g) (Meets.get ⟨rfl, rfl⟩) ?_
    rintro _ _ ⟨rfl, rfl⟩
    exact h.meets n
  · exact fun hq hg ↦ ends_get (h.ends hq hg)

theorem good_modify (f : State → State) : Good T Q (· = f g) (fun _ ↦ (modify f : Lower Unit)) g :=
  ⟨fun _ ↦ Meets.modify rfl, fun _ _ ↦ Ends.const (gives_modify.mpr rfl)⟩

theorem good_expression {a : Expr} (h : Fine g a) :
    Good T Q (Frame g) (fun n ↦ expression T n a) g :=
  ⟨fun n ↦ (expressionsKeep n).expression a g h, fun _ hg ↦ ends_expression h hg⟩

theorem good_value {a : Expr} (h : Fine g a) : Good T Q (Frame g) (fun n ↦ value T n a) g :=
  ⟨fun n ↦ (expressionsKeep n).value a g h, fun _ hg ↦ ends_value h (ends_expression h hg)⟩

theorem good_cleanupEmit (stop : List Cleanup) (h : ∀ c ∈ g.cleanup, c.Fine g) :
    Good T Q (Frame g) (fun n ↦ cleanupEmit T n stop) g :=
  ⟨fun n ↦ (expressionsKeep n).cleanupEmit stop g h, fun _ hg ↦ ends_cleanupEmit stop hg⟩

theorem Good.step {x : ℕ → Lower α} {f : ℕ → α → Lower β} (h : Good T Q (Frame g) x g)
    (hf : ∀ a g', Frame g g' → Good T Q (Frame g') (fun n ↦ f n a) g') :
    Good T Q (Frame g) (fun n ↦ x n >>= f n) g :=
  (h.then fun a g' hg' ↦ (hf a g' hg').adds).frame

/-! ## Parts of statements -/

theorem good_optional {f : ℕ → Expr → Lower Value}
    (hf : ∀ a g, Fine g a → Good T Q (Frame g) (fun n ↦ f n a) g) (format : String)
    {a : Option Expr} (h : ∀ b ∈ a, Fine g b) :
    Good T Q (Frame g) (fun n ↦ optional T n f format a) g := by
  cases a with
  | none => exact good_pure ()
  | some a => exact (hf a g (h a rfl)).step fun s g' _ ↦ (plain_line _ _).good

theorem good_initial (locals : List Local) {a : Option Expr} (h : ∀ b ∈ a, Fine g b) :
    Good T Q (Frame g) (fun n ↦ initial T n locals a) g := by
  cases a with
  | none => exact good_pure _
  | some a =>
      simp only [initial]
      split
      · exact good_expression (h a rfl)
      · exact good_value (h a rfl)

theorem good_result {a : Option Expr} (h : ∀ b ∈ a, Fine g b) :
    Good T Q (Frame g) (fun n ↦ result T n a) g := by
  cases a with
  | none => exact good_pure _
  | some a => exact (good_value (h a rfl)).step fun v _ _ ↦ good_pure _

theorem good_startRange {a : Option Expr} (h : ∀ b ∈ a, Fine g b) :
    Good T Q (Frame g) (fun n ↦ startRange T n a) g := by
  cases a with
  | none => exact good_pure _
  | some a =>
      refine (good_expression (h a rfl)).step fun s g₁ _ ↦ ?_
      refine (plain_temp (T := T)).good.step fun v g₂ _ ↦ ?_
      exact ((plain_line _ _).bind fun _ ↦ plain_line _ _).good

theorem good_labels {vs : List Expr} (h : ∀ v ∈ vs, Fine g v) :
    Good T Q (Frame g) (fun n ↦ labels T n vs) g := by
  induction vs generalizing g with
  | nil => exact good_pure _
  | cons v vs ih =>
      obtain ⟨hv, hvs⟩ := List.forall_mem_cons.mp h
      refine (good_expression hv).step fun label g₁ h₁ ↦ ?_
      exact (ih fun v hv ↦ (hvs v hv).frame h₁).step fun rest _ _ ↦ good_pure _

theorem good_tests {items : List (Item Expr)}
    (h : ∀ item ∈ items, ∀ v ∈ item.1.getD [], Fine g v) :
    Good T Q (Frame g) (fun n ↦ tests T n items) g := by
  induction items generalizing g with
  | nil => exact good_pure _
  | cons item items ih =>
      obtain ⟨hitem, hitems⟩ := List.forall_mem_cons.mp h
      obtain ⟨vs, body⟩ := item
      cases vs with
      | none => exact ih hitems
      | some vs =>
          refine (good_labels hitem).step fun test g₁ h₁ ↦ ?_
          have hrest := ih fun item hi v hv ↦ (hitems item hi v hv).frame h₁
          exact hrest.step fun rest _ _ ↦ good_pure _

theorem plain_defineAll (a : Value) (locals : List Local) : Plain T (defineAll T a locals) := by
  induction locals with
  | nil => exact plain_pure ()
  | cons l locals ih => exact (plain_line _ _).bind fun _ ↦ ih

theorem plain_finish (v : Option Value) : Plain T (finish T v) := by
  intro g
  have hrest : Plain T (if g.asynchronous then asyncFinish T v
      else line T "return %s;" v.toList) := by
    split
    · exact plain_lines _ _
    · exact plain_line _ _
  obtain ⟨⟨r, hr⟩, hkeeps⟩ := hrest g
  exact ⟨⟨r, gives_bind.mpr (Or.inr ⟨g, g, gives_get.mpr rfl, hr⟩)⟩, Keeps.get hkeeps⟩

/-! ## Scopes and loops -/

theorem Adds.still {cs : List Cleanup} {g g' : State} (h : Adds cs g g') (hg : Still g)
    (hcs : ∀ c ∈ cs, c.Quiet) : Still g' := by
  intro c hc
  rw [h.cleanup, List.mem_append] at hc
  exact hc.elim (hcs c) (hg c)

theorem Cleanup.Fine.congr {g g' : State} {c : Cleanup} (h : c.Fine g)
    (hg : g'.asynchronous = g.asynchronous) : c.Fine g' := by
  cases c with
  | defer a => exact h.imp_left hg.trans
  | drop l => trivial

theorem Adds.fine {cs : List Cleanup} {g g' : State} (h : Adds cs g g')
    (hg : ∀ c ∈ g.cleanup, c.Fine g) (hcs : ∀ c ∈ cs, c.Fine g) : ∀ c ∈ g'.cleanup, c.Fine g' := by
  intro c hc
  rw [h.cleanup, List.mem_append] at hc
  exact (hc.elim (hcs c) (hg c)).congr h.asynchronous

theorem Frame.fine {g g' : State} (h : Frame g g') (hg : ∀ c ∈ g.cleanup, c.Fine g) :
    ∀ c ∈ g'.cleanup, c.Fine g' := by
  intro c hc
  rw [h.cleanup] at hc
  exact (hg c hc).congr h.asynchronous

/-- A scope runs its clean-up and forgets it. -/
theorem good_scope {s : Stmt Expr} (hfine : ∀ c ∈ g.cleanup, c.Fine g)
    (hadded : ∀ c ∈ addedInside s, c.Fine g) (hquiet : Q → ∀ c ∈ addedInside s, c.Quiet)
    (h : ∀ g', Frame g g' → Good T Q (Adds (addedInside s) g') (fun n ↦ inside T n s) g') :
    Good T Q (Frame g) (fun n ↦ scope T n s) g := by
  refine Good.succ rfl (good_get ?_)
  refine Good.bind (P := Frame g) (plain_line _ _).good (fun _ hg _ ↦ hg.frame) fun _ g₁ h₁ ↦ ?_
  have hinside := (h g₁ h₁).imp fun g₂ h₂ ↦ h₂.of_frame h₁
  have hstill : Q → Still g₁ → ∀ g₂, Adds (addedInside s) g g₂ → Still g₂ := by
    intro hq hg₁ g₂ h₂
    have hg : Still g := by rwa [Still, ← h₁.cleanup]
    exact h₂.still hg (hquiet hq)
  refine hinside.bind hstill fun _ g₂ h₂ ↦ ?_
  have hemit : Good T Q (Adds (addedInside s) g) (fun n ↦ cleanupEmit T n g.cleanup) g₂ :=
    (good_cleanupEmit g.cleanup (h₂.fine hfine hadded)).imp fun g₃ h₃ ↦ h₂.trans h₃.adds
  refine hemit.bind (fun hq hg₂ g₃ h₃ ↦ ?_) fun _ g₃ h₃ ↦ ?_
  · intro c hc
    rw [h₃.cleanup, ← h₂.cleanup] at hc
    exact hg₂ c hc
  have hclear : Good T Q (Frame g) (fun _ ↦ modify fun g' ↦ { g' with cleanup := g.cleanup })
      g₃ := (good_modify _).imp fun g₄ h₄ ↦ by
    subst h₄
    exact ⟨h₃.asynchronous, rfl, h₃.loops⟩
  refine hclear.bind (fun _ hg₃ g₄ h₄ ↦ ?_) fun _ g₄ h₄ ↦ ?_
  · intro c hc
    rw [h₄.cleanup] at hc
    refine hg₃ c ?_
    rw [h₃.cleanup]
    exact List.mem_append_right _ hc
  exact (plain_line _ _).good.imp fun _ ↦ h₄.trans

/-- One more step behind others that have kept the frame. -/
theorem Good.after {g' : State} {x : ℕ → Lower α} {f : ℕ → α → Lower β} (hg' : Frame g g')
    (h : Good T Q (Frame g') x g')
    (hf : ∀ a g'', Frame g g'' → Good T Q P (fun n ↦ f n a) g'') :
    Good T Q P (fun n ↦ x n >>= f n) g' :=
  h.bind (fun _ hstill _ hg'' ↦ hstill.frame hg'') fun a g'' hg'' ↦ hf a g'' (hg'.trans hg'')

/-- What the clean-up of the first clause adds to a loop. -/
def addedInit : Option (Stmt Expr) → List Cleanup
  | none => []
  | some init => added init

/-- A loop runs the clean-up of its first clause and forgets it. -/
theorem good_loop {init : Option (Stmt Expr)} {sequence condition step : Option Expr}
    {body : Stmt Expr} (hfine : ∀ c ∈ g.cleanup, c.Fine g)
    (hadded : ∀ c ∈ addedInit init, c.Fine g) (hquiet : Q → ∀ c ∈ addedInit init, c.Quiet)
    (hsequence : ∀ b ∈ sequence, Fine g b) (hcondition : ∀ b ∈ condition, Fine g b)
    (hstep : ∀ b ∈ step, Fine g b)
    (hinit : ∀ g', Frame g g' → Good T Q (Adds (addedInit init) g') (fun n ↦ initLoop T n init) g')
    (hbody : ∀ g', g'.asynchronous = g.asynchronous → g'.cleanup = addedInit init ++ g.cleanup →
      g'.loops ≠ [] → Good T Q (Frame g') (fun n ↦ scope T n body) g') :
    Good T Q (Frame g) (fun n ↦ loop T n init sequence condition step body) g := by
  refine Good.succ rfl (good_get ?_)
  refine Good.bind (P := Frame g) (plain_line _ _).good (fun _ hg _ ↦ hg.frame) fun _ g₁ h₁ ↦ ?_
  have hfirst := (hinit g₁ h₁).imp fun g₂ h₂ ↦ h₂.of_frame h₁
  have hstill : Q → Still g₁ → ∀ g₂, Adds (addedInit init) g g₂ → Still g₂ := by
    intro hq hg₁ g₂ h₂
    have hg : Still g := by rwa [Still, ← h₁.cleanup]
    exact h₂.still hg (hquiet hq)
  refine hfirst.bind hstill fun _ g₂ h₂ ↦ ?_
  have hat : ∀ {g'}, g'.asynchronous = g.asynchronous → ∀ {a : Option Expr},
      (∀ b ∈ a, Fine g b) → ∀ b ∈ a, Fine g' b :=
    fun hg' _ ha b hb ↦ (ha b hb).imp_left hg'.trans
  refine Good.after (Frame.refl g₂) (good_startRange (hat h₂.asynchronous hsequence))
    fun _ g₃ h₃ ↦ ?_
  refine (good_modify _).bind (fun _ hg₃ g₄ h₄ ↦ ?_) fun _ g₄ h₄ ↦ ?_
  · subst h₄
    exact hg₃
  have hasync : g₄.asynchronous = g.asynchronous := by
    subst h₄
    exact h₃.asynchronous.trans h₂.asynchronous
  have hcleanup : g₄.cleanup = addedInit init ++ g.cleanup := by
    subst h₄
    exact h₃.cleanup.trans h₂.cleanup
  have hloops : g₄.loops ≠ [] := by
    subst h₄
    exact List.cons_ne_nil _ _
  refine Good.after (Frame.refl g₄) (plain_line _ _).good fun _ g₅ h₅ ↦ ?_
  have hfive := h₅.asynchronous.trans hasync
  refine Good.after h₅ (good_optional (fun a g ↦ good_value) _ (hat hfive hcondition))
    fun _ g₆ h₆ ↦ ?_
  refine Good.after h₆ (plain_when _ (plain_lines _ _)).good fun _ g₇ h₇ ↦ ?_
  refine Good.after h₇ (hbody g₇ (h₇.asynchronous.trans hasync) (h₇.cleanup.trans hcleanup)
    (by rwa [h₇.loops])) fun _ g₈ h₈ ↦ ?_
  refine Good.after h₈ (plain_line _ _).good fun _ g₉ h₉ ↦ ?_
  have hnine := h₉.asynchronous.trans hasync
  refine Good.after h₉ (good_optional (fun a g ↦ good_expression) _ (hat hnine hstep))
    fun _ g₁₀ h₁₀ ↦ ?_
  refine Good.after h₁₀ (plain_lines _ _).good fun _ g₁₁ h₁₁ ↦ ?_
  have hpop : Good T Q (Adds (addedInit init) g)
      (fun _ ↦ modify fun g' ↦ { g' with loops := g.loops }) g₁₁ := (good_modify _).imp
    fun g' hg' ↦ by
      subst hg'
      exact ⟨h₁₁.asynchronous.trans hasync, h₁₁.cleanup.trans hcleanup, rfl⟩
  refine hpop.bind (fun _ hg₁₁ g₁₂ h₁₂ ↦ ?_) fun _ g₁₂ h₁₂ ↦ ?_
  · rwa [Still, h₁₂.cleanup, ← hcleanup, ← h₁₁.cleanup]
  refine Good.after (Frame.refl g₁₂) (good_cleanupEmit _ (h₁₂.fine hfine hadded))
    fun _ g₁₃ h₁₃ ↦ ?_
  have hclear : Good T Q (Frame g) (fun _ ↦ modify fun g' ↦ { g' with cleanup := g.cleanup })
      g₁₃ := (good_modify _).imp fun g' hg' ↦ by
    subst hg'
    exact ⟨h₁₃.asynchronous.trans h₁₂.asynchronous, rfl, h₁₃.loops.trans h₁₂.loops⟩
  refine hclear.bind (fun _ hg₁₃ g₁₄ h₁₄ ↦ ?_) fun _ g₁₄ h₁₄ ↦ ?_
  · intro c hc
    rw [h₁₄.cleanup] at hc
    refine hg₁₃ c ?_
    rw [h₁₃.cleanup, h₁₂.cleanup]
    exact List.mem_append_right _ hc
  exact (plain_line _ _).good.imp fun _ ↦ h₁₄.trans

theorem good_leave (format : String) (hfine : ∀ c ∈ g.cleanup, c.Fine g) (h : g.loops ≠ []) :
    Good T Q (Frame g) (fun n ↦ leave T n format) g := by
  refine Good.succ rfl (good_get ?_)
  cases hl : g.loops with
  | nil => exact absurd hl h
  | cons l ls => exact (good_cleanupEmit l.stop hfine).step fun _ g' _ ↦ (plain_line _ _).good

end Good

/-! ## Accepted statements -/

section Accepted

variable {K : Checks Expr} {async : Bool}

/-- A state inside `depth` loops of a function. -/
structure Ready (async : Bool) (depth : ℕ) (g : State) : Prop where
  asynchronous : g.asynchronous = async
  loops : depth ≠ 0 → g.loops ≠ []
  fine : ∀ c ∈ g.cleanup, c.Fine g

theorem Ready.adds {depth : ℕ} {cs : List Cleanup} {g g' : State} (h : Ready async depth g)
    (hg' : Adds cs g g') (hcs : ∀ c ∈ cs, c.Fine g) : Ready async depth g' :=
  ⟨hg'.asynchronous.trans h.asynchronous, by rw [hg'.loops]; exact h.loops,
    hg'.fine h.fine hcs⟩

theorem Ready.frame {depth : ℕ} {g g' : State} (h : Ready async depth g) (hg' : Frame g g') :
    Ready async depth g' :=
  h.adds hg'.adds fun _ hc ↦ absurd hc List.not_mem_nil

/-- The body of a loop. -/
theorem Ready.enter {depth : ℕ} {cs : List Cleanup} {g g' : State} (h : Ready async depth g)
    (hasync : g'.asynchronous = g.asynchronous) (hcleanup : g'.cleanup = cs ++ g.cleanup)
    (hloops : g'.loops ≠ []) (hcs : ∀ c ∈ cs, c.Fine g) : Ready async (depth + 1) g' := by
  refine ⟨hasync.trans h.asynchronous, fun _ ↦ hloops, fun c hc ↦ ?_⟩
  rw [hcleanup, List.mem_append] at hc
  exact (hc.elim (hcs c) (h.fine c)).congr hasync

theorem Ready.fine_of_accepts {depth : ℕ} {g : State} (h : Ready async depth g) {a : Expr}
    (ha : (checks K async).accepts a = true) : Fine g a := by
  simp only [checks, Bool.and_eq_true, Bool.or_eq_true, Bool.not_eq_true'] at ha
  exact ha.2.imp_left h.asynchronous.trans

theorem Ready.fine_of_all {depth : ℕ} {g : State} (h : Ready async depth g) {a : Option Expr}
    (ha : a.all (checks K async).accepts = true) : ∀ b ∈ a, Fine g b := by
  rintro b rfl
  exact h.fine_of_accepts (K := K) ha

theorem added_fine {depth sw : ℕ} {g : State} (h : Ready async depth g) {s : Stmt Expr}
    (hs : checkStmt (checks K async) depth sw s = true) : ∀ c ∈ added s, c.Fine g := by
  intro c hc
  cases s with
  | var locals a =>
      rw [added, List.mem_reverse, List.mem_map] at hc
      obtain ⟨l, -, rfl⟩ := hc
      trivial
  | defer a =>
      rw [List.mem_singleton.mp hc]
      rw [checkStmt] at hs
      exact h.fine_of_accepts (K := K) hs
  | _ => cases hc

theorem added_quiet {s : Stmt Expr} (h : ∀ e ∈ defers s, e.hasAwait = false) :
    ∀ c ∈ added s, c.Quiet := by
  intro c hc
  cases s with
  | var locals a =>
      rw [added, List.mem_reverse, List.mem_map] at hc
      obtain ⟨l, -, rfl⟩ := hc
      trivial
  | defer a =>
      rw [List.mem_singleton.mp hc]
      exact h a List.mem_cons_self
  | _ => cases hc

theorem flatMap_added_cons (s : Stmt Expr) (body : List (Stmt Expr)) :
    (s :: body).reverse.flatMap added = body.reverse.flatMap added ++ added s := by
  rw [List.reverse_cons, List.flatMap_append, List.flatMap_singleton]

theorem block_fine {depth sw : ℕ} {g : State} (h : Ready async depth g)
    {body : List (Stmt Expr)} (hs : checkBlock (checks K async) depth sw body = true) :
    ∀ c ∈ body.reverse.flatMap added, c.Fine g := by
  induction body with
  | nil => exact fun c hc ↦ absurd hc List.not_mem_nil
  | cons s body ih =>
      rw [checkBlock, Bool.and_eq_true] at hs
      intro c hc
      rw [flatMap_added_cons, List.mem_append] at hc
      rcases hc with hc | hc
      · exact ih hs.2 c hc
      · exact added_fine h hs.1 c hc

theorem block_quiet {body : List (Stmt Expr)} (h : ∀ e ∈ defersAll body, e.hasAwait = false) :
    ∀ c ∈ body.reverse.flatMap added, c.Quiet := by
  induction body with
  | nil => exact fun c hc ↦ absurd hc List.not_mem_nil
  | cons s body ih =>
      rw [defersAll] at h
      intro c hc
      rw [flatMap_added_cons, List.mem_append] at hc
      rcases hc with hc | hc
      · exact ih (fun e he ↦ h e (List.mem_append_right _ he)) c hc
      · exact added_quiet (fun e he ↦ h e (List.mem_append_left _ he)) c hc

theorem inside_fine {depth sw : ℕ} {g : State} (h : Ready async depth g) {s : Stmt Expr}
    (hs : checkStmt (checks K async) depth sw s = true) : ∀ c ∈ addedInside s, c.Fine g := by
  cases s with
  | block body =>
      rw [checkStmt] at hs
      exact block_fine h hs
  | _ => exact added_fine h hs

theorem inside_quiet {s : Stmt Expr} (h : ∀ e ∈ defers s, e.hasAwait = false) :
    ∀ c ∈ addedInside s, c.Quiet := by
  cases s with
  | block body => exact block_quiet h
  | _ => exact added_quiet h

/-- No deferred expression of a list awaits. -/
abbrev AllQuiet (as : List Expr) : Prop := ∀ a ∈ as, a.hasAwait = false

/-- A statement adds its clean-up, by itself and as the body of a scope. -/
structure GoodStmt (T : Texts) (s : Stmt Expr) (g : State) : Prop where
  statement : Good T (AllQuiet (defers s)) (Adds (added s) g) (fun n ↦ statement T n s) g
  inside : Good T (AllQuiet (defers s)) (Adds (addedInside s) g) (fun n ↦ inside T n s) g

/-- The scope of a statement. -/
theorem GoodStmt.scope {depth sw : ℕ} {s : Stmt Expr} {g : State} (hready : Ready async depth g)
    (hs : checkStmt (checks K async) depth sw s = true) (h : ∀ g', Frame g g' → GoodStmt T s g') :
    Good T (AllQuiet (defers s)) (Frame g) (fun n ↦ scope T n s) g :=
  good_scope hready.fine (inside_fine hready hs) inside_quiet fun g' hg' ↦ (h g' hg').inside

theorem goodStmt_of_statement {s : Stmt Expr} {g : State} (hblock : ∀ body, s ≠ .block body)
    (h : Good T (AllQuiet (defers s)) (Adds (added s) g) (fun n ↦ statement T n s) g) :
    GoodStmt T s g := by
  refine ⟨h, Good.succ rfl ?_⟩
  cases s with
  | block body => exact absurd rfl (hblock body)
  | _ => exact h

/-- A loop of an accepted statement. -/
theorem accepted_loop {Q : Prop} {I : Option (Stmt Expr)} {S C N : Option Expr}
    {body : Stmt Expr} {depth sw : ℕ} {g : State} (hready : Ready async depth g)
    (hS : S.all (checks K async).accepts = true) (hC : C.all (checks K async).accepts = true)
    (hN : N.all (checks K async).accepts = true) (hadded : ∀ c ∈ addedInit I, c.Fine g)
    (hquiet : Q → ∀ c ∈ addedInit I, c.Quiet)
    (hinit : ∀ g', Frame g g' → Good T Q (Adds (addedInit I) g') (fun n ↦ initLoop T n I) g')
    (hbody : checkStmt (checks K async) (depth + 1) sw body = true)
    (hdefers : Q → AllQuiet (defers body))
    (hgood : ∀ g', Ready async (depth + 1) g' → GoodStmt T body g') :
    Good T Q (Frame g) (fun n ↦ loop T n I S C N body) g := by
  refine good_loop hready.fine hadded hquiet (hready.fine_of_all hS) (hready.fine_of_all hC)
    (hready.fine_of_all hN) hinit fun g' hasync hcleanup hloops ↦ ?_
  have hready' := hready.enter hasync hcleanup hloops hadded
  have hscope := GoodStmt.scope hready' hbody fun g'' hg'' ↦ hgood g'' (hready'.frame hg'')
  exact hscope.weaken hdefers

mutual

/-- Accepted statements are lowered well; by induction on the statement. -/
theorem good_stmt : ∀ (s : Stmt Expr) (depth sw : ℕ) (g : State), Ready async depth g →
    checkStmt (checks K async) depth sw s = true → GoodStmt T s g
  | .block body, depth, sw, g, hready, hs => by
      rw [checkStmt] at hs
      have hbody : ∀ g', Frame g g' →
          Good T (AllQuiet (defersAll body)) (Adds (addedInside (.block body)) g')
            (fun n ↦ inside T n (.block body)) g' :=
        fun g' hg' ↦ Good.succ rfl (good_block body depth sw g' (hready.frame hg') hs)
      refine ⟨Good.succ rfl ?_, hbody g (Frame.refl g)⟩
      refine (plain_line _ _).good.then fun _ g₁ h₁ ↦ ?_
      have hscope : Good T (AllQuiet (defersAll body)) (Frame g₁)
          (fun n ↦ scope T n (.block body)) g₁ :=
        good_scope (hready.frame h₁).fine (block_fine (hready.frame h₁) hs) block_quiet
          fun g' hg' ↦ hbody g' (h₁.trans hg')
      exact hscope.adds
  | .var locals a, depth, sw, g, hready, hs => by
      rw [checkStmt] at hs
      refine goodStmt_of_statement (fun _ h ↦ by cases h) (Good.succ rfl ?_)
      refine (plain_line _ _).good.then fun _ g₁ h₁ ↦ ?_
      refine (good_initial locals ((hready.frame h₁).fine_of_all hs)).then fun v g₂ h₂ ↦ ?_
      refine (plain_defineAll v locals).good.then fun _ g₃ h₃ ↦ ?_
      exact (good_modify _).imp fun g' hg' ↦ hg' ▸ ⟨rfl, rfl, rfl⟩
  | .expr a, depth, sw, g, hready, hs => by
      rw [checkStmt] at hs
      refine goodStmt_of_statement (fun _ h ↦ by cases h) (Good.succ rfl ?_)
      refine (plain_line _ _).good.then fun _ g₁ h₁ ↦ ?_
      exact (good_optional (fun a g ↦ good_expression) _ ((hready.frame h₁).fine_of_all hs)).adds
  | .ret a, depth, sw, g, hready, hs => by
      rw [checkStmt] at hs
      refine goodStmt_of_statement (fun _ h ↦ by cases h) (Good.succ rfl ?_)
      refine (plain_line _ _).good.then fun _ g₁ h₁ ↦ ?_
      refine (good_result ((hready.frame h₁).fine_of_all hs)).then fun v g₂ h₂ ↦ ?_
      have hset : ∀ r : Option Expr, Plain T (modify fun g ↦ { g with returning := r }) :=
        fun r ↦ plain_modify fun g ↦ ⟨rfl, rfl, rfl⟩
      refine (hset a).good.then fun _ g₃ h₃ ↦ ?_
      have hfine := (hready.frame ((h₁.trans h₂).trans h₃)).fine
      refine (good_cleanupEmit [] hfine).then fun _ g₄ h₄ ↦ ?_
      refine (hset none).good.then fun _ g₅ h₅ ↦ ?_
      exact (plain_finish v).good.adds
  | .ite a body none, depth, sw, g, hready, hs => by
      rw [checkStmt, Bool.and_true, Bool.and_eq_true] at hs
      have hsub : AllQuiet (defers (.ite a body none)) → AllQuiet (defers body) :=
        fun hq e he ↦ hq e (List.mem_append_left _ he)
      refine goodStmt_of_statement (fun _ h ↦ by cases h) (Good.succ rfl ?_)
      refine (plain_line _ _).good.then fun _ g₁ h₁ ↦ ?_
      refine (good_value ((hready.frame h₁).fine_of_accepts hs.1)).then fun v g₂ h₂ ↦ ?_
      refine (plain_line _ _).good.then fun _ g₃ h₃ ↦ ?_
      have hready₃ := hready.frame ((h₁.trans h₂).trans h₃)
      have hscope := GoodStmt.scope (T := T) hready₃ hs.2 fun g' hg' ↦
        good_stmt body depth sw g' (hready₃.frame hg') hs.2
      refine (hscope.weaken hsub).then fun _ g₄ h₄ ↦ ?_
      exact (good_pure _).adds
  | .ite a body (some b), depth, sw, g, hready, hs => by
      rw [checkStmt, Bool.and_eq_true, Bool.and_eq_true] at hs
      have hbody : AllQuiet (defers (.ite a body (some b))) → AllQuiet (defers body) :=
        fun hq e he ↦ hq e (List.mem_append_left _ he)
      have helse : AllQuiet (defers (.ite a body (some b))) → AllQuiet (defers b) :=
        fun hq e he ↦ hq e (List.mem_append_right _ he)
      refine goodStmt_of_statement (fun _ h ↦ by cases h) (Good.succ rfl ?_)
      refine (plain_line _ _).good.then fun _ g₁ h₁ ↦ ?_
      refine (good_value ((hready.frame h₁).fine_of_accepts hs.1.1)).then fun v g₂ h₂ ↦ ?_
      refine (plain_line _ _).good.then fun _ g₃ h₃ ↦ ?_
      have hready₃ := hready.frame ((h₁.trans h₂).trans h₃)
      have hscope := GoodStmt.scope (T := T) hready₃ hs.1.2 fun g' hg' ↦
        good_stmt body depth sw g' (hready₃.frame hg') hs.1.2
      refine (hscope.weaken hbody).then fun _ g₄ h₄ ↦ ?_
      refine (plain_line _ _).good.then fun _ g₅ h₅ ↦ ?_
      have hready₅ := hready₃.frame (h₄.trans h₅)
      have hscope := GoodStmt.scope (T := T) hready₅ hs.2 fun g' hg' ↦
        good_stmt b depth sw g' (hready₅.frame hg') hs.2
      exact (hscope.weaken helse).adds
  | .switch a items, depth, sw, g, hready, hs => by
      rw [checkStmt, Bool.and_eq_true, Bool.and_eq_true, Bool.and_eq_true] at hs
      obtain ⟨⟨⟨ha, hlabels⟩, -⟩, hitems⟩ := hs
      refine goodStmt_of_statement (fun _ h ↦ by cases h) (Good.succ rfl ?_)
      refine (plain_line _ _).good.then fun _ g₁ h₁ ↦ ?_
      refine (good_value ((hready.frame h₁).fine_of_accepts ha)).then fun subject g₂ h₂ ↦ ?_
      have hready₂ := hready.frame (h₁.trans h₂)
      have htests : ∀ item ∈ items, ∀ v ∈ item.1.getD [], Fine g₂ v := fun item hitem v hv ↦
        hready₂.fine_of_accepts (List.all_eq_true.mp (List.all_eq_true.mp hlabels item hitem) v hv)
      refine (good_tests htests).then fun all g₃ h₃ ↦ ?_
      refine (plain_when _ (plain_line _ _)).good.then fun _ g₄ h₄ ↦ ?_
      have hready₄ := hready₂.frame (h₃.trans h₄)
      refine (good_cases items subject depth g₄ hready₄ hitems).then fun _ g₅ h₅ ↦ ?_
      exact (good_fallback items depth g₅ (hready₄.frame h₅) hitems).adds
  | .while a body, depth, sw, g, hready, hs => by
      rw [checkStmt, Bool.and_eq_true] at hs
      refine goodStmt_of_statement (fun _ h ↦ by cases h) (Good.succ rfl ?_)
      refine (plain_line _ _).good.then fun _ g₁ h₁ ↦ ?_
      have hready₁ := hready.frame h₁
      have hloop := accepted_loop (T := T) (I := none) (S := none) (C := some a) (N := none)
        hready₁ rfl hs.1 rfl (fun c hc ↦ absurd hc List.not_mem_nil)
        (fun _ c hc ↦ absurd hc List.not_mem_nil) (fun _ _ ↦ Good.succ rfl (good_pure _).adds)
        hs.2 (fun hq ↦ hq) fun g' hg' ↦ good_stmt body (depth + 1) sw g' hg' hs.2
      exact hloop.adds
  | .for none b c body, depth, sw, g, hready, hs => by
      rw [checkStmt, Bool.true_and, Bool.and_eq_true, Bool.and_eq_true] at hs
      refine goodStmt_of_statement (fun _ h ↦ by cases h) (Good.succ rfl ?_)
      refine (plain_line _ _).good.then fun _ g₁ h₁ ↦ ?_
      have hready₁ := hready.frame h₁
      have hloop := accepted_loop (T := T) (I := none) (S := none) (C := b) (N := c)
        hready₁ rfl hs.1.1 hs.1.2 (fun c hc ↦ absurd hc List.not_mem_nil)
        (fun _ c hc ↦ absurd hc List.not_mem_nil) (fun _ _ ↦ Good.succ rfl (good_pure _).adds)
        hs.2 (fun hq ↦ hq) fun g' hg' ↦ good_stmt body (depth + 1) sw g' hg' hs.2
      exact hloop.adds
  | .for (some a) b c body, depth, sw, g, hready, hs => by
      rw [checkStmt, Bool.and_eq_true, Bool.and_eq_true, Bool.and_eq_true] at hs
      have hinit : AllQuiet (defers (.for (some a) b c body)) → AllQuiet (defers a) :=
        fun hq e he ↦ hq e (List.mem_append_left _ he)
      have hbody : AllQuiet (defers (.for (some a) b c body)) → AllQuiet (defers body) :=
        fun hq e he ↦ hq e (List.mem_append_right _ he)
      refine goodStmt_of_statement (fun _ h ↦ by cases h) (Good.succ rfl ?_)
      refine (plain_line _ _).good.then fun _ g₁ h₁ ↦ ?_
      have hready₁ := hready.frame h₁
      have hloop := accepted_loop (T := T) (I := some a) (S := none) (C := b) (N := c)
        hready₁ rfl hs.1.1.2 hs.1.2 (added_fine hready₁ hs.1.1.1)
        (fun hq ↦ added_quiet (hinit hq))
        (fun g' hg' ↦ Good.succ rfl ((good_stmt a depth sw g' (hready₁.frame hg')
          hs.1.1.1).statement.weaken hinit))
        hs.2 hbody fun g' hg' ↦ good_stmt body (depth + 1) sw g' hg' hs.2
      exact hloop.adds
  | .range a body, depth, sw, g, hready, hs => by
      rw [checkStmt, Bool.and_eq_true] at hs
      refine goodStmt_of_statement (fun _ h ↦ by cases h) (Good.succ rfl ?_)
      refine (plain_line _ _).good.then fun _ g₁ h₁ ↦ ?_
      have hready₁ := hready.frame h₁
      have hloop := accepted_loop (T := T) (I := none) (S := some a) (C := none) (N := none)
        hready₁ hs.1 rfl rfl (fun c hc ↦ absurd hc List.not_mem_nil)
        (fun _ c hc ↦ absurd hc List.not_mem_nil) (fun _ _ ↦ Good.succ rfl (good_pure _).adds)
        hs.2 (fun hq ↦ hq) fun g' hg' ↦ good_stmt body (depth + 1) sw g' hg' hs.2
      exact hloop.adds
  | .break, depth, sw, g, hready, hs => by
      rw [checkStmt, Bool.and_eq_true, bne_iff_ne] at hs
      refine goodStmt_of_statement (fun _ h ↦ by cases h) (Good.succ rfl ?_)
      refine (plain_line _ _).good.then fun _ g₁ h₁ ↦ ?_
      have hready₁ := hready.frame h₁
      exact (good_leave _ hready₁.fine (hready₁.loops hs.2)).adds
  | .continue, depth, sw, g, hready, hs => by
      rw [checkStmt, bne_iff_ne] at hs
      refine goodStmt_of_statement (fun _ h ↦ by cases h) (Good.succ rfl ?_)
      refine (plain_line _ _).good.then fun _ g₁ h₁ ↦ ?_
      have hready₁ := hready.frame h₁
      exact (good_leave _ hready₁.fine (hready₁.loops hs)).adds
  | .defer a, depth, sw, g, hready, hs => by
      refine goodStmt_of_statement (fun _ h ↦ by cases h) (Good.succ rfl ?_)
      refine (plain_line _ _).good.then fun _ g₁ h₁ ↦ ?_
      exact (good_modify _).imp fun g' hg' ↦ hg' ▸ ⟨rfl, rfl, rfl⟩
  | .delete a, depth, sw, g, hready, hs => by
      rw [checkStmt] at hs
      refine goodStmt_of_statement (fun _ h ↦ by cases h) (Good.succ rfl ?_)
      refine (plain_line _ _).good.then fun _ g₁ h₁ ↦ ?_
      refine (good_value ((hready.frame h₁).fine_of_accepts hs)).then fun v g₂ h₂ ↦ ?_
      exact (plain_line _ _).good.adds

theorem good_block : ∀ (body : List (Stmt Expr)) (depth sw : ℕ) (g : State), Ready async depth g →
    checkBlock (checks K async) depth sw body = true →
    Good T (AllQuiet (defersAll body)) (Adds (body.reverse.flatMap added) g)
      (fun n ↦ statements T n body) g
  | [], depth, sw, g, hready, hs => Good.succ rfl (good_pure _).adds
  | s :: body, depth, sw, g, hready, hs => by
      rw [checkBlock, Bool.and_eq_true] at hs
      have hhead : AllQuiet (defersAll (s :: body)) → AllQuiet (defers s) :=
        fun hq e he ↦ hq e (List.mem_append_left _ he)
      have htail : AllQuiet (defersAll (s :: body)) → AllQuiet (defersAll body) :=
        fun hq e he ↦ hq e (List.mem_append_right _ he)
      have hfirst := (good_stmt s depth sw g hready hs.1).statement.weaken hhead
      refine Good.succ rfl (hfirst.bind (fun hq hg g' hg' ↦ ?_) fun _ g' hg' ↦ ?_)
      · exact hg'.still hg (added_quiet (hhead hq))
      · have hrest := good_block body depth sw g'
          (hready.adds hg' (added_fine hready hs.1)) hs.2
        refine (hrest.weaken htail).imp fun g'' hg'' ↦ ?_
        rw [flatMap_added_cons]
        exact hg'.trans hg''

theorem good_cases : ∀ (items : List (Item Expr)) (subject : Value) (depth : ℕ) (g : State),
    Ready async depth g → checkItems (checks K async) depth items = true →
    Good T (AllQuiet (defersItems items)) (Frame g) (fun n ↦ cases T n subject items) g
  | [], subject, depth, g, hready, hs => Good.succ rfl (good_pure _)
  | (none, body) :: items, subject, depth, g, hready, hs => by
      rw [checkItems, Bool.and_eq_true] at hs
      exact Good.succ rfl ((good_cases items subject depth g hready hs.2).weaken
        fun hq e he ↦ hq e (List.mem_append_right _ he))
  | (some vs, body) :: items, subject, depth, g, hready, hs => by
      rw [checkItems, Bool.and_eq_true] at hs
      have hhead : AllQuiet (defersItems ((some vs, body) :: items)) → AllQuiet (defersAll body) :=
        fun hq e he ↦ hq e (List.mem_append_left _ he)
      apply Good.succ rfl
      refine (plain_line _ _).good.step fun _ g₁ h₁ ↦ ?_
      have hready₁ := hready.frame h₁
      have hscope : Good T (AllQuiet (defersAll body)) (Frame g₁)
          (fun n ↦ scope T n (.block body)) g₁ :=
        good_scope hready₁.fine (block_fine hready₁ hs.1) block_quiet fun g' hg' ↦
          Good.succ rfl (good_block body depth (depth + 1) g' (hready₁.frame hg') hs.1)
      refine (hscope.weaken hhead).step fun _ g₂ h₂ ↦ ?_
      exact (good_cases items subject depth g₂ (hready₁.frame h₂) hs.2).weaken
        fun hq e he ↦ hq e (List.mem_append_right _ he)

theorem good_fallback : ∀ (items : List (Item Expr)) (depth : ℕ) (g : State),
    Ready async depth g → checkItems (checks K async) depth items = true →
    Good T (AllQuiet (defersItems items)) (Frame g) (fun n ↦ fallback T n items) g
  | [], depth, g, hready, hs => Good.succ rfl (good_pure _)
  | (some vs, body) :: items, depth, g, hready, hs => by
      rw [checkItems, Bool.and_eq_true] at hs
      exact Good.succ rfl ((good_fallback items depth g hready hs.2).weaken
        fun hq e he ↦ hq e (List.mem_append_right _ he))
  | (none, body) :: items, depth, g, hready, hs => by
      rw [checkItems, Bool.and_eq_true] at hs
      have hrest : AllQuiet (defersItems ((none, body) :: items)) → AllQuiet (defersItems items) :=
        fun hq e he ↦ hq e (List.mem_append_right _ he)
      apply Good.succ rfl
      simp only [fallback]
      split
      · exact (good_fallback items depth g hready hs.2).weaken hrest
      · rename_i hlast
        have hhead : AllQuiet (defersItems ((none, body) :: items)) → AllQuiet (defersAll body) := by
          intro hq e he
          refine hq e (List.mem_append_left _ ?_)
          rw [Bool.eq_false_iff.mpr hlast]
          exact he
        refine (plain_line _ _).good.step fun _ g₁ h₁ ↦ ?_
        have hready₁ := hready.frame h₁
        have hscope : Good T (AllQuiet (defersAll body)) (Frame g₁)
            (fun n ↦ scope T n (.block body)) g₁ :=
          good_scope hready₁.fine (block_fine hready₁ hs.1) block_quiet fun g' hg' ↦
            Good.succ rfl (good_block body depth (depth + 1) g' (hready₁.frame hg') hs.1)
        exact hscope.weaken hhead

end

/-! ## Statements that never end -/

section Awaits

variable {a₀ : Expr}

/-- The end of a scope lowers what the scope defers. -/
theorem stuck_cleanupEmit (h₀ : a₀.hasAwait = true) {cs stop : List Cleanup} {g : State}
    (hasync : g.asynchronous = true) (hcleanup : g.cleanup = cs ++ stop) (hmem : .defer a₀ ∈ cs)
    (n : ℕ) : NoResult (cleanupEmit T n stop) g := by
  cases n with
  | zero => exact NoResult.exhausted
  | succ n =>
      have htake : g.cleanup.take (g.cleanup.length - stop.length) = cs := by
        rw [hcleanup, List.length_append, Nat.add_sub_cancel, List.take_left]
      refine stuck_get ?_
      rw [htake]
      refine (stuck h₀ n).emitAll cs g hmem hasync ?_
      rw [hcleanup]
      exact List.mem_append_left _ hmem

/-- A statement has no result, or defers the expression in the scope around it. -/
structure StuckStmt (T : Texts) (a₀ : Expr) (s : Stmt Expr) (g : State) : Prop where
  statement : (∀ n, NoResult (statement T n s) g) ∨ .defer a₀ ∈ added s
  inside : (∀ n, NoResult (inside T n s) g) ∨ .defer a₀ ∈ addedInside s

theorem stuck_succ {x : ℕ → Lower Unit} {g : State} (h₀ : x 0 = exhausted)
    (h : ∀ n, NoResult (x (n + 1)) g) (n : ℕ) : NoResult (x n) g := by
  cases n with
  | zero =>
      rw [h₀]
      exact NoResult.exhausted
  | succ n => exact h n

/-- A scope has no result if its statement has none or defers the expression. -/
theorem stuck_scope (h₀ : a₀.hasAwait = true) {s : Stmt Expr} {g : State}
    (hasync : g.asynchronous = true)
    (hgood : ∀ g', Frame g g' → GoodStmt T s g')
    (h : ∀ g', Frame g g' → (∀ n, NoResult (inside T n s) g') ∨ .defer a₀ ∈ addedInside s) (n : ℕ) :
    NoResult (scope T n s) g := by
  refine stuck_succ (x := fun n ↦ scope T n s) rfl (fun n ↦ ?_) n
  refine stuck_get (stuck_bind (plain_line _ _).keeps fun _ g₁ h₁ ↦ ?_)
  rcases h g₁ h₁ with hstuck | hmem
  · exact (hstuck n).bind_left _
  · refine NoResult.bind_right ((hgood g₁ h₁).inside.meets n) fun _ g₂ h₂ ↦ ?_
    have hadds := h₂.of_frame h₁
    exact (stuck_cleanupEmit h₀ (hadds.asynchronous.trans hasync) hadds.cleanup hmem n).bind_left _

theorem stuckStmt_of_statement {s : Stmt Expr} {g : State} (hblock : ∀ body, s ≠ .block body)
    (h : ∀ n, NoResult (statement T n s) g) : StuckStmt T a₀ s g := by
  refine ⟨Or.inl h, Or.inl (stuck_succ rfl fun n ↦ ?_)⟩
  cases s with
  | block body => exact absurd rfl (hblock body)
  | _ => exact h n

/-- The scope of a statement that is stuck. -/
theorem StuckStmt.scope (h₀ : a₀.hasAwait = true) {depth sw : ℕ} {s : Stmt Expr} {g : State}
    (hready : Ready true depth g) (hs : checkStmt (checks K true) depth sw s = true)
    (h : ∀ g', Ready true depth g' → StuckStmt T a₀ s g') (n : ℕ) : NoResult (scope T n s) g :=
  stuck_scope h₀ hready.asynchronous
    (fun g' hg' ↦ good_stmt s depth sw g' (hready.frame hg') hs)
    (fun g' hg' ↦ (h g' (hready.frame hg')).inside) n

/-- A loop has no result if its first clause or its body is stuck. -/
theorem stuck_loop (h₀ : a₀.hasAwait = true) {I : Option (Stmt Expr)} {S C N : Option Expr}
    {body : Stmt Expr} {depth sw : ℕ} {g : State} (hready : Ready true depth g)
    (hS : S.all (checks K true).accepts = true) (hC : C.all (checks K true).accepts = true)
    (hN : N.all (checks K true).accepts = true) (hadded : ∀ c ∈ addedInit I, c.Fine g)
    (hinit : ∀ g', Frame g g' → Good T False (Adds (addedInit I) g') (fun n ↦ initLoop T n I) g')
    (hbody : checkStmt (checks K true) (depth + 1) sw body = true)
    (hgood : ∀ g', Ready true (depth + 1) g' → GoodStmt T body g')
    (h : (∀ g', Ready true depth g' → (∀ n, NoResult (initLoop T n I) g') ∨
        .defer a₀ ∈ addedInit I) ∨
      ∀ g', Ready true (depth + 1) g' → StuckStmt T a₀ body g') (n : ℕ) :
    NoResult (loop T n I S C N body) g := by
  refine stuck_succ (x := fun n ↦ loop T n I S C N body) rfl (fun n ↦ ?_) n
  refine stuck_get (stuck_bind (plain_line _ _).keeps fun _ g₁ h₁ ↦ ?_)
  have hready₁ := hready.frame h₁
  have hcases : (∀ n, NoResult (initLoop T n I) g₁) ∨ .defer a₀ ∈ addedInit I ∨
      ∀ g', Ready true (depth + 1) g' → StuckStmt T a₀ body g' := by
    rcases h with h | h
    · exact (h g₁ hready₁).imp_right Or.inl
    · exact Or.inr (Or.inr h)
  rcases hcases with hstuck | hcases
  · exact (hstuck n).bind_left _
  refine NoResult.bind_right ((hinit g₁ h₁).meets n) fun _ g₂ h₂ ↦ ?_
  have hadds := h₂.of_frame h₁
  have hready₂ := hready.adds hadds hadded
  refine stuck_bind ((good_startRange (Q := False) (hready₂.fine_of_all hS)).meets n)
    fun _ g₃ h₃ ↦ ?_
  refine NoResult.bind_right ((good_modify (T := T) (Q := False) _).meets n) fun _ g₄ h₄ ↦ ?_
  have hasync : g₄.asynchronous = true := by
    subst h₄
    exact (hready₂.frame h₃).asynchronous
  have hcleanup : g₄.cleanup = addedInit I ++ g.cleanup := by
    subst h₄
    exact h₃.cleanup.trans hadds.cleanup
  have hready₄ : Ready true (depth + 1) g₄ := by
    refine hready.enter (hasync.trans hready.asynchronous.symm) hcleanup ?_ hadded
    subst h₄
    exact List.cons_ne_nil _ _
  refine stuck_bind (plain_line _ _).keeps fun _ g₅ h₅ ↦ ?_
  have hready₅ := hready₄.frame h₅
  refine stuck_bind ((good_optional (Q := False) (fun a g ↦ good_value) _
    (hready₅.fine_of_all hC)).meets n) fun _ g₆ h₆ ↦ ?_
  refine stuck_bind (plain_when _ (plain_lines _ _)).keeps fun _ g₇ h₇ ↦ ?_
  have hready₇ := (hready₅.frame h₆).frame h₇
  rcases hcases with hmem | hbody'
  swap
  · exact (StuckStmt.scope h₀ hready₇ hbody hbody' n).bind_left _
  -- The body ends, and the clean-up behind the loop lowers what its first clause has deferred.
  have hscope := GoodStmt.scope (T := T) hready₇ hbody fun g' hg' ↦
    hgood g' (hready₇.frame hg')
  refine stuck_bind (hscope.meets n) fun _ g₈ h₈ ↦ ?_
  refine stuck_bind (plain_line _ _).keeps fun _ g₉ h₉ ↦ ?_
  have hready₉ := (hready₇.frame h₈).frame h₉
  refine stuck_bind ((good_optional (Q := False) (fun a g ↦ good_expression) _
    (hready₉.fine_of_all hN)).meets n) fun _ g₁₀ h₁₀ ↦ ?_
  refine stuck_bind (plain_lines _ _).keeps fun _ g₁₁ h₁₁ ↦ ?_
  refine NoResult.bind_right ((good_modify (T := T) (Q := False) _).meets n)
    fun _ g₁₂ h₁₂ ↦ ?_
  have hframe := (((((h₅.trans h₆).trans h₇).trans h₈).trans h₉).trans h₁₀).trans h₁₁
  have hasync₁₂ : g₁₂.asynchronous = true := by
    rw [h₁₂]
    exact hframe.asynchronous.trans hasync
  have hcleanup₁₂ : g₁₂.cleanup = addedInit I ++ g.cleanup := by
    rw [h₁₂]
    exact hframe.cleanup.trans hcleanup
  exact (stuck_cleanupEmit h₀ hasync₁₂ hcleanup₁₂ hmem n).bind_left _

mutual

/-- What defers an `await` is stuck; by induction on the statement. -/
theorem stuck_stmt (h₀ : a₀.hasAwait = true) : ∀ (s : Stmt Expr) (depth sw : ℕ) (g : State),
    Ready true depth g → checkStmt (checks K true) depth sw s = true → a₀ ∈ defers s →
    StuckStmt T a₀ s g
  | .block body, depth, sw, g, hready, hs, hmem => by
      have hs' := hs
      rw [checkStmt] at hs'
      have hinside : ∀ g', Ready true depth g' →
          (∀ n, NoResult (inside T n (.block body)) g') ∨ .defer a₀ ∈ addedInside (.block body) :=
        fun g' hg' ↦ (stuck_block h₀ body depth sw g' hg' hs' hmem).imp_left
          fun h ↦ stuck_succ rfl h
      refine ⟨Or.inl (stuck_succ rfl fun n ↦ ?_), hinside g hready⟩
      refine stuck_bind (plain_line _ _).keeps fun _ g₁ h₁ ↦ ?_
      have hready₁ := hready.frame h₁
      exact stuck_scope h₀ hready₁.asynchronous
        (fun g' hg' ↦ good_stmt (.block body) depth sw g' (hready₁.frame hg') hs)
        (fun g' hg' ↦ hinside g' (hready₁.frame hg')) n
  | .ite a body none, depth, sw, g, hready, hs, hmem => by
      rw [checkStmt, Bool.and_true, Bool.and_eq_true] at hs
      rw [defers, List.append_nil] at hmem
      refine stuckStmt_of_statement (fun _ h ↦ by cases h) (stuck_succ rfl fun n ↦ ?_)
      refine stuck_bind (plain_line _ _).keeps fun _ g₁ h₁ ↦ ?_
      have hvalue := (hready.frame h₁).fine_of_accepts hs.1
      refine stuck_bind ((expressionsKeep n).value a g₁ hvalue) fun v g₂ h₂ ↦ ?_
      refine stuck_bind (plain_line _ _).keeps fun _ g₃ h₃ ↦ ?_
      have hready₃ := hready.frame ((h₁.trans h₂).trans h₃)
      exact (StuckStmt.scope h₀ hready₃ hs.2
        (fun g' hg' ↦ stuck_stmt h₀ body depth sw g' hg' hs.2 hmem) n).bind_left _
  | .ite a body (some b), depth, sw, g, hready, hs, hmem => by
      rw [checkStmt, Bool.and_eq_true, Bool.and_eq_true] at hs
      refine stuckStmt_of_statement (fun _ h ↦ by cases h) (stuck_succ rfl fun n ↦ ?_)
      refine stuck_bind (plain_line _ _).keeps fun _ g₁ h₁ ↦ ?_
      have hvalue := (hready.frame h₁).fine_of_accepts hs.1.1
      refine stuck_bind ((expressionsKeep n).value a g₁ hvalue) fun v g₂ h₂ ↦ ?_
      refine stuck_bind (plain_line _ _).keeps fun _ g₃ h₃ ↦ ?_
      have hready₃ := hready.frame ((h₁.trans h₂).trans h₃)
      rw [defers, List.mem_append] at hmem
      rcases hmem with hmem | hmem
      · exact (StuckStmt.scope h₀ hready₃ hs.1.2
          (fun g' hg' ↦ stuck_stmt h₀ body depth sw g' hg' hs.1.2 hmem) n).bind_left _
      · have hscope := GoodStmt.scope (T := T) hready₃ hs.1.2 fun g' hg' ↦
          good_stmt body depth sw g' (hready₃.frame hg') hs.1.2
        refine stuck_bind (hscope.meets n) fun _ g₄ h₄ ↦ ?_
        refine stuck_bind (plain_line _ _).keeps fun _ g₅ h₅ ↦ ?_
        exact StuckStmt.scope h₀ (hready₃.frame (h₄.trans h₅)) hs.2
          (fun g' hg' ↦ stuck_stmt h₀ b depth sw g' hg' hs.2 hmem) n
  | .switch a items, depth, sw, g, hready, hs, hmem => by
      rw [checkStmt, Bool.and_eq_true, Bool.and_eq_true, Bool.and_eq_true] at hs
      obtain ⟨⟨⟨ha, hlabels⟩, -⟩, hitems⟩ := hs
      refine stuckStmt_of_statement (fun _ h ↦ by cases h) (stuck_succ rfl fun n ↦ ?_)
      refine stuck_bind (plain_line _ _).keeps fun _ g₁ h₁ ↦ ?_
      have hvalue := (hready.frame h₁).fine_of_accepts ha
      refine stuck_bind ((expressionsKeep n).value a g₁ hvalue) fun subject g₂ h₂ ↦ ?_
      have hready₂ := hready.frame (h₁.trans h₂)
      have htests : ∀ item ∈ items, ∀ v ∈ item.1.getD [], Fine g₂ v := fun item hitem v hv ↦
        hready₂.fine_of_accepts (List.all_eq_true.mp (List.all_eq_true.mp hlabels item hitem) v hv)
      refine stuck_bind ((good_tests (Q := False) htests).meets n) fun all g₃ h₃ ↦ ?_
      refine stuck_bind (plain_when _ (plain_line _ _)).keeps fun _ g₄ h₄ ↦ ?_
      have hready₄ := hready₂.frame (h₃.trans h₄)
      rcases stuck_items h₀ items depth hitems hmem with hcases | ⟨-, hfallback⟩
      · exact (hcases subject g₄ hready₄ n).bind_left _
      · refine stuck_bind ((good_cases items subject depth g₄ hready₄ hitems).meets n)
          fun _ g₅ h₅ ↦ ?_
        exact hfallback g₅ (hready₄.frame h₅) n
  | .while a body, depth, sw, g, hready, hs, hmem => by
      rw [checkStmt, Bool.and_eq_true] at hs
      refine stuckStmt_of_statement (fun _ h ↦ by cases h) (stuck_succ rfl fun n ↦ ?_)
      refine stuck_bind (plain_line _ _).keeps fun _ g₁ h₁ ↦ ?_
      have hready₁ := hready.frame h₁
      exact stuck_loop (T := T) (I := none) (S := none) (C := some a) (N := none) h₀ hready₁ rfl
        hs.1 rfl (fun c hc ↦ absurd hc List.not_mem_nil)
        (fun _ _ ↦ Good.succ rfl (good_pure _).adds) hs.2
        (fun g' hg' ↦ good_stmt body (depth + 1) sw g' hg' hs.2)
        (Or.inr fun g' hg' ↦ stuck_stmt h₀ body (depth + 1) sw g' hg' hs.2 hmem) n
  | .for none b c body, depth, sw, g, hready, hs, hmem => by
      rw [checkStmt, Bool.true_and, Bool.and_eq_true, Bool.and_eq_true] at hs
      rw [defers, List.nil_append] at hmem
      refine stuckStmt_of_statement (fun _ h ↦ by cases h) (stuck_succ rfl fun n ↦ ?_)
      refine stuck_bind (plain_line _ _).keeps fun _ g₁ h₁ ↦ ?_
      have hready₁ := hready.frame h₁
      exact stuck_loop (T := T) (I := none) (S := none) (C := b) (N := c) h₀ hready₁ rfl
        hs.1.1 hs.1.2 (fun c hc ↦ absurd hc List.not_mem_nil)
        (fun _ _ ↦ Good.succ rfl (good_pure _).adds) hs.2
        (fun g' hg' ↦ good_stmt body (depth + 1) sw g' hg' hs.2)
        (Or.inr fun g' hg' ↦ stuck_stmt h₀ body (depth + 1) sw g' hg' hs.2 hmem) n
  | .for (some a) b c body, depth, sw, g, hready, hs, hmem => by
      rw [checkStmt, Bool.and_eq_true, Bool.and_eq_true, Bool.and_eq_true] at hs
      rw [defers, List.mem_append] at hmem
      refine stuckStmt_of_statement (fun _ h ↦ by cases h) (stuck_succ rfl fun n ↦ ?_)
      refine stuck_bind (plain_line _ _).keeps fun _ g₁ h₁ ↦ ?_
      have hready₁ := hready.frame h₁
      refine stuck_loop (T := T) (I := some a) (S := none) (C := b) (N := c) h₀ hready₁ rfl
        hs.1.1.2 hs.1.2 (added_fine hready₁ hs.1.1.1) (fun g' hg' ↦ ?_) hs.2
        (fun g' hg' ↦ good_stmt body (depth + 1) sw g' hg' hs.2) ?_ n
      · exact Good.succ rfl ((good_stmt a depth sw g' (hready₁.frame hg')
          hs.1.1.1).statement.weaken False.elim)
      · rcases hmem with hmem | hmem
        · refine Or.inl fun g' hg' ↦ ?_
          exact (stuck_stmt h₀ a depth sw g' hg' hs.1.1.1 hmem).statement.imp_left
            fun h ↦ stuck_succ rfl h
        · exact Or.inr fun g' hg' ↦ stuck_stmt h₀ body (depth + 1) sw g' hg' hs.2 hmem
  | .range a body, depth, sw, g, hready, hs, hmem => by
      rw [checkStmt, Bool.and_eq_true] at hs
      refine stuckStmt_of_statement (fun _ h ↦ by cases h) (stuck_succ rfl fun n ↦ ?_)
      refine stuck_bind (plain_line _ _).keeps fun _ g₁ h₁ ↦ ?_
      have hready₁ := hready.frame h₁
      exact stuck_loop (T := T) (I := none) (S := some a) (C := none) (N := none) h₀ hready₁
        hs.1 rfl rfl (fun c hc ↦ absurd hc List.not_mem_nil)
        (fun _ _ ↦ Good.succ rfl (good_pure _).adds) hs.2
        (fun g' hg' ↦ good_stmt body (depth + 1) sw g' hg' hs.2)
        (Or.inr fun g' hg' ↦ stuck_stmt h₀ body (depth + 1) sw g' hg' hs.2 hmem) n
  | .defer a, depth, sw, g, hready, hs, hmem => by
      have hdefer : .defer a₀ ∈ added (.defer a) := by
        rw [List.mem_singleton.mp hmem]
        exact List.mem_cons_self
      exact ⟨Or.inr hdefer, Or.inr hdefer⟩
  | .var _ _, _, _, _, _, _, hmem | .expr _, _, _, _, _, _, hmem | .ret _, _, _, _, _, _, hmem
  | .break, _, _, _, _, _, hmem | .continue, _, _, _, _, _, hmem
  | .delete _, _, _, _, _, _, hmem => by cases hmem

theorem stuck_block (h₀ : a₀.hasAwait = true) : ∀ (body : List (Stmt Expr)) (depth sw : ℕ)
    (g : State), Ready true depth g → checkBlock (checks K true) depth sw body = true →
    a₀ ∈ defersAll body →
    (∀ n, NoResult (statements T n body) g) ∨ .defer a₀ ∈ body.reverse.flatMap added
  | [], depth, sw, g, hready, hs, hmem => by cases hmem
  | s :: body, depth, sw, g, hready, hs, hmem => by
      rw [checkBlock, Bool.and_eq_true] at hs
      rw [defersAll, List.mem_append] at hmem
      have hfirst := good_stmt (T := T) s depth sw g hready hs.1
      rw [flatMap_added_cons, List.mem_append]
      rcases hmem with hmem | hmem
      · refine (stuck_stmt h₀ s depth sw g hready hs.1 hmem).statement.imp ?_ Or.inr
        exact fun h ↦ stuck_succ rfl fun n ↦ (h n).bind_left _
      · by_cases hdirect : .defer a₀ ∈ body.reverse.flatMap added
        · exact Or.inr (Or.inl hdirect)
        refine Or.inl (stuck_succ rfl fun n ↦ ?_)
        refine NoResult.bind_right (hfirst.statement.meets n) fun _ g' hg' ↦ ?_
        have hready' := hready.adds hg' (added_fine hready hs.1)
        exact ((stuck_block h₀ body depth sw g' hready' hs.2 hmem).resolve_right hdirect) n

theorem stuck_items (h₀ : a₀.hasAwait = true) : ∀ (items : List (Item Expr)) (depth : ℕ),
    checkItems (checks K true) depth items = true → a₀ ∈ defersItems items →
    (∀ subject g, Ready true depth g → ∀ n, NoResult (cases T n subject items) g) ∨
      hasDefault items = true ∧
        ∀ g, Ready true depth g → ∀ n, NoResult (fallback T n items) g
  | [], depth, hs, hmem => by cases hmem
  | (some vs, body) :: items, depth, hs, hmem => by
      rw [checkItems, Bool.and_eq_true] at hs
      rw [defersItems, List.mem_append] at hmem
      have hbody : checkStmt (checks K true) depth (depth + 1) (.block body) = true := by
        rw [checkStmt]
        exact hs.1
      rcases hmem with hmem | hmem
      · refine Or.inl fun subject g hready ↦ stuck_succ rfl fun n ↦ ?_
        refine stuck_bind (plain_line _ _).keeps fun _ g₁ h₁ ↦ ?_
        have hready₁ := hready.frame h₁
        refine (stuck_scope h₀ hready₁.asynchronous
          (fun g' hg' ↦ good_stmt (.block body) depth (depth + 1) g' (hready₁.frame hg') hbody)
          (fun g' hg' ↦ ?_) n).bind_left _
        exact (stuck_block h₀ body depth (depth + 1) g' (hready₁.frame hg') hs.1 hmem).imp_left
          fun h ↦ stuck_succ rfl h
      · rcases stuck_items h₀ items depth hs.2 hmem with hcases | ⟨hdefault, hfallback⟩
        · refine Or.inl fun subject g hready ↦ stuck_succ rfl fun n ↦ ?_
          refine stuck_bind (plain_line _ _).keeps fun _ g₁ h₁ ↦ ?_
          have hready₁ := hready.frame h₁
          have hscope := GoodStmt.scope (T := T) hready₁ hbody fun g' hg' ↦
            good_stmt (.block body) depth (depth + 1) g' (hready₁.frame hg') hbody
          refine stuck_bind (hscope.meets n) fun _ g₂ h₂ ↦ ?_
          exact hcases subject g₂ (hready₁.frame h₂) n
        · exact Or.inr ⟨hdefault, fun g hready ↦ stuck_succ rfl (hfallback g hready)⟩
  | (none, body) :: items, depth, hs, hmem => by
      rw [checkItems, Bool.and_eq_true] at hs
      rw [defersItems, List.mem_append] at hmem
      have hbody : checkStmt (checks K true) depth (depth + 1) (.block body) = true := by
        rw [checkStmt]
        exact hs.1
      by_cases hlast : hasDefault items = true
      · rw [hlast] at hmem
        have hmem := hmem.resolve_left List.not_mem_nil
        rcases stuck_items h₀ items depth hs.2 hmem with hcases | ⟨-, hfallback⟩
        · exact Or.inl fun subject g hready ↦ stuck_succ rfl (hcases subject g hready)
        · refine Or.inr ⟨rfl, fun g hready ↦ stuck_succ rfl fun n ↦ ?_⟩
          rw [fallback, if_pos hlast]
          exact hfallback g hready n
      · rw [Bool.eq_false_iff.mpr hlast] at hmem
        rcases hmem with hmem | hmem
        · refine Or.inr ⟨rfl, fun g hready ↦ stuck_succ rfl fun n ↦ ?_⟩
          rw [fallback, if_neg hlast]
          refine stuck_bind (plain_line _ _).keeps fun _ g₁ h₁ ↦ ?_
          have hready₁ := hready.frame h₁
          refine stuck_scope h₀ hready₁.asynchronous
            (fun g' hg' ↦ good_stmt (.block body) depth (depth + 1) g' (hready₁.frame hg') hbody)
            (fun g' hg' ↦ ?_) n
          exact (stuck_block h₀ body depth (depth + 1) g' (hready₁.frame hg') hs.1 hmem).imp_left
            fun h ↦ stuck_succ rfl h
        · rcases stuck_items h₀ items depth hs.2 hmem with hcases | ⟨hdefault, -⟩
          · exact Or.inl fun subject g hready ↦ stuck_succ rfl (hcases subject g hready)
          · exact absurd hdefault hlast

end

end Awaits

/-! ## Programs -/

mutual

/-- A function that is not async defers nothing that awaits. -/
theorem allQuiet_defers : ∀ (s : Stmt Expr) (depth sw : ℕ),
    checkStmt (checks K false) depth sw s = true → AllQuiet (defers s)
  | .block body, depth, sw, hs => by
      rw [checkStmt] at hs
      exact allQuiet_defersAll body depth sw hs
  | .ite a body none, depth, sw, hs => by
      rw [checkStmt, Bool.and_true, Bool.and_eq_true] at hs
      exact List.forall_mem_append.mpr ⟨allQuiet_defers body depth sw hs.2, by simp⟩
  | .ite a body (some b), depth, sw, hs => by
      rw [checkStmt, Bool.and_eq_true, Bool.and_eq_true] at hs
      exact List.forall_mem_append.mpr
        ⟨allQuiet_defers body depth sw hs.1.2, allQuiet_defers b depth sw hs.2⟩
  | .switch a items, depth, sw, hs => by
      rw [checkStmt, Bool.and_eq_true, Bool.and_eq_true, Bool.and_eq_true] at hs
      exact allQuiet_defersItems items depth hs.2
  | .while a body, depth, sw, hs | .range a body, depth, sw, hs => by
      rw [checkStmt, Bool.and_eq_true] at hs
      exact allQuiet_defers body (depth + 1) sw hs.2
  | .for none b c body, depth, sw, hs => by
      rw [checkStmt, Bool.and_eq_true] at hs
      exact allQuiet_defers body (depth + 1) sw hs.2
  | .for (some a) b c body, depth, sw, hs => by
      rw [checkStmt, Bool.and_eq_true, Bool.and_eq_true, Bool.and_eq_true] at hs
      exact List.forall_mem_append.mpr
        ⟨allQuiet_defers a depth sw hs.1.1.1, allQuiet_defers body (depth + 1) sw hs.2⟩
  | .defer a, depth, sw, hs => by
      rw [checkStmt] at hs
      simp only [checks, Bool.false_or, Bool.and_eq_true, Bool.not_eq_true'] at hs
      exact List.forall_mem_singleton.mpr hs.2
  | .var _ _, _, _, _ | .expr _, _, _, _ | .ret _, _, _, _ | .break, _, _, _ | .continue, _, _, _
  | .delete _, _, _, _ => fun _ h ↦ absurd h List.not_mem_nil

theorem allQuiet_defersAll : ∀ (body : List (Stmt Expr)) (depth sw : ℕ),
    checkBlock (checks K false) depth sw body = true → AllQuiet (defersAll body)
  | [], _, _, _ => fun _ h ↦ absurd h List.not_mem_nil
  | s :: body, depth, sw, hs => by
      rw [checkBlock, Bool.and_eq_true] at hs
      exact List.forall_mem_append.mpr
        ⟨allQuiet_defers s depth sw hs.1, allQuiet_defersAll body depth sw hs.2⟩

theorem allQuiet_defersItems : ∀ (items : List (Item Expr)) (depth : ℕ),
    checkItems (checks K false) depth items = true → AllQuiet (defersItems items)
  | [], _, _ => fun _ h ↦ absurd h List.not_mem_nil
  | (vs, body) :: items, depth, hs => by
      rw [checkItems, Bool.and_eq_true] at hs
      rw [defersItems]
      refine List.forall_mem_append.mpr ⟨?_, allQuiet_defersItems items depth hs.2⟩
      split
      · exact fun _ h ↦ absurd h List.not_mem_nil
      · exact allQuiet_defersAll body depth (depth + 1) hs.1

end

/-- A state between the parts of a program. -/
structure Outer (g : State) : Prop where
  asynchronous : g.asynchronous = false
  loops : g.loops = []
  drops : ∀ c ∈ g.cleanup, ∃ l, c = .drop l

theorem Outer.ready {g : State} (h : Outer g) : Ready false 0 g := by
  refine ⟨h.asynchronous, fun h0 ↦ absurd rfl h0, fun c hc ↦ ?_⟩
  obtain ⟨l, rfl⟩ := h.drops c hc
  trivial

theorem Outer.still {g : State} (h : Outer g) : Still g := by
  intro c hc
  obtain ⟨l, rfl⟩ := h.drops c hc
  trivial

theorem Outer.frame {g g' : State} (h : Outer g) (hg' : Frame g g') : Outer g' :=
  ⟨hg'.asynchronous.trans h.asynchronous, hg'.loops.trans h.loops, by rw [hg'.cleanup]; exact h.drops⟩

/-- The deferred expressions of an async function. -/
def Part.deferred : Part → List Expr
  | .function true body => defers body
  | _ => []

/-- The body of a function behind its first line. -/
theorem good_functionBody {body : Stmt Expr} {g : State} (hready : Ready async 0 g)
    (hs : checkStmt (checks K async) 0 0 body = true) :
    Good T (AllQuiet (defers body)) (Adds (addedInside body) g) (fun n ↦ functionBody T n body) g := by
  refine (good_stmt body 0 0 g hready hs).inside.bind (fun hq hg g' hg' ↦ ?_) fun _ g' hg' ↦ ?_
  · exact hg'.still hg (inside_quiet hq)
  · have hfine := (hready.adds hg' (inside_fine hready hs)).fine
    exact (good_cleanupEmit [] hfine).imp fun g'' hg'' ↦ hg'.trans hg''.adds

theorem Frame.of_eq {g g' : State} (h : g' = g) : Frame g g' := h ▸ Frame.refl g

theorem good_part {p : Part} {g : State} (hp : p.accepted K = true) (hg : Outer g) :
    Good T (AllQuiet p.deferred) Outer (fun n ↦ part T n p) g := by
  cases p with
  | getter a =>
      have hfine := hg.ready.fine_of_accepts (K := K) hp
      exact ((good_expression hfine).step fun v g' _ ↦ (plain_line _ _).good).imp fun _ ↦ hg.frame
  | function async body =>
      cases async with
      | false =>
          refine (good_modify _).bind (fun _ _ g₁ h₁ c hc ↦ ?_) fun _ g₁ h₁ ↦ ?_
          · rw [h₁] at hc
            cases hc
          have hstart : Outer g₁ := by
            rw [h₁]
            exact ⟨hg.asynchronous, hg.loops, fun c hc ↦ absurd hc List.not_mem_nil⟩
          refine Good.after (Frame.refl g₁) (plain_line _ _).good fun _ g₂ h₂ ↦ ?_
          have hquiet := allQuiet_defers body 0 0 hp
          have hready₂ := (hstart.frame h₂).ready
          refine ((good_functionBody hready₂ hp).weaken fun _ ↦ hquiet).bind
            (fun _ hstill g₃ h₃ ↦ h₃.still hstill (inside_quiet hquiet)) fun _ g₃ h₃ ↦ ?_
          refine Good.after (Frame.refl g₃) (plain_line _ _).good fun _ g₄ h₄ ↦ ?_
          refine (good_modify _).imp fun g₅ h₅ ↦ ?_
          rw [h₅]
          exact ⟨h₄.asynchronous.trans (h₃.asynchronous.trans hready₂.asynchronous),
            h₄.loops.trans (h₃.loops.trans (hstart.frame h₂).loops),
            fun c hc ↦ absurd hc List.not_mem_nil⟩
      | true =>
          refine good_get ((good_modify _).bind (fun _ _ g₁ h₁ c hc ↦ ?_) fun _ g₁ h₁ ↦ ?_)
          · rw [h₁] at hc
            cases hc
          have hready₁ : Ready true 0 g₁ := by
            rw [h₁]
            exact ⟨rfl, fun h ↦ absurd rfl h, fun c hc ↦ absurd hc List.not_mem_nil⟩
          refine Good.after (Frame.refl g₁) (plain_line _ _).good fun _ g₂ h₂ ↦ ?_
          refine (good_functionBody (hready₁.frame h₂) hp).bind
            (fun hq hstill g₃ h₃ ↦ h₃.still hstill (inside_quiet hq)) fun _ g₃ h₃ ↦ ?_
          refine Good.after (Frame.refl g₃) (plain_lines _ _).good fun _ g₄ h₄ ↦ ?_
          refine (good_modify _).imp fun g₅ h₅ ↦ ?_
          rw [h₅]
          exact ⟨hg.asynchronous, hg.loops, hg.drops⟩

theorem good_lambda {body : Expr ⊕ Stmt Expr} {g : State} (hg : Outer g)
    (hbody : (match body with
      | .inl a => (checks K false).accepts a
      | .inr body => checkStmt (checks K false) 0 0 body) = true) :
    Good T True Outer (fun n ↦ lambda T n body) g := by
  have hready := hg.ready
  cases body with
  | inl a =>
      have hfine := hready.fine_of_accepts (K := K) hbody
      exact ((good_expression hfine).step fun v g' _ ↦ (plain_line _ _).good).imp fun _ ↦ hg.frame
  | inr body =>
      have hscope := GoodStmt.scope (T := T) hready hbody fun g' hg' ↦
        good_stmt body 0 0 g' (hready.frame hg') hbody
      exact (hscope.weaken fun _ ↦ allQuiet_defers body 0 0 hbody).imp fun _ ↦ hg.frame

theorem good_lambdas {bodies : List (Expr ⊕ Stmt Expr)} {g : State} (hg : Outer g)
    (h : (bodies.all fun body ↦
      match body with
      | .inl a => (checks K false).accepts a
      | .inr body => checkStmt (checks K false) 0 0 body) = true) :
    Good T True Outer (fun n ↦ lambdas T n bodies) g := by
  induction bodies generalizing g with
  | nil => exact (good_pure _).imp fun _ ↦ hg.frame
  | cons body bodies ih =>
      rw [List.all_cons, Bool.and_eq_true] at h
      exact (good_lambda hg h.1).bind (fun _ _ _ hg' ↦ hg'.still) fun _ _ hg' ↦ ih hg' h.2

theorem good_parts {ps : List Part} {g : State} (hg : Outer g)
    (h : ps.all (Part.accepted K) = true) :
    Good T (∀ p ∈ ps, AllQuiet p.deferred) Outer (fun n ↦ parts T n ps) g := by
  induction ps generalizing g with
  | nil => exact (good_pure _).imp fun _ ↦ hg.frame
  | cons p ps ih =>
      rw [List.all_cons, Bool.and_eq_true] at h
      have hfirst : (∀ q ∈ p :: ps, AllQuiet q.deferred) → AllQuiet p.deferred :=
        fun hq ↦ hq p List.mem_cons_self
      refine ((good_part h.1 hg).weaken hfirst).bind (fun _ _ _ hg' ↦ hg'.still) fun _ _ hg' ↦ ?_
      exact (ih hg' h.2).weaken fun hq q hmem ↦ hq q (List.mem_cons_of_mem p hmem)

/-- Every global has a literal. -/
def Literals (ls : List (Local × Option Expr)) : Prop := ∀ l ∈ ls, l.2.all Expr.isLiteral = true

theorem good_global {l : Local} {a : Option Expr} {g : State} (hg : Outer g)
    (h : checkStmt (checks K false) 0 0 (.var [l] a) = true) :
    Good T True Outer (fun n ↦ statement T n (.var [l] a)) g := by
  have hstmt := (good_stmt (T := T) (.var [l] a) 0 0 g hg.ready h).statement
  refine (hstmt.weaken fun _ _ he ↦ absurd he List.not_mem_nil).imp fun g' hg' ↦ ?_
  refine ⟨hg'.asynchronous.trans hg.asynchronous, hg'.loops.trans hg.loops, fun c hc ↦ ?_⟩
  rw [hg'.cleanup, added, List.mem_append, List.mem_reverse, List.mem_map] at hc
  rcases hc with ⟨l, -, rfl⟩ | hc
  · exact ⟨l, rfl⟩
  · exact hg.drops c hc

theorem good_globals {ls : List (Local × Option Expr)} {g : State} (hg : Outer g)
    (h : (ls.all fun l ↦ checkStmt (checks K false) 0 0 (.var [l.1] l.2)) = true)
    (hliterals : Literals ls) : Good T True Outer (fun n ↦ globals T n ls) g := by
  induction ls generalizing g with
  | nil => exact (good_pure _).imp fun _ ↦ hg.frame
  | cons l ls ih =>
      obtain ⟨l, a⟩ := l
      rw [List.all_cons, Bool.and_eq_true] at h
      obtain ⟨hliteral, hliterals⟩ := List.forall_mem_cons.mp hliterals
      have hrequire : requireLiteral a = pure () := if_pos hliteral
      simp only [globals, hrequire]
      refine Good.after (Frame.refl g) (good_pure _) fun _ g₁ h₁ ↦ ?_
      refine (good_global (hg.frame h₁) h.1).bind (fun _ _ _ hg' ↦ hg'.still) fun _ _ hg' ↦ ?_
      exact ih hg' h.2 hliterals

/-- Another initializer than a literal is an error. -/
theorem globals_diagnostic {ls : List (Local × Option Expr)} {g : State} (hg : Outer g)
    (h : (ls.all fun l ↦ checkStmt (checks K false) 0 0 (.var [l.1] l.2)) = true)
    (hliterals : ¬ Literals ls) :
    ∃ n, ∀ m, n ≤ m → Gives (globals T m ls) g (.error .diagnostic) := by
  induction ls generalizing g with
  | nil => exact absurd (fun _ hl ↦ absurd hl List.not_mem_nil) hliterals
  | cons l ls ih =>
      obtain ⟨l, a⟩ := l
      rw [List.all_cons, Bool.and_eq_true] at h
      by_cases hliteral : a.all Expr.isLiteral = true
      · have hrest : ¬ Literals ls := fun hrest ↦
          hliterals (List.forall_mem_cons.mpr ⟨hliteral, hrest⟩)
        have hrequire : requireLiteral a = pure () := if_pos hliteral
        have hgood := good_global (T := T) hg h.1
        obtain ⟨n, r, hr⟩ := hgood.ends trivial hg.still
        have hmeets := hgood.meets n r (hr n le_rfl)
        cases r with
        | error e =>
            refine ⟨n, fun m hm ↦ gives_bind.mpr (Or.inr ⟨(), g, ?_, ?_⟩)⟩
            · rw [hrequire]
              exact gives_pure.mpr rfl
            · exact gives_bind.mpr (Or.inl ⟨.diagnostic, hmeets.1 ▸ hr m hm, rfl⟩)
        | ok p =>
            obtain ⟨k, hk⟩ := ih hmeets h.2 hrest
            refine ⟨max n k, fun m hm ↦ gives_bind.mpr (Or.inr ⟨(), g, ?_, ?_⟩)⟩
            · rw [hrequire]
              exact gives_pure.mpr rfl
            · exact gives_bind.mpr (Or.inr ⟨p.1, p.2, hr m ((le_max_left n k).trans hm),
                hk m ((le_max_right n k).trans hm)⟩)
      · have hrequire : requireLiteral a = throw .diagnostic := if_neg hliteral
        refine ⟨0, fun m _ ↦ gives_bind.mpr (Or.inl ⟨.diagnostic, ?_, rfl⟩)⟩
        rw [hrequire]
        exact gives_throw.mpr rfl

/-- A function that defers an `await` has no result. -/
theorem stuck_part {a₀ : Expr} (h₀ : a₀.hasAwait = true) {p : Part} {g : State}
    (hp : p.accepted K = true) (hmem : a₀ ∈ p.deferred) (n : ℕ) : NoResult (part T n p) g := by
  cases p with
  | getter a => cases hmem
  | function async body =>
      cases async with
      | false => cases hmem
      | true =>
          refine stuck_get (NoResult.bind_right
            ((good_modify (T := T) (Q := False) _).meets n) fun _ g₁ h₁ ↦ ?_)
          have hready₁ : Ready true 0 g₁ := by
            rw [h₁]
            exact ⟨rfl, fun h ↦ absurd rfl h, fun c hc ↦ absurd hc List.not_mem_nil⟩
          refine stuck_bind (plain_line _ _).keeps fun _ g₂ h₂ ↦ ?_
          have hready₂ := hready₁.frame h₂
          refine NoResult.bind_left ?_ _
          rcases (stuck_stmt (T := T) h₀ body 0 0 g₂ hready₂ hp hmem).inside with hstuck | hdefer
          · exact (hstuck n).bind_left _
          · have hinside := (good_stmt (T := T) body 0 0 g₂ hready₂ hp).inside
            refine NoResult.bind_right (hinside.meets n) fun _ g₃ h₃ ↦ ?_
            refine stuck_cleanupEmit h₀ (h₃.asynchronous.trans hready₂.asynchronous) ?_ hdefer n
            have hempty : g₂.cleanup = [] := by rw [h₂.cleanup, h₁]; rfl
            rw [h₃.cleanup, hempty]

theorem stuck_parts {a₀ : Expr} (h₀ : a₀.hasAwait = true) {p : Part} {ps : List Part} {g : State}
    (hg : Outer g) (h : ps.all (Part.accepted K) = true) (hp : p ∈ ps) (hmem : a₀ ∈ p.deferred)
    (n : ℕ) : NoResult (parts T n ps) g := by
  induction ps generalizing g with
  | nil => cases hp
  | cons q ps ih =>
      rw [List.all_cons, Bool.and_eq_true] at h
      rcases List.mem_cons.mp hp with rfl | hp
      · exact (stuck_part h₀ h.1 hmem n).bind_left _
      · exact NoResult.bind_right ((good_part h.1 hg).meets n) fun _ _ hg' ↦ ih hg' h.2 hp

theorem outer_start : Outer State.start := ⟨rfl, rfl, fun _ hc ↦ absurd hc List.not_mem_nil⟩

/-- Where all lines fit, a program generates only if it does not defer an `await`. -/
theorem quiet_of_generates (hfits : ∀ l, T.fits l = true) {p : Program}
    (h : p.accepted K = true) (hgenerates : Generates T p) (hliterals : Literals p.globals) :
    ∀ q ∈ p.parts, AllQuiet q.deferred := by
  rw [Program.accepted, Bool.and_eq_true, Bool.and_eq_true] at h
  intro q hq a ha
  rw [Bool.eq_false_iff]
  intro h₀
  obtain ⟨n, r, -, hr⟩ := hgenerates
  have hglobals := good_globals (T := T) outer_start h.1.1 hliterals
  have hnone : NoResult (generate T n p) State.start := by
    refine NoResult.bind_right (hglobals.meets n) fun _ g₁ h₁ ↦ ?_
    refine NoResult.bind_right ((good_lambdas h₁ h.1.2).meets n) fun _ g₂ h₂ ↦ ?_
    exact stuck_parts h₀ h₂ h.2 hq ha n
  have hmeets : Meets (TooLong T) (fun _ g' ↦ Outer g') (generate T n p) State.start := by
    refine (hglobals.meets n).bind fun _ g₁ h₁ ↦ ?_
    exact ((good_lambdas h₁ h.1.2).meets n).bind fun _ g₂ h₂ ↦ (good_parts h₂ h.2).meets n
  have hend := hr n le_rfl
  cases r with
  | ok p => exact hnone _ _ hend
  | error e =>
      obtain ⟨-, l, hl⟩ := hmeets _ hend
      rw [hfits l] at hl
      cases hl

theorem generates_of_quiet {p : Program} (h : p.accepted K = true)
    (hquiet : Literals p.globals → ∀ q ∈ p.parts, AllQuiet q.deferred) (T : Texts) :
    Generates T p := by
  rw [Program.accepted, Bool.and_eq_true, Bool.and_eq_true] at h
  by_cases hliterals : Literals p.globals
  · have hgood : Good T (∀ q ∈ p.parts, AllQuiet q.deferred) Outer (fun n ↦ generate T n p)
        State.start := by
      refine ((good_globals outer_start h.1.1 hliterals).weaken fun _ ↦ trivial).bind
        (fun _ _ _ hg ↦ hg.still) fun _ g₁ h₁ ↦ ?_
      exact ((good_lambdas h₁ h.1.2).weaken fun _ ↦ trivial).bind (fun _ _ _ hg ↦ hg.still)
        fun _ g₂ h₂ ↦ good_parts h₂ h.2
    obtain ⟨n, r, hr⟩ := hgood.ends (hquiet hliterals) outer_start.still
    refine ⟨n, r, ?_, hr⟩
    rintro rfl
    cases (hgood.meets n _ (hr n le_rfl)).1
  · obtain ⟨n, hn⟩ := globals_diagnostic (T := T) outer_start h.1.1 hliterals
    exact ⟨n, .error .diagnostic, by simp, fun m hm ↦
      gives_bind.mpr (Or.inl ⟨.diagnostic, hn m hm, rfl⟩)⟩

end Accepted

/-- Every expression without an `await` in it is accepted, and there are no enums. -/
def anyChecks : Checks Expr := ⟨fun _ ↦ true, fun _ ↦ none, fun _ ↦ ""⟩

/-- The call `g()`. -/
def call : Expr := .op "%s()" [] false false []

/-- `async void f() { defer g(); await g(); }` -/
def awaiting : Program :=
  ⟨[], [], [.function true (.block [.defer call, .expr (some (.await true call))])]⟩

/-- `async void f() { defer await g(); }` -/
def deferring : Program := ⟨[], [], [.function true (.block [.defer (.await true call)])]⟩

end TinyCPlus.Compiler.Lowering
