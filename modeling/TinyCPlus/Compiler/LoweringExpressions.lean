import TinyCPlus.Compiler.Lowering

/-!
# Lowering of expressions

The lowering of an expression leaves the scopes and loops alone.  It ends where no deferred
expression awaits; where one does, no `await` has a result, since its clean-up lowers that
expression again.
-/

namespace TinyCPlus.Compiler.Lowering

open TinyCPlus.Library Budgeted

variable {T : Texts}

/-! ## What lowering an expression leaves alone -/

/-- The scopes and loops stay. -/
structure Frame (g g' : State) : Prop where
  asynchronous : g'.asynchronous = g.asynchronous
  cleanup : g'.cleanup = g.cleanup
  loops : g'.loops = g.loops

theorem Frame.refl (g : State) : Frame g g := ⟨rfl, rfl, rfl⟩

theorem Frame.trans {g g' g'' : State} (h : Frame g g') (h' : Frame g' g'') : Frame g g'' :=
  ⟨h'.asynchronous.trans h.asynchronous, h'.cleanup.trans h.cleanup, h'.loops.trans h.loops⟩

/-- The only errors are lines that are too long. -/
def TooLong (T : Texts) (e : Stop) : Prop := e = .diagnostic ∧ ∃ l, T.fits l = false

/-- Nothing but lines, temporaries and states is added. -/
def Keeps (T : Texts) {α : Type} (x : Lower α) (g : State) : Prop :=
  Meets (TooLong T) (fun _ g' ↦ Frame g g') x g

section Keeps

variable {α β : Type} {g : State}

theorem Keeps.pure (a : α) : Keeps T (pure a) g := Meets.pure (Frame.refl g)

theorem Keeps.exhausted : Keeps T (exhausted : Lower α) g := Meets.exhausted

theorem Keeps.bind {x : Lower α} {f : α → Lower β} (hx : Keeps T x g)
    (hf : ∀ a g', Frame g g' → Keeps T (f a) g') : Keeps T (x >>= f) g :=
  Meets.bind hx fun a g' hg' ↦ (hf a g' hg').imp fun _ _ h ↦ hg'.trans h

theorem Keeps.get {f : State → Lower β} (h : Keeps T (f g) g) : Keeps T (get >>= f) g :=
  Meets.bind (Q := fun g₁ g' ↦ g₁ = g ∧ g' = g) (Meets.get ⟨rfl, rfl⟩) fun _ _ hg ↦ by
    obtain ⟨rfl, rfl⟩ := hg
    exact h

theorem Keeps.modify {f : State → State} (h : Frame g (f g)) : Keeps T (modify f) g :=
  Meets.modify h

/-- `x` ends from every state and leaves the scopes and loops alone. -/
def Plain (T : Texts) (x : Lower α) : Prop := ∀ g, (∃ r, Gives x g r) ∧ Keeps T x g

theorem Plain.keeps {x : Lower α} (h : Plain T x) : Keeps T x g := (h g).2

theorem plain_pure (a : α) : Plain T (Pure.pure a : Lower α) :=
  fun _ ↦ ⟨⟨_, gives_pure.mpr rfl⟩, Keeps.pure a⟩

theorem Plain.bind {x : Lower α} {f : α → Lower β} (hx : Plain T x) (hf : ∀ a, Plain T (f a)) :
    Plain T (x >>= f) := by
  intro g
  obtain ⟨⟨r, hr⟩, hkeeps⟩ := hx g
  refine ⟨?_, hkeeps.bind fun a _ _ ↦ (hf a).keeps⟩
  cases r with
  | error e => exact ⟨_, gives_bind.mpr (Or.inl ⟨e, hr, rfl⟩)⟩
  | ok p =>
      obtain ⟨⟨r, hrest⟩, -⟩ := hf p.1 p.2
      exact ⟨r, gives_bind.mpr (Or.inr ⟨p.1, p.2, hr, hrest⟩)⟩

theorem plain_modify {f : State → State} (h : ∀ g, Frame g (f g)) : Plain T (modify f) :=
  fun g ↦ ⟨⟨_, gives_modify.mpr rfl⟩, Keeps.modify (h g)⟩

theorem plain_line (format : String) (values : List Value) : Plain T (line T format values) := by
  unfold line
  split
  · exact plain_modify fun g ↦ ⟨rfl, rfl, rfl⟩
  · rename_i hfits
    have hlong : TooLong T .diagnostic := ⟨rfl, _, Bool.eq_false_iff.mpr hfits⟩
    exact fun g ↦ ⟨⟨_, gives_throw.mpr rfl⟩, Meets.throw hlong⟩

theorem plain_lines (values : List Value) (formats : List String) :
    Plain T (lines T values formats) := by
  induction formats with
  | nil => exact plain_pure ()
  | cons format formats ih => exact (plain_line format values).bind fun _ ↦ ih

theorem plain_temp : Plain T temp := by
  have hserial : Plain T (modify fun g ↦ { g with serial := g.serial + 1 }) :=
    plain_modify fun g ↦ ⟨rfl, rfl, rfl⟩
  refine hserial.bind fun _ g ↦ ?_
  exact ⟨⟨_, gives_bind_ok.mpr ⟨g, g, gives_get.mpr rfl, gives_pure.mpr rfl⟩⟩,
    Keeps.get (Keeps.pure _)⟩

theorem plain_when {x : Lower Unit} (b : Bool) (h : Plain T x) : Plain T (when b x) := by
  cases b with
  | true => exact h
  | false => exact plain_pure ()

theorem plain_awaited (void : Bool) : Plain T (awaited T void) := by
  cases void with
  | true => exact plain_pure _
  | false => exact plain_temp.bind fun v ↦ (plain_line _ _).bind fun _ ↦ plain_pure v

theorem plain_saved (void : Bool) (s : Value) : Plain T (saved T void s) := by
  cases void with
  | true => exact (plain_line _ _).bind fun _ ↦ plain_pure _
  | false => exact plain_temp.bind fun v ↦ (plain_line _ _).bind fun _ ↦ plain_pure v

end Keeps

/-- An `await` is lowered in async functions only. -/
def Fine (g : State) (a : Expr) : Prop := g.asynchronous = true ∨ a.hasAwait = false

def AllFine (g : State) (args : List Expr) : Prop :=
  g.asynchronous = true ∨ Expr.anyAwait args = false

def Cleanup.Fine (g : State) : Cleanup → Prop
  | .defer a => Lowering.Fine g a
  | .drop _ => True

theorem Fine.frame {g g' : State} {a : Expr} (h : Fine g a) (hg : Frame g g') : Fine g' a :=
  h.imp_left hg.asynchronous.trans

theorem AllFine.frame {g g' : State} {args : List Expr} (h : AllFine g args) (hg : Frame g g') :
    AllFine g' args :=
  h.imp_left hg.asynchronous.trans

theorem Cleanup.Fine.frame {g g' : State} {c : Cleanup} (h : c.Fine g) (hg : Frame g g') :
    c.Fine g' := by
  cases c with
  | defer a => exact Lowering.Fine.frame h hg
  | drop l => trivial

theorem Cleanup.fine_of_async {g : State} (h : g.asynchronous = true) (c : Cleanup) : c.Fine g := by
  cases c with
  | defer a => exact Or.inl h
  | drop l => trivial

theorem AllFine.cons {g : State} {a : Expr} {args : List Expr} (h : AllFine g (a :: args)) :
    Fine g a ∧ AllFine g args := by
  rcases h with h | h
  · exact ⟨Or.inl h, Or.inl h⟩
  · rw [Expr.anyAwait, Bool.or_eq_false_iff] at h
    exact ⟨Or.inr h.1, Or.inr h.2⟩

theorem Fine.logic {g : State} {or : Bool} {a b : Expr} (h : Fine g (.logic or a b)) :
    Fine g a ∧ Fine g b := by
  rcases h with h | h
  · exact ⟨Or.inl h, Or.inl h⟩
  · rw [Expr.hasAwait, Bool.or_eq_false_iff] at h
    exact ⟨Or.inr h.1, Or.inr h.2⟩

structure ExpressionsKeep (T : Texts) (n : ℕ) : Prop where
  expression : ∀ a g, Fine g a → Keeps T (expression T n a) g
  value : ∀ a g, Fine g a → Keeps T (value T n a) g
  operands : ∀ place args g, AllFine g args → Keeps T (operands T n place args) g
  cleanupEmit : ∀ stop g, (∀ c ∈ g.cleanup, c.Fine g) → Keeps T (cleanupEmit T n stop) g
  emitAll : ∀ cs g, (∀ c ∈ cs, c.Fine g) → Keeps T (emitAll T n cs) g

theorem expressionsKeep (n : ℕ) : ExpressionsKeep T n := by
  induction n with
  | zero =>
      constructor
      · exact fun a g _ ↦ Keeps.exhausted
      · exact fun a g _ ↦ Keeps.exhausted
      · exact fun place args g _ ↦ Keeps.exhausted
      · exact fun stop g _ ↦ Keeps.exhausted
      · exact fun cs g _ ↦ Keeps.exhausted
  | succ n ih =>
      constructor
      · intro a g hfine
        cases a with
        | literal => exact Keeps.pure _
        | name id => exact Keeps.pure _
        | op format more place void args =>
            refine (ih.operands place args g hfine).bind fun values g' _ ↦ ?_
            exact (plain_lines values more).keeps.bind fun _ _ _ ↦ Keeps.pure _
        | member pointer a =>
            cases pointer with
            | true => exact (ih.value a g hfine).bind fun a _ _ ↦ Keeps.pure _
            | false => exact (ih.expression a g hfine).bind fun a _ _ ↦ Keeps.pure _
        | tuple args => exact (ih.operands false args g hfine).bind fun values _ _ ↦ Keeps.pure _
        | logic or a b =>
            have hparts := hfine.logic
            refine (ih.value a g hparts.1).bind fun a g₁ h₁ ↦ ?_
            refine plain_temp.keeps.bind fun v g₂ h₂ ↦ ?_
            refine (plain_line _ _).keeps.bind fun _ g₃ h₃ ↦ ?_
            refine (plain_line _ _).keeps.bind fun _ g₄ h₄ ↦ ?_
            have hframe := ((h₁.trans h₂).trans h₃).trans h₄
            refine (ih.value b g₄ (hparts.2.frame hframe)).bind fun b _ _ ↦ ?_
            exact (plain_lines _ _).keeps.bind fun _ _ _ ↦ Keeps.pure v
        | await void a =>
            have hasync : g.asynchronous = true := hfine.resolve_right (by simp [Expr.hasAwait])
            refine (Keeps.modify ⟨rfl, rfl, rfl⟩).bind fun _ g₁ h₁ ↦ Keeps.get ?_
            have hrequire : requireAsync g₁ = pure () := if_pos (h₁.asynchronous.trans hasync)
            rw [hrequire]
            refine (Keeps.pure ()).bind fun _ g₂ h₂ ↦ ?_
            have hfine₂ : Fine g₂ a := Or.inl ((h₁.trans h₂).asynchronous.trans hasync)
            refine (ih.value a g₂ hfine₂).bind fun v g₃ h₃ ↦ ?_
            refine (plain_line _ _).keeps.bind fun _ g₄ h₄ ↦ ?_
            refine (plain_when _ (plain_line _ _)).keeps.bind fun _ g₅ h₅ ↦ ?_
            refine (plain_lines _ _).keeps.bind fun _ g₆ h₆ ↦ ?_
            refine (plain_awaited void).keeps.bind fun result g₇ h₇ ↦ ?_
            refine (plain_lines _ _).keeps.bind fun _ g₈ h₈ ↦ ?_
            have hframe := ((((((h₁.trans h₂).trans h₃).trans h₄).trans h₅).trans h₆).trans h₇).trans h₈
            have hasync₈ : g₈.asynchronous = true := hframe.asynchronous.trans hasync
            refine (ih.cleanupEmit [] g₈ fun c _ ↦ Cleanup.fine_of_async hasync₈ c).bind
              fun _ _ _ ↦ ?_
            refine (plain_lines _ _).keeps.bind fun _ _ _ ↦ ?_
            exact (plain_line _ _).keeps.bind fun _ _ _ ↦ Keeps.pure _
      · exact fun a g hfine ↦ (ih.expression a g hfine).bind fun s _ _ ↦ (plain_saved _ s).keeps
      · intro place args g hfine
        cases args with
        | nil => exact Keeps.pure _
        | cons a args =>
            obtain ⟨ha, hargs⟩ := hfine.cons
            cases place with
            | true =>
                refine (ih.expression a g ha).bind fun v g' hg' ↦ ?_
                exact (ih.operands false args g' (hargs.frame hg')).bind fun _ _ _ ↦ Keeps.pure _
            | false =>
                refine (ih.value a g ha).bind fun v g' hg' ↦ ?_
                exact (ih.operands false args g' (hargs.frame hg')).bind fun _ _ _ ↦ Keeps.pure _
      · intro stop g hfine
        exact Keeps.get (ih.emitAll _ g fun c hc ↦ hfine c (List.mem_of_mem_take hc))
      · intro cs g hfine
        cases cs with
        | nil => exact Keeps.pure _
        | cons c cs =>
            obtain ⟨hc, hcs⟩ := List.forall_mem_cons.mp hfine
            cases c with
            | defer a =>
                refine (ih.expression a g hc).bind fun s g₁ h₁ ↦ ?_
                refine (plain_line _ _).keeps.bind fun _ g₂ h₂ ↦ ?_
                exact ih.emitAll cs g₂ fun c hc ↦ (hcs c hc).frame (h₁.trans h₂)
            | drop l =>
                refine Keeps.get ?_
                refine (plain_when _ (plain_line _ _)).keeps.bind fun _ g' hg' ↦ ?_
                exact ih.emitAll cs g' fun c hc ↦ (hcs c hc).frame hg'

/-! ## Expressions end -/

section Ends

variable {α β : Type} {g : State}

theorem ends_bind {x : ℕ → Lower α} {f : ℕ → α → Lower β} (hkeeps : ∀ n, Keeps T (x n) g)
    (h : Ends x g) (hrest : ∀ a g', Frame g g' → Ends (fun n ↦ f n a) g') :
    Ends (fun n ↦ x n >>= f n) g :=
  h.bind fun n a g' hg' ↦ hrest a g' ((hkeeps n).ok hg')

theorem Plain.ends {x : Lower α} (h : Plain T x) : Ends (fun _ ↦ x) g := by
  obtain ⟨⟨r, hr⟩, -⟩ := h g
  exact Ends.const hr

theorem Plain.ends_bind {x : Lower α} {f : ℕ → α → Lower β} (h : Plain T x)
    (hrest : ∀ a g', Frame g g' → Ends (fun n ↦ f n a) g') : Ends (fun n ↦ x >>= f n) g :=
  Lowering.ends_bind (fun _ ↦ h.keeps) h.ends hrest

theorem ends_pure (a : α) : Ends (fun _ ↦ (pure a : Lower α)) g :=
  Ends.const (gives_pure.mpr rfl)

theorem ends_get {f : ℕ → State → Lower β} (h : Ends (fun n ↦ f n g) g) :
    Ends (fun n ↦ get >>= f n) g :=
  Ends.bind (Ends.const (gives_get.mpr rfl)) fun _ a g' hg' ↦ by
    cases gives_get.mp hg'
    exact h

theorem ends_value {a : Expr} (hfine : Fine g a) (h : Ends (fun n ↦ expression T n a) g) :
    Ends (fun n ↦ value T n a) g := by
  apply Ends.succ
  exact ends_bind (fun n ↦ (expressionsKeep n).expression a g hfine) h
    fun s _ _ ↦ (plain_saved a.void s).ends

end Ends

/-- The clean-up of an exit from all scopes ends. -/
def CleanupEnds (T : Texts) (g : State) : Prop :=
  ∀ g', Frame g g' → Ends (fun n ↦ cleanupEmit T n []) g'

theorem CleanupEnds.frame {g g' : State} (h : CleanupEnds T g) (hg : Frame g g') :
    CleanupEnds T g' := fun g'' hg'' ↦ h g'' (hg.trans hg'')

mutual

/-- An expression ends if the clean-up of its awaits does; by induction on the expression. -/
theorem ends_expression_of : ∀ (a : Expr) (g : State), Fine g a →
    (a.hasAwait = true → CleanupEnds T g) → Ends (fun n ↦ expression T n a) g
  | .literal, g, _, _ => Ends.succ (ends_pure _)
  | .name id, g, _, _ => Ends.succ (ends_pure _)
  | .op format more place void args, g, hfine, hcleanup => by
      apply Ends.succ
      refine ends_bind (fun n ↦ (expressionsKeep n).operands place args g hfine)
        (ends_operands_of args place g hfine hcleanup) fun values g' _ ↦ ?_
      exact ((plain_lines values more).bind fun _ ↦ plain_pure _).ends
  | .member pointer a, g, hfine, hcleanup => by
      have ha := ends_expression_of a g hfine hcleanup
      apply Ends.succ
      cases pointer with
      | true =>
          exact ends_bind (fun n ↦ (expressionsKeep n).value a g hfine) (ends_value hfine ha)
            fun _ _ _ ↦ ends_pure _
      | false =>
          exact ends_bind (fun n ↦ (expressionsKeep n).expression a g hfine) ha
            fun _ _ _ ↦ ends_pure _
  | .tuple args, g, hfine, hcleanup => by
      apply Ends.succ
      refine ends_bind (fun n ↦ (expressionsKeep n).operands false args g hfine)
        (ends_operands_of args false g hfine hcleanup) fun values _ _ ↦ ?_
      exact ends_pure _
  | .logic or a b, g, hfine, hcleanup => by
      obtain ⟨hfinea, hfineb⟩ := hfine.logic
      have ha := ends_expression_of a g hfinea fun h ↦ hcleanup (by simp [Expr.hasAwait, h])
      apply Ends.succ
      refine ends_bind (fun n ↦ (expressionsKeep n).value a g hfinea) (ends_value hfinea ha)
        fun a g₁ h₁ ↦ ?_
      refine (plain_temp (T := T)).ends_bind fun v g₂ h₂ ↦ ?_
      refine (plain_line _ _).ends_bind fun _ g₃ h₃ ↦ ?_
      refine (plain_line _ _).ends_bind fun _ g₄ h₄ ↦ ?_
      have hframe := ((h₁.trans h₂).trans h₃).trans h₄
      have hfine₄ := hfineb.frame hframe
      have hb := ends_expression_of b g₄ hfine₄ fun h ↦
        (hcleanup (by simp [Expr.hasAwait, h])).frame hframe
      refine ends_bind (fun n ↦ (expressionsKeep n).value b g₄ hfine₄) (ends_value hfine₄ hb)
        fun b _ _ ↦ ?_
      exact ((plain_lines _ _).bind fun _ ↦ plain_pure v).ends
  | .await void a, g, hfine, hcleanup => by
      have hasync : g.asynchronous = true := hfine.resolve_right (by simp [Expr.hasAwait])
      have hcleanup := hcleanup rfl
      apply Ends.succ
      have hstate : Plain T (modify fun g ↦ { g with states := g.states + 1 }) :=
        plain_modify fun g ↦ ⟨rfl, rfl, rfl⟩
      refine hstate.ends_bind fun _ g₁ h₁ ↦ ends_get ?_
      have hrequire : requireAsync g₁ = pure () := if_pos (h₁.asynchronous.trans hasync)
      rw [hrequire]
      refine (plain_pure (T := T) ()).ends_bind fun _ g₂ h₂ ↦ ?_
      have hfine₂ : Fine g₂ a := Or.inl ((h₁.trans h₂).asynchronous.trans hasync)
      have ha := ends_expression_of a g₂ hfine₂ fun _ ↦ hcleanup.frame (h₁.trans h₂)
      refine ends_bind (fun n ↦ (expressionsKeep n).value a g₂ hfine₂) (ends_value hfine₂ ha)
        fun v g₃ h₃ ↦ ?_
      refine (plain_line _ _).ends_bind fun _ g₄ h₄ ↦ ?_
      refine (plain_when _ (plain_line _ _)).ends_bind fun _ g₅ h₅ ↦ ?_
      refine (plain_lines _ _).ends_bind fun _ g₆ h₆ ↦ ?_
      refine (plain_awaited void).ends_bind fun result g₇ h₇ ↦ ?_
      refine (plain_lines _ _).ends_bind fun _ g₈ h₈ ↦ ?_
      have hframe := ((((((h₁.trans h₂).trans h₃).trans h₄).trans h₅).trans h₆).trans h₇).trans h₈
      have hasync₈ : g₈.asynchronous = true := hframe.asynchronous.trans hasync
      refine ends_bind (fun n ↦ (expressionsKeep n).cleanupEmit [] g₈
        fun c _ ↦ Cleanup.fine_of_async hasync₈ c) (hcleanup g₈ hframe) fun _ _ _ ↦ ?_
      exact ((plain_lines _ _).bind fun _ ↦ (plain_line _ _).bind fun _ ↦ plain_pure _).ends

theorem ends_operands_of : ∀ (args : List Expr) (place : Bool) (g : State), AllFine g args →
    (Expr.anyAwait args = true → CleanupEnds T g) → Ends (fun n ↦ operands T n place args) g
  | [], place, g, _, _ => Ends.succ (ends_pure _)
  | a :: args, place, g, hfine, hcleanup => by
      obtain ⟨hfinea, hfineargs⟩ := hfine.cons
      have ha := ends_expression_of a g hfinea fun h ↦ hcleanup (by simp [Expr.anyAwait, h])
      have hargs : ∀ g', Frame g g' → Ends (fun n ↦ operands T n false args) g' := by
        intro g' hg'
        exact ends_operands_of args false g' (hfineargs.frame hg') fun h ↦
          (hcleanup (by simp [Expr.anyAwait, h])).frame hg'
      apply Ends.succ
      cases place with
      | true =>
          refine ends_bind (fun n ↦ (expressionsKeep n).expression a g hfinea) ha
            fun v g' hg' ↦ ?_
          refine ends_bind (fun n ↦ (expressionsKeep n).operands false args g'
            (hfineargs.frame hg')) (hargs g' hg') fun values _ _ ↦ ?_
          exact ends_pure _
      | false =>
          refine ends_bind (fun n ↦ (expressionsKeep n).value a g hfinea) (ends_value hfinea ha)
            fun v g' hg' ↦ ?_
          refine ends_bind (fun n ↦ (expressionsKeep n).operands false args g'
            (hfineargs.frame hg')) (hargs g' hg') fun values _ _ ↦ ?_
          exact ends_pure _

end

/-! ## Clean-up without awaits -/

/-- A deferred expression does not await. -/
def Cleanup.Quiet : Cleanup → Prop
  | .defer a => a.hasAwait = false
  | .drop _ => True

theorem Cleanup.Quiet.fine {c : Cleanup} (h : c.Quiet) (g : State) : c.Fine g := by
  cases c with
  | defer a => exact Or.inr h
  | drop l => trivial

theorem ends_emitAll {cs : List Cleanup} (h : ∀ c ∈ cs, c.Quiet) (g : State) :
    Ends (fun n ↦ emitAll T n cs) g := by
  induction cs generalizing g with
  | nil => exact Ends.succ (ends_pure ())
  | cons c cs ih =>
      obtain ⟨hc, hcs⟩ := List.forall_mem_cons.mp h
      apply Ends.succ
      cases c with
      | defer a =>
          have hfine : Fine g a := Or.inr hc
          have ha := ends_expression_of (T := T) a g hfine fun hawait ↦ by
            rw [show a.hasAwait = false from hc] at hawait
            cases hawait
          refine ends_bind (fun n ↦ (expressionsKeep n).expression a g hfine) ha fun s g₁ _ ↦ ?_
          exact (plain_line _ _).ends_bind fun _ g₂ _ ↦ ih hcs g₂
      | drop l =>
          refine ends_get ?_
          exact (plain_when _ (plain_line _ _)).ends_bind fun _ g₁ _ ↦ ih hcs g₁

theorem ends_cleanupEmit (stop : List Cleanup) {g : State} (h : ∀ c ∈ g.cleanup, c.Quiet) :
    Ends (fun n ↦ cleanupEmit T n stop) g := by
  apply Ends.succ
  exact ends_get (ends_emitAll (fun c hc ↦ h c (List.mem_of_mem_take hc)) g)

/-- Without awaits in the deferred expressions, every expression ends. -/
theorem ends_expression {a : Expr} {g : State} (hfine : Fine g a)
    (h : ∀ c ∈ g.cleanup, c.Quiet) : Ends (fun n ↦ expression T n a) g :=
  ends_expression_of a g hfine fun _ g' hg' ↦
    ends_cleanupEmit [] (by rwa [hg'.cleanup])

/-! ## Deferred awaits -/

section Stuck

variable {α β : Type} {g : State}

theorem stuck_bind {x : Lower α} {f : α → Lower β} (hx : Keeps T x g)
    (h : ∀ a g', Frame g g' → NoResult (f a) g') : NoResult (x >>= f) g :=
  NoResult.bind_right hx h

theorem stuck_get {f : State → Lower β} (h : NoResult (f g) g) : NoResult (get >>= f) g := by
  intro b g'' hb
  obtain ⟨a, g', ha, hb⟩ := gives_bind_ok.mp hb
  cases gives_get.mp ha
  exact h b g'' hb

end Stuck

/-- Where `a₀` is deferred, nothing that awaits has a result. -/
structure Stuck (T : Texts) (a₀ : Expr) (n : ℕ) : Prop where
  expression : ∀ a g, a.hasAwait = true → g.asynchronous = true → .defer a₀ ∈ g.cleanup →
    NoResult (expression T n a) g
  value : ∀ a g, a.hasAwait = true → g.asynchronous = true → .defer a₀ ∈ g.cleanup →
    NoResult (value T n a) g
  operands : ∀ place args g, Expr.anyAwait args = true → g.asynchronous = true →
    .defer a₀ ∈ g.cleanup → NoResult (operands T n place args) g
  cleanupEmit : ∀ g, g.asynchronous = true → .defer a₀ ∈ g.cleanup →
    NoResult (cleanupEmit T n []) g
  emitAll : ∀ cs g, .defer a₀ ∈ cs → g.asynchronous = true → .defer a₀ ∈ g.cleanup →
    NoResult (emitAll T n cs) g

/-- The clean-up of an `await` lowers `a₀`, which awaits again; by induction on the budget. -/
theorem stuck {a₀ : Expr} (h₀ : a₀.hasAwait = true) (n : ℕ) : Stuck T a₀ n := by
  induction n with
  | zero =>
      constructor
      · exact fun a g _ _ _ ↦ NoResult.exhausted
      · exact fun a g _ _ _ ↦ NoResult.exhausted
      · exact fun place args g _ _ _ ↦ NoResult.exhausted
      · exact fun g _ _ ↦ NoResult.exhausted
      · exact fun cs g _ _ _ ↦ NoResult.exhausted
  | succ n ih =>
      have hkeeps := expressionsKeep (T := T) n
      constructor
      · intro a g ha hasync hmem
        cases a with
        | literal => cases ha
        | name id => cases ha
        | op format more place void args => exact (ih.operands place args g ha hasync hmem).bind_left _
        | member pointer a =>
            cases pointer with
            | true => exact (ih.value a g ha hasync hmem).bind_left _
            | false => exact (ih.expression a g ha hasync hmem).bind_left _
        | tuple args => exact (ih.operands false args g ha hasync hmem).bind_left _
        | logic or a b =>
            by_cases hfirst : a.hasAwait = true
            · exact (ih.value a g hfirst hasync hmem).bind_left _
            · rw [Expr.hasAwait, Bool.or_eq_true] at ha
              have hb := ha.resolve_left hfirst
              refine stuck_bind (hkeeps.value a g (Or.inl hasync)) fun a g₁ h₁ ↦ ?_
              refine stuck_bind (plain_temp (T := T)).keeps fun v g₂ h₂ ↦ ?_
              refine stuck_bind (plain_line _ _).keeps fun _ g₃ h₃ ↦ ?_
              refine stuck_bind (plain_line _ _).keeps fun _ g₄ h₄ ↦ ?_
              have hframe := ((h₁.trans h₂).trans h₃).trans h₄
              have hasync₄ := hframe.asynchronous.trans hasync
              have hmem₄ : .defer a₀ ∈ g₄.cleanup := by rwa [hframe.cleanup]
              exact (ih.value b g₄ hb hasync₄ hmem₄).bind_left _
        | await void a =>
            have hstate : Plain T (modify fun g ↦ { g with states := g.states + 1 }) :=
              plain_modify fun g ↦ ⟨rfl, rfl, rfl⟩
            refine stuck_bind hstate.keeps fun _ g₁ h₁ ↦ stuck_get ?_
            have hrequire : requireAsync g₁ = pure () := if_pos (h₁.asynchronous.trans hasync)
            rw [hrequire]
            refine stuck_bind (plain_pure (T := T) ()).keeps fun _ g₂ h₂ ↦ ?_
            have hfine₂ : Fine g₂ a := Or.inl ((h₁.trans h₂).asynchronous.trans hasync)
            refine stuck_bind (hkeeps.value a g₂ hfine₂) fun v g₃ h₃ ↦ ?_
            refine stuck_bind (plain_line _ _).keeps fun _ g₄ h₄ ↦ ?_
            refine stuck_bind (plain_when _ (plain_line _ _)).keeps fun _ g₅ h₅ ↦ ?_
            refine stuck_bind (plain_lines _ _).keeps fun _ g₆ h₆ ↦ ?_
            refine stuck_bind (plain_awaited void).keeps fun result g₇ h₇ ↦ ?_
            refine stuck_bind (plain_lines _ _).keeps fun _ g₈ h₈ ↦ ?_
            have hframe :=
              ((((((h₁.trans h₂).trans h₃).trans h₄).trans h₅).trans h₆).trans h₇).trans h₈
            have hmem₈ : .defer a₀ ∈ g₈.cleanup := by rwa [hframe.cleanup]
            exact (ih.cleanupEmit g₈ (hframe.asynchronous.trans hasync) hmem₈).bind_left _
      · exact fun a g ha hasync hmem ↦ (ih.expression a g ha hasync hmem).bind_left _
      · intro place args g hargs hasync hmem
        cases args with
        | nil => cases hargs
        | cons a args =>
            by_cases hfirst : a.hasAwait = true
            · cases place with
              | true => exact (ih.expression a g hfirst hasync hmem).bind_left _
              | false => exact (ih.value a g hfirst hasync hmem).bind_left _
            · rw [Expr.anyAwait, Bool.or_eq_true] at hargs
              have hrest := hargs.resolve_left hfirst
              have hoperands : ∀ g', Frame g g' → NoResult (Lowering.operands T n false args) g' :=
                fun g' hg' ↦ ih.operands false args g' hrest (hg'.asynchronous.trans hasync)
                  (by rwa [hg'.cleanup])
              cases place with
              | true =>
                  refine stuck_bind (hkeeps.expression a g (Or.inl hasync)) fun v g' hg' ↦ ?_
                  exact (hoperands g' hg').bind_left _
              | false =>
                  refine stuck_bind (hkeeps.value a g (Or.inl hasync)) fun v g' hg' ↦ ?_
                  exact (hoperands g' hg').bind_left _
      · intro g hasync hmem
        refine stuck_get ?_
        rw [List.length_nil, Nat.sub_zero, List.take_length]
        exact ih.emitAll _ g hmem hasync hmem
      · intro cs g hcs hasync hmem
        cases cs with
        | nil => cases hcs
        | cons c cs =>
            have hrest : ∀ g', Frame g g' → .defer a₀ ∈ cs → NoResult (Lowering.emitAll T n cs) g' :=
              fun g' hg' hcs ↦ ih.emitAll cs g' hcs (hg'.asynchronous.trans hasync)
                (by rwa [hg'.cleanup])
            rcases List.mem_cons.mp hcs with rfl | htail
            · exact (ih.expression a₀ g h₀ hasync hmem).bind_left _
            · cases c with
              | defer a =>
                  refine stuck_bind (hkeeps.expression a g (Or.inl hasync)) fun s g₁ h₁ ↦ ?_
                  refine stuck_bind (plain_line _ _).keeps fun _ g₂ h₂ ↦ ?_
                  exact hrest g₂ (h₁.trans h₂) htail
              | drop l =>
                  refine stuck_get ?_
                  refine stuck_bind (plain_when _ (plain_line _ _)).keeps fun _ g' hg' ↦ ?_
                  exact hrest g' hg' htail

end TinyCPlus.Compiler.Lowering
