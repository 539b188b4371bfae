import TinyCPlus.Compiler.CompoundAssign

/-!
# Declarations of variables and `destroy` of closures

The text of the initializer goes into the text of the conversion, and the conversion
between two closure types mentions it three times.  `destroy` mentions it twice.
-/

namespace TinyCPlus.Compiler.Evaluation

open TinyCPlus.Library CState

variable {M A V α : Type}

/-! ## Types and their entries -/

/-- The kinds of types that `convert` tells apart. -/
inductive TypeKind where
  | array
  | slice
  | pointer
  | closure
  | named
  | other
deriving DecidableEq

/-- An entry of the type table. -/
structure TypeEntry where
  id : ℕ
  kind : TypeKind
  name : String
  items : List ℕ
  isInterface : Bool

/-- The table, newest entry first. -/
structure TypeTable where
  entries : List TypeEntry
  nextId : ℕ
  id_lt : ∀ t ∈ entries, t.id < nextId

/-- `convert`: the conversion from one entry to another. -/
def conversion (target source : TypeEntry) : Conversion :=
  if target.kind = .slice ∧ source.kind = .array then .once "slice"
  else if target.isInterface ∧ source.kind = .pointer then .once "interface"
  else if target.kind = .closure ∧ source.kind = .closure ∧ target.id ≠ source.id then .closure
  else .none

namespace TypeTable

variable (equal : List ℕ → List ℕ → Bool)

/-- `type_generic`, where `equal` compares the items of two types. -/
def generic (T : TypeTable) (name : String) (items : List ℕ) : TypeEntry :=
  ((T.entries.find? fun t ↦
    t.kind = .named ∧ t.items ≠ [] ∧ t.name = name ∧ equal t.items items)).getD
      ⟨T.nextId, .named, name, items, false⟩

/-- `parse_type` of `closure<…>`: the entry of `type_generic` becomes a closure type. -/
def parseClosure (T : TypeTable) (items : List ℕ) : TypeEntry :=
  { T.generic equal "Function" items with kind := .closure }

/-- No class is called `Function`. -/
def NoFunctionClass (T : TypeTable) : Prop :=
  ∀ t ∈ T.entries, t.kind = .named → t.name ≠ "Function"

/-- Every closure type that is written gets an entry of its own. -/
theorem parseClosure_id_ne {T : TypeTable} (h : T.NoFunctionClass) (items : List ℕ) :
    ∀ t ∈ T.entries, (T.parseClosure equal items).id ≠ t.id := by
  intro t ht
  have hnone : (T.entries.find? fun t ↦
      t.kind = .named ∧ t.items ≠ [] ∧ t.name = "Function" ∧ equal t.items items) = none := by
    rw [List.find?_eq_none]
    intro u hu hfound
    simp only [decide_eq_true_eq] at hfound
    exact h u hu hfound.1 hfound.2.2.1
  have hid : (T.parseClosure equal items).id = T.nextId := by
    simp only [parseClosure, generic, hnone, Option.getD_none]
  rw [hid]
  exact (T.id_lt t ht).ne'

end TypeTable

/-! ## The lowered statements -/

namespace CMeaning

variable (I : CMeaning M A V)

/-- `statement` of N_VAR: the conversion of the initializer into the variable `x`. -/
def declareLines (target source : TypeEntry) (x : String) (e : Expr) (g : ℕ) :
    Effect (CState M A V) Unit := do
  let L := I.expression e g
  L.lines
  let v ← I.convertText (conversion target source) L.text
  lift (I.write (I.address x) v)

/-- `e.destroy()` of a closure: `tc_closure_destroy((e).env, (e).owned)`. -/
def destroyLines (e : Expr) (g : ℕ) : Effect (CState M A V) V := do
  let L := I.expression e g
  L.lines
  let env ← L.text
  let env ← pick (I.part env "env")
  let owned ← L.text
  let owned ← pick (I.part owned "owned")
  lift (I.call "tc_closure_destroy" [env, owned])

/-- One evaluation of `e`, converted into the variable. -/
def declared (target source : TypeEntry) (x : String) (e : Expr) : Effect M Unit := do
  let v ← (I.meaning e).value
  let w ← pick (I.converted (conversion target source) v)
  I.write (I.address x) w

/-- One evaluation of `e`, whose environment is destroyed. -/
def destroyed (e : Expr) : Effect M V := do
  let v ← (I.meaning e).value
  let env ← pick (I.part v "env")
  let owned ← pick (I.part v "owned")
  I.call "tc_closure_destroy" [env, owned]

end CMeaning

/-- The text of the expression calls something or steps a location: the rest of what it
does is in the lines ahead of the text. -/
def Expr.loud : Expr → Bool
  | call _ _ | getter _ _ | step _ _ _ | compound _ _ _ => true
  | addressOf a | member a _ | arrow a _ => a.loud
  | _ => false

mutual

/-- Every operand that is used as a location is one, which C asks for. -/
def Expr.places : Expr → Bool
  | .name _ | .literal _ => true
  | .call _ args | .made _ args => Expr.allPlaces args
  | .getter a _ | .addressOf a | .step _ _ a => a.isPlace && a.places
  | .deref a | .unary _ a | .member a _ | .arrow a _ => a.places
  | .binary _ a b | .logic _ a b | .index a b => a.places && b.places
  | .indexArray a b | .assign _ a b | .compound _ a b => a.isPlace && a.places && b.places

def Expr.allPlaces : List Expr → Bool
  | [] => true
  | a :: rest => a.places && Expr.allPlaces rest

end

/-! ## Texts that can be read again -/

/-- Reading the text changes nothing. -/
def Still (x : Effect (CState M A V) α) : Prop := ∀ s a s', x s = some (a, s') → s' = s

/-- Reading the text once more gives the same and changes nothing. -/
def Repeatable (x : Effect (CState M A V) α) : Prop :=
  ∀ s a s', x s = some (a, s') → x s' = some (a, s')

section Repeatable

variable {β : Type}

theorem Still.repeatable {x : Effect (CState M A V) α} (h : Still x) : Repeatable x := by
  intro s a s' hx
  obtain rfl := h s a s' hx
  exact hx

theorem of_bind_eq_some {σ : Type} {x : Effect σ α} {f : α → Effect σ β} {s s' : σ} {b : β}
    (h : (x >>= f) s = some (b, s')) : ∃ a s₁, x s = some (a, s₁) ∧ f a s₁ = some (b, s') := by
  rw [Effect.bind_apply] at h
  obtain ⟨⟨a, s₁⟩, hx, hf⟩ := Option.bind_eq_some_iff.1 h
  exact ⟨a, s₁, hx, hf⟩

theorem Still.bind {x : Effect (CState M A V) α} {f : α → Effect (CState M A V) β}
    (hx : Still x) (hf : ∀ a, Still (f a)) : Still (x >>= f) := by
  intro s b s' h
  obtain ⟨a, s₁, hxs, hfs⟩ := of_bind_eq_some h
  obtain rfl := hx s a s₁ hxs
  exact hf a s₁ b s' hfs

theorem Repeatable.bind {x : Effect (CState M A V) α} {f : α → Effect (CState M A V) β}
    (hx : Repeatable x) (hf : ∀ a, Still (f a)) : Repeatable (x >>= f) := by
  intro s b s' h
  obtain ⟨a, s₁, hxs, hfs⟩ := of_bind_eq_some h
  obtain rfl := hf a s₁ b s' hfs
  rw [Effect.bind_apply, hx s a s' hxs]
  exact hfs

/-- What comes behind a second reading finds what the first one gave. -/
theorem Repeatable.again {x : Effect (CState M A V) α} (hx : Repeatable x) {s s₁ : CState M A V}
    {v : α} (hs : x s = some (v, s₁)) (f : α → Effect (CState M A V) β) :
    (x >>= f) s₁ = f v s₁ := by
  rw [Effect.bind_apply, hx s v s₁ hs]
  rfl

theorem still_pick (o : Option α) : Still (pick o : Effect (CState M A V) α) := by
  intro s a s' h
  rcases o with _ | b
  · cases h
  · cases h
    rfl

theorem still_pure (a : α) : Still (pure a : Effect (CState M A V) α) := still_pick (some a)

theorem still_failure : Still (failure : Effect (CState M A V) α) := still_pick none

theorem still_read (I : CMeaning M A V) (a : A) :
    Still (lift (I.read a) : Effect (CState M A V) V) := by
  intro s v s' h
  have hread : I.read a s.mem = (I.load s.mem a).map fun v ↦ (v, s.mem) := rfl
  rw [lift, hread, Option.map_map] at h
  obtain ⟨w, -, hw⟩ := Option.map_eq_some_iff.1 h
  cases hw
  rfl

theorem still_tempValue (k : ℕ) : Still (tempValue k : Effect (CState M A V) V) := by
  intro s v s' h
  unfold tempValue at h
  split at h
  · cases h
    rfl
  · cases h

theorem tempValue_temps {k : ℕ} {v : V} {s s' : CState M A V}
    (h : tempValue k s = some (v, s')) : s.temps k = some (.value v) := by
  unfold tempValue at h
  split at h
  · rename_i htemp
    cases h
    exact htemp
  · cases h

theorem tempPlace_temps {k : ℕ} {a : A} {s s' : CState M A V}
    (h : tempPlace k s = some (a, s')) : s.temps k = some (.place a) := by
  unfold tempPlace at h
  split at h
  · rename_i htemp
    cases h
    exact htemp
  · cases h

theorem still_tempPlace (k : ℕ) : Still (tempPlace k : Effect (CState M A V) A) := by
  intro s v s' h
  unfold tempPlace at h
  split at h
  · cases h
    rfl
  · cases h

end Repeatable

namespace CMeaning

variable (I : CMeaning M A V)

/-- A text that can be read again is converted as the value of one reading. -/
theorem convertText_eq {c : Conversion} {x : Effect (CState M A V) V}
    (h : c = .closure → Repeatable x) :
    I.convertText c x = x >>= fun v ↦ pick (I.converted c v) := by
  cases c with
  | none =>
    exact (bind_pure x).symm
  | once target => rfl
  | closure =>
    funext s
    rw [convertText, Effect.bind_apply, Effect.bind_apply]
    rcases hs : x s with _ | ⟨v, s₁⟩
    · rfl
    have hagain : ∀ f : V → Effect (CState M A V) V, (x >>= f) s₁ = f v s₁ :=
      fun f ↦ (h rfl).again hs f
    rw [Option.bind_some, Option.bind_some, converted]
    cases I.part v "env" with
    | none => rfl
    | some env =>
    rw [pick_bind, hagain]
    cases I.part v "invoke" with
    | none => rfl
    | some invoke =>
    rw [pick_bind, hagain]
    cases I.part v "owned" with
    | none => rfl
    | some owned => rfl

theorem still_convertText (c : Conversion) {x : Effect (CState M A V) V} (h : Still x) :
    Still (I.convertText c x) := by
  rw [I.convertText_eq fun _ ↦ h.repeatable]
  exact h.bind fun v ↦ still_pick _

theorem located_repeatable {next : ℕ} {lines : Effect (CState M A V) Unit}
    {place : Effect (CState M A V) A} (h : Repeatable place) :
    Repeatable (I.located next lines place).text :=
  h.bind fun a ↦ still_read I a

theorem write_some {p : A} {w : V} {s s' : CState M A V}
    (h : lift (I.write p w) s = some ((), s')) :
    ∃ m, I.store s.mem p w = some m ∧ s' = { s with mem := m } := by
  rw [lift, write, Option.map_map] at h
  obtain ⟨m, hm, hs'⟩ := Option.map_eq_some_iff.1 h
  cases hs'
  exact ⟨m, hm, rfl⟩

theorem convertText_of_temps {c : Conversion} {k : ℕ} {w : V} {s s' : CState M A V}
    (htemps : s'.temps = s.temps) (h : I.convertText c (tempValue k) s = some (w, s)) :
    I.convertText c (tempValue k) s' = some (w, s') := by
  have hread : ∃ v, tempValue k s = some (v, s) := by
    rw [I.convertText_eq fun _ ↦ (still_tempValue k).repeatable] at h
    obtain ⟨v, s₁, hv, -⟩ := of_bind_eq_some h
    obtain rfl := still_tempValue k s v s₁ hv
    exact ⟨v, hv⟩
  obtain ⟨v, hv⟩ := hread
  have htemp := tempValue_temps hv
  rw [I.convertText_tempValue c htemp] at h
  rw [I.convertText_tempValue c (htemps ▸ htemp)]
  rcases hc : I.converted c v with _ | w'
  · rw [hc] at h
    cases h
  · rw [hc] at h
    cases h
    rfl

/-- An assignment of temporaries writes the same value again. -/
theorem assign_repeatable (c : Conversion) (k k' : ℕ) :
    Repeatable (do
      let p ← tempPlace k
      let w ← I.convertText c (tempValue k')
      lift (I.write p w)
      pure w : Effect (CState M A V) V) := by
  intro s w s' h
  obtain ⟨p, s₁, hp, hrest⟩ := of_bind_eq_some h
  obtain rfl := still_tempPlace k s p s₁ hp
  obtain ⟨w', s₂, hw, hwrite⟩ := of_bind_eq_some hrest
  obtain rfl := I.still_convertText c (still_tempValue k') s₁ w' s₂ hw
  obtain ⟨⟨⟩, s₃, hstore, hpure⟩ := of_bind_eq_some hwrite
  cases hpure
  obtain ⟨m, hm, rfl⟩ := I.write_some hstore
  have hp' : tempPlace k { s₂ with mem := m } = some (p, { s₂ with mem := m }) :=
    tempPlace_apply (show s₂.temps k = _ from tempPlace_temps hp)
  have htemps : ({ s₂ with mem := m } : CState M A V).temps = s₂.temps := rfl
  have hw' := I.convertText_of_temps htemps hw
  have hstore' : lift (I.write p w) { s₂ with mem := m } = some ((), { s₂ with mem := m }) := by
    rw [lift, write, I.store_store hm]
    rfl
  rw [Effect.bind_apply, hp', Option.bind_some, Effect.bind_apply, hw', Option.bind_some,
    Effect.bind_apply, hstore']
  rfl

/-- A text that is not loud can be read again. -/
theorem text_repeatable : ∀ (e : Expr) (g : ℕ), e.loud = false →
    Repeatable (I.expression e g).text ∧ Repeatable (I.expression e g).place
  | .name x, g, _ => by
      rw [expression]
      exact ⟨I.located_repeatable (still_pure _).repeatable, (still_pure _).repeatable⟩
  | .literal t, g, _ => by
      rw [expression]
      exact ⟨(still_pure _).repeatable, still_failure.repeatable⟩
  | .made f args, g, _ => by
      rw [expression]
      exact ⟨(still_tempValue _).repeatable, still_failure.repeatable⟩
  | .deref p, g, _ => by
      have hplace : ∀ k, Still (do let v ← tempValue k; pick (I.pointee v) :
          Effect (CState M A V) A) := fun k ↦ (still_tempValue k).bind fun v ↦ still_pick _
      rw [expression]
      exact ⟨I.located_repeatable (hplace _).repeatable, (hplace _).repeatable⟩
  | .addressOf a, g, h => by
      have ha := text_repeatable a g h
      rw [expression]
      exact ⟨ha.2.bind fun p ↦ still_pure _, still_failure.repeatable⟩
  | .unary op a, g, _ => by
      rw [expression]
      exact ⟨((still_tempValue _).bind fun v ↦ still_pick _).repeatable, still_failure.repeatable⟩
  | .binary op a b, g, _ => by
      rw [expression]
      exact ⟨((still_tempValue _).bind fun v ↦ (still_tempValue _).bind fun w ↦
        still_pick _).repeatable, still_failure.repeatable⟩
  | .logic or a b, g, _ => by
      rw [expression]
      exact ⟨(still_tempValue _).repeatable, still_failure.repeatable⟩
  | .member a field, g, h => by
      have ha := text_repeatable a g h
      rw [expression]
      split
      · have hplace := ha.2.bind fun p ↦ still_pure (I.field p field)
        exact ⟨I.located_repeatable hplace, hplace⟩
      · exact ⟨ha.1.bind fun v ↦ still_pick _, still_failure.repeatable⟩
  | .arrow a field, g, h => by
      have ha := text_repeatable a g h
      rw [expression]
      have hplace := ha.1.bind fun v ↦ (still_pick (I.pointee v)).bind fun p ↦
        still_pure (I.field p field)
      exact ⟨I.located_repeatable hplace, hplace⟩
  | .index a i, g, _ => by
      have hplace : ∀ k k', Still (do
          let v ← tempValue k
          let w ← tempValue k'
          pick (I.element v w) : Effect (CState M A V) A) := fun k k' ↦
        (still_tempValue k).bind fun v ↦ (still_tempValue k').bind fun w ↦ still_pick _
      rw [expression]
      exact ⟨I.located_repeatable (hplace _ _).repeatable, (hplace _ _).repeatable⟩
  | .indexArray a i, g, _ => by
      have hplace : ∀ k k', Still (do
          let p ← tempPlace k
          let w ← tempValue k'
          pick (I.element (I.view p) w) : Effect (CState M A V) A) := fun k k' ↦
        (still_tempPlace k).bind fun p ↦ (still_tempValue k').bind fun w ↦ still_pick _
      rw [expression]
      exact ⟨I.located_repeatable (hplace _ _).repeatable, (hplace _ _).repeatable⟩
  | .assign conversion a b, g, _ => by
      rw [expression]
      exact ⟨I.assign_repeatable _ _ _, still_failure.repeatable⟩

/-! ## Where one evaluation is enough -/

/-- A declaration whose conversion does not repeat a loud text evaluates it once. -/
theorem declareLines_observed {target source : TypeEntry} {e : Expr}
    (h : conversion target source = .closure → e.loud = false) (x : String) (g : ℕ)
    (s : CState M A V) :
    observed (I.declareLines target source x e g s) =
      I.declared target source x e s.mem := by
  have hconvert : I.declareLines target source x e g =
      (I.expression e g).run >>= fun v ↦ pick (I.converted (conversion target source) v) >>=
        fun w ↦ lift (I.write (I.address x) w) := by
    simp only [declareLines, Lowered.run, bind_assoc]
    rw [I.convertText_eq fun hc ↦ (I.text_repeatable e g (h hc)).1]
    simp only [bind_assoc]
  rw [hconvert]
  refine Outcome.observed_eq (Does.bind (I.expression_implements e g).value (fun v ↦ ?_) s)
  exact (does_pick g _).bind fun w ↦ does_lift g _

/-- The same of `destroy`. -/
theorem destroyLines_observed {e : Expr} (h : e.loud = false) (g : ℕ) (s : CState M A V) :
    observed (I.destroyLines e g s) = I.destroyed e s.mem := by
  have hrepeat := (I.text_repeatable e g h).1
  have honce : I.destroyLines e g = (I.expression e g).run >>= fun v ↦
      pick (I.part v "env") >>= fun env ↦ pick (I.part v "owned") >>= fun owned ↦
        lift (I.call "tc_closure_destroy" [env, owned]) := by
    simp only [destroyLines, Lowered.run, bind_assoc]
    congr 1
    funext _ s₀
    rw [Effect.bind_apply, Effect.bind_apply]
    rcases hs : (I.expression e g).text s₀ with _ | ⟨v, s₁⟩
    · rfl
    rw [Option.bind_some, Option.bind_some]
    cases I.part v "env" with
    | none => rfl
    | some env =>
    rw [pick_bind, pick_bind, hrepeat.again hs]
  rw [honce]
  refine Outcome.observed_eq (Does.bind (I.expression_implements e g).value (fun v ↦ ?_) s)
  exact (does_pick g _).bind fun env ↦ (does_pick g _).bind fun owned ↦ does_lift g _

end CMeaning

/-! ## Where it is not -/

/-- A machine whose memory counts the calls and the steps. -/
def counting : CMeaning ℕ Unit ℕ where
  address := fun _ ↦ ()
  load := fun m _ ↦ some m
  store := fun m _ v ↦ some (max m v)
  store_isSome := fun _ _ _ ↦ rfl
  store_store := by
    intro m a v m' h
    cases h
    exact congrArg some (max_eq_left (le_max_right m v))
  literal := fun _ ↦ 0
  pointer := fun _ ↦ 0
  pointee := fun _ ↦ some ()
  field := fun _ _ ↦ ()
  part := fun v _ ↦ some v
  view := fun _ ↦ 0
  element := fun _ _ ↦ some ()
  truth := fun _ ↦ true
  ofBool := fun _ ↦ 0
  unary := fun _ v ↦ some v
  binary := fun _ v _ ↦ some v
  compound := fun _ v _ ↦ some (v + 1)
  convert := fun _ v ↦ v
  closure := fun _ _ _ ↦ 0
  call := fun _ _ m ↦ some (0, m + 1)

/-- The memory does not shrink. -/
def Grows (x : Effect (CState ℕ Unit ℕ) α) : Prop :=
  ∀ s a s', x s = some (a, s') → s.mem ≤ s'.mem

/-- The memory grows. -/
def Counts (x : Effect (CState ℕ Unit ℕ) α) : Prop :=
  ∀ s a s', x s = some (a, s') → s.mem < s'.mem

section Counting

variable {β : Type} {x : Effect (CState ℕ Unit ℕ) α} {f : α → Effect (CState ℕ Unit ℕ) β}

theorem Counts.grows (h : Counts x) : Grows x := fun s a s' hx ↦ (h s a s' hx).le

theorem Still.grows (h : Still x) : Grows x := by
  intro s a s' hx
  rw [h s a s' hx]

theorem Grows.bind (hx : Grows x) (hf : ∀ a, Grows (f a)) : Grows (x >>= f) := by
  intro s b s' h
  obtain ⟨a, s₁, hxs, hfs⟩ := of_bind_eq_some h
  exact (hx s a s₁ hxs).trans (hf a s₁ b s' hfs)

theorem Counts.bind_left (hx : Counts x) (hf : ∀ a, Grows (f a)) : Counts (x >>= f) := by
  intro s b s' h
  obtain ⟨a, s₁, hxs, hfs⟩ := of_bind_eq_some h
  exact (hx s a s₁ hxs).trans_le (hf a s₁ b s' hfs)

theorem Counts.bind_right (hx : Grows x) (hf : ∀ a, Counts (f a)) : Counts (x >>= f) := by
  intro s b s' h
  obtain ⟨a, s₁, hxs, hfs⟩ := of_bind_eq_some h
  exact (hx s a s₁ hxs).trans_lt (hf a s₁ b s' hfs)

theorem counts_call (name : String) (vs : List ℕ) :
    Counts (lift (counting.call name vs) : Effect (CState ℕ Unit ℕ) ℕ) := by
  intro s v s' h
  cases h
  exact Nat.lt_succ_self s.mem

theorem grows_write (a : Unit) (v : ℕ) :
    Grows (lift (counting.write a v) : Effect (CState ℕ Unit ℕ) Unit) := by
  intro s u s' h
  obtain ⟨m, hm, rfl⟩ := counting.write_some h
  cases hm
  exact le_max_left s.mem v

/-- A location is read, stepped and written. -/
theorem counts_step (p : Unit) (op : String) (w : ℕ) (f : ℕ → ℕ → ℕ) :
    Counts (do
      let v ← lift (counting.read p)
      let r ← pick (counting.compound op v w)
      lift (counting.write p r)
      pure (f v r) : Effect (CState ℕ Unit ℕ) ℕ) := by
  intro s u s' h
  cases h
  exact (Nat.lt_succ_self s.mem).trans_le (le_max_right s.mem (s.mem + 1))

theorem still_mapM (ks : List ℕ) :
    Still (ks.mapM tempValue : Effect (CState M A V) (List V)) := by
  induction ks with
  | nil => exact still_pure []
  | cons k ks ih =>
    rw [List.mapM_cons]
    exact (still_tempValue k).bind fun v ↦ ih.bind fun vs ↦ still_pure _

theorem located_grows {next : ℕ} {lines : Effect (CState ℕ Unit ℕ) Unit}
    {place : Effect (CState ℕ Unit ℕ) Unit} (h : Grows place) :
    Grows (counting.located next lines place).text :=
  h.bind fun a ↦ (still_read counting a).grows

theorem located_counts {next : ℕ} {lines : Effect (CState ℕ Unit ℕ) Unit}
    {place : Effect (CState ℕ Unit ℕ) Unit} (h : Counts place) :
    Counts (counting.located next lines place).text :=
  h.bind_left fun a ↦ (still_read counting a).grows

theorem counts_failure : Counts (failure : Effect (CState ℕ Unit ℕ) α) := by
  intro s a s' h
  cases h

theorem counts_getter (place : Effect (CState ℕ Unit ℕ) Unit) (hplace : Grows place)
    (property : String) : Counts (do
      let p ← place
      lift (counting.call property [counting.pointer p])) :=
  .bind_right hplace fun _ ↦ counts_call property _

theorem counts_stepText (place : Effect (CState ℕ Unit ℕ) Unit) (hplace : Grows place)
    (post : Bool) (op : String) : Counts (do
      let p ← place
      let v ← lift (counting.read p)
      let w ← pick (counting.compound op v (counting.literal "1"))
      lift (counting.write p w)
      pure (if post then v else w) : Effect (CState ℕ Unit ℕ) ℕ) :=
  .bind_right hplace fun p ↦ counts_step p op _ fun v w ↦ if post then v else w

/-- No text makes the memory smaller. -/
theorem text_grows (e : Expr) (g : ℕ) :
    Grows (counting.expression e g).text ∧ Grows (counting.expression e g).place := by
  cases e with
  | name x =>
      rw [CMeaning.expression]
      exact ⟨located_grows (still_pure _).grows, (still_pure _).grows⟩
  | literal t =>
      rw [CMeaning.expression]
      exact ⟨(still_pure _).grows, still_failure.grows⟩
  | call f args =>
      rw [CMeaning.expression]
      exact ⟨(still_mapM _).grows.bind fun vs ↦ (counts_call f vs).grows, still_failure.grows⟩
  | made f args =>
      rw [CMeaning.expression]
      exact ⟨(still_tempValue _).grows, still_failure.grows⟩
  | getter a property =>
      have ha := text_grows a g
      rw [CMeaning.expression]
      exact ⟨(counts_getter _ ha.2 property).grows, still_failure.grows⟩
  | deref p =>
      have hplace : ∀ k, Grows (do let v ← tempValue k; pick (counting.pointee v) :
          Effect (CState ℕ Unit ℕ) Unit) := fun k ↦
        ((still_tempValue k).bind fun v ↦ still_pick _).grows
      rw [CMeaning.expression]
      exact ⟨located_grows (hplace _), hplace _⟩
  | addressOf a =>
      have ha := text_grows a g
      rw [CMeaning.expression]
      exact ⟨ha.2.bind fun p ↦ (still_pure _).grows, still_failure.grows⟩
  | step post op a =>
      have ha := text_grows a g
      rw [CMeaning.expression]
      exact ⟨(counts_stepText _ ha.2 post op).grows, still_failure.grows⟩
  | unary op a =>
      rw [CMeaning.expression]
      exact ⟨((still_tempValue _).bind fun v ↦ still_pick _).grows, still_failure.grows⟩
  | binary op a b =>
      rw [CMeaning.expression]
      exact ⟨((still_tempValue _).bind fun v ↦ (still_tempValue _).bind fun w ↦
        still_pick _).grows, still_failure.grows⟩
  | logic or a b =>
      rw [CMeaning.expression]
      exact ⟨(still_tempValue _).grows, still_failure.grows⟩
  | member a field =>
      have ha := text_grows a g
      rw [CMeaning.expression]
      split
      · have hplace := ha.2.bind fun p ↦ (still_pure (counting.field p field)).grows
        exact ⟨located_grows hplace, hplace⟩
      · exact ⟨ha.1.bind fun v ↦ (still_pick _).grows, still_failure.grows⟩
  | arrow a field =>
      have ha := text_grows a g
      rw [CMeaning.expression]
      have hplace := ha.1.bind fun v ↦ ((still_pick (counting.pointee v)).bind fun p ↦
        still_pure (counting.field p field)).grows
      exact ⟨located_grows hplace, hplace⟩
  | index a i =>
      have hplace : ∀ k k', Grows (do
          let v ← tempValue k
          let w ← tempValue k'
          pick (counting.element v w) : Effect (CState ℕ Unit ℕ) Unit) := fun k k' ↦
        ((still_tempValue k).bind fun v ↦ (still_tempValue k').bind fun w ↦ still_pick _).grows
      rw [CMeaning.expression]
      exact ⟨located_grows (hplace _ _), hplace _ _⟩
  | indexArray a i =>
      have hplace : ∀ k k', Grows (do
          let p ← tempPlace k
          let w ← tempValue k'
          pick (counting.element (counting.view p) w) : Effect (CState ℕ Unit ℕ) Unit) :=
        fun k k' ↦
          ((still_tempPlace k).bind fun p ↦ (still_tempValue k').bind fun w ↦ still_pick _).grows
      rw [CMeaning.expression]
      exact ⟨located_grows (hplace _ _), hplace _ _⟩
  | assign conversion a b =>
      rw [CMeaning.expression]
      exact ⟨(still_tempPlace _).grows.bind fun p ↦
        (counting.still_convertText _ (still_tempValue _)).grows.bind fun w ↦
          (grows_write p w).bind fun _ ↦ (still_pure w).grows, still_failure.grows⟩
  | compound op a b =>
      rw [CMeaning.expression]
      exact ⟨(still_tempPlace _).grows.bind fun p ↦ (still_tempValue _).grows.bind fun w ↦
        (counts_step p op w fun _ r ↦ r).grows, still_failure.grows⟩

/-- A loud text is counted whenever it is read. -/
theorem text_counts : ∀ (e : Expr) (g : ℕ), e.loud = true →
    Counts (counting.expression e g).text ∧ Counts (counting.expression e g).place
  | .call f args, g, _ => by
      rw [CMeaning.expression]
      exact ⟨.bind_right (still_mapM _).grows fun vs ↦ counts_call f vs, counts_failure⟩
  | .getter a property, g, _ => by
      rw [CMeaning.expression]
      exact ⟨counts_getter _ (text_grows a g).2 property, counts_failure⟩
  | .step post op a, g, _ => by
      rw [CMeaning.expression]
      exact ⟨counts_stepText _ (text_grows a g).2 post op, counts_failure⟩
  | .compound op a b, g, _ => by
      rw [CMeaning.expression]
      exact ⟨.bind_right (still_tempPlace _).grows fun p ↦
        .bind_right (still_tempValue _).grows fun w ↦ counts_step p op w fun _ r ↦ r,
        counts_failure⟩
  | .addressOf a, g, h => by
      have ha := text_counts a g h
      rw [CMeaning.expression]
      exact ⟨ha.2.bind_left fun p ↦ (still_pure _).grows, counts_failure⟩
  | .member a field, g, h => by
      have ha := text_counts a g h
      rw [CMeaning.expression]
      split
      · have hplace := ha.2.bind_left fun p ↦ (still_pure (counting.field p field)).grows
        exact ⟨located_counts hplace, hplace⟩
      · exact ⟨ha.1.bind_left fun v ↦ (still_pick _).grows, counts_failure⟩
  | .arrow a field, g, h => by
      have ha := text_counts a g h
      rw [CMeaning.expression]
      have hplace := ha.1.bind_left fun v ↦ ((still_pick (counting.pointee v)).bind fun p ↦
        still_pure (counting.field p field)).grows
      exact ⟨located_counts hplace, hplace⟩

/-! ## What the counting machine computes -/

/-- A result is left, whatever the memory. -/
def Total {σ : Type} (x : Effect σ α) : Prop := ∀ m, ∃ r, x m = some r

theorem Total.bind {σ : Type} {x : Effect σ α} {f : α → Effect σ β} (hx : Total x)
    (hf : ∀ a, Total (f a)) : Total (x >>= f) := by
  intro m
  obtain ⟨r, hr⟩ := hx m
  rw [Effect.bind_apply, hr]
  exact hf r.1 r.2

theorem total_pure {σ : Type} (a : α) : Total (pure a : Effect σ α) := fun m ↦ ⟨(a, m), rfl⟩

theorem total_read (a : Unit) : Total (counting.read a) := fun m ↦ ⟨(m, m), rfl⟩

theorem total_write (a : Unit) (v : ℕ) : Total (counting.write a v) :=
  fun m ↦ ⟨((), max m v), rfl⟩

theorem total_call (f : String) (vs : List ℕ) : Total (counting.call f vs) :=
  fun m ↦ ⟨(0, m + 1), rfl⟩

theorem total_converted (c : Conversion) (v : ℕ) :
    Total (pick (counting.converted c v) : Effect ℕ ℕ) := by
  cases c with
  | none => exact total_pure v
  | once target => exact total_pure v
  | closure => exact total_pure 0

theorem total_located {place : Effect ℕ Unit} (h : Total place) :
    Total (counting.locatedMeaning place).value := h.bind total_read

mutual

/-- Where every operand that is used as a location is one, every expression has a value. -/
theorem meaning_total : ∀ e : Expr, e.places = true →
    Total (counting.meaning e).value ∧ (e.isPlace = true → Total (counting.meaning e).place)
  | .name x, _ => by
      rw [CMeaning.meaning]
      exact ⟨total_located (total_pure _), fun _ ↦ total_pure _⟩
  | .literal t, _ => by
      rw [CMeaning.meaning]
      exact ⟨total_pure _, fun h ↦ by cases h⟩
  | .call f args, h => by
      rw [CMeaning.meaning]
      exact ⟨(argMeaning_total args h).bind fun vs ↦ total_call f vs, fun h ↦ by cases h⟩
  | .made f args, h => by
      rw [CMeaning.meaning]
      exact ⟨(argMeaning_total args h).bind fun vs ↦ total_call f vs, fun h ↦ by cases h⟩
  | .getter a property, h => by
      obtain ⟨hplace, ha⟩ := Bool.and_eq_true_iff.1 h
      rw [CMeaning.meaning]
      exact ⟨((meaning_total a ha).2 hplace).bind fun p ↦ total_call property _,
        fun h ↦ by cases h⟩
  | .deref p, h => by
      have hplace : Total (do
          let v ← (counting.meaning p).value
          pick (counting.pointee v)) := (meaning_total p h).1.bind fun v ↦ total_pure ()
      rw [CMeaning.meaning]
      exact ⟨total_located hplace, fun _ ↦ hplace⟩
  | .addressOf a, h => by
      obtain ⟨hplace, ha⟩ := Bool.and_eq_true_iff.1 h
      rw [CMeaning.meaning]
      exact ⟨((meaning_total a ha).2 hplace).bind fun p ↦ total_pure _, fun h ↦ by cases h⟩
  | .step post op a, h => by
      obtain ⟨hplace, ha⟩ := Bool.and_eq_true_iff.1 h
      rw [CMeaning.meaning]
      exact ⟨((meaning_total a ha).2 hplace).bind fun p ↦ (total_read p).bind fun v ↦
        (total_pure _).bind fun w ↦ (total_write p w).bind fun _ ↦ total_pure _,
        fun h ↦ by cases h⟩
  | .unary op a, h => by
      rw [CMeaning.meaning]
      exact ⟨(meaning_total a h).1.bind fun v ↦ total_pure _, fun h ↦ by cases h⟩
  | .binary op a b, h => by
      obtain ⟨ha, hb⟩ := Bool.and_eq_true_iff.1 h
      rw [CMeaning.meaning]
      exact ⟨(meaning_total a ha).1.bind fun v ↦ (meaning_total b hb).1.bind fun w ↦
        total_pure _, fun h ↦ by cases h⟩
  | .logic or a b, h => by
      obtain ⟨ha, hb⟩ := Bool.and_eq_true_iff.1 h
      rw [CMeaning.meaning]
      refine ⟨(meaning_total a ha).1.bind fun v ↦ ?_, fun h ↦ by cases h⟩
      split
      · exact total_pure _
      · exact (meaning_total b hb).1.bind fun w ↦ total_pure _
  | .member a field, h => by
      have ha := meaning_total a h
      rw [CMeaning.meaning]
      split
      · rename_i hisPlace
        have hplace := (ha.2 hisPlace).bind fun p ↦ total_pure (counting.field p field)
        exact ⟨total_located hplace, fun _ ↦ hplace⟩
      · rename_i hisPlace
        exact ⟨ha.1.bind fun v ↦ total_pure _, fun h ↦ absurd h hisPlace⟩
  | .arrow a field, h => by
      have hplace := (meaning_total a h).1.bind fun v ↦
        (total_pure ()).bind fun p ↦ total_pure (counting.field p field)
      rw [CMeaning.meaning]
      exact ⟨total_located hplace, fun _ ↦ hplace⟩
  | .index a i, h => by
      obtain ⟨ha, hi⟩ := Bool.and_eq_true_iff.1 h
      have hplace : Total (do
          let v ← (counting.meaning a).value
          let k ← (counting.meaning i).value
          pick (counting.element v k)) :=
        (meaning_total a ha).1.bind fun v ↦ (meaning_total i hi).1.bind fun k ↦ total_pure ()
      rw [CMeaning.meaning]
      exact ⟨total_located hplace, fun _ ↦ hplace⟩
  | .indexArray a i, h => by
      obtain ⟨ha, hi⟩ := Bool.and_eq_true_iff.1 h
      obtain ⟨hplaceA, ha⟩ := Bool.and_eq_true_iff.1 ha
      have hplace : Total (do
          let p ← (counting.meaning a).place
          let k ← (counting.meaning i).value
          pick (counting.element (counting.view p) k)) :=
        ((meaning_total a ha).2 hplaceA).bind fun p ↦ (meaning_total i hi).1.bind fun k ↦
          total_pure ()
      rw [CMeaning.meaning]
      exact ⟨total_located hplace, fun _ ↦ hplace⟩
  | .assign conversion a b, h => by
      obtain ⟨ha, hb⟩ := Bool.and_eq_true_iff.1 h
      obtain ⟨hplace, ha⟩ := Bool.and_eq_true_iff.1 ha
      rw [CMeaning.meaning]
      exact ⟨((meaning_total a ha).2 hplace).bind fun p ↦ (meaning_total b hb).1.bind fun v ↦
        (total_converted conversion v).bind fun w ↦ (total_write p w).bind fun _ ↦ total_pure w,
        fun h ↦ by cases h⟩
  | .compound op a b, h => by
      obtain ⟨ha, hb⟩ := Bool.and_eq_true_iff.1 h
      obtain ⟨hplace, ha⟩ := Bool.and_eq_true_iff.1 ha
      rw [CMeaning.meaning]
      exact ⟨((meaning_total a ha).2 hplace).bind fun p ↦ (meaning_total b hb).1.bind fun w ↦
        (total_read p).bind fun v ↦ (total_pure _).bind fun r ↦ (total_write p r).bind fun _ ↦
          total_pure r, fun h ↦ by cases h⟩

theorem argMeaning_total : ∀ args : List Expr, Expr.allPlaces args = true →
    Total (counting.argMeaning args)
  | [], _ => by
      rw [CMeaning.argMeaning]
      exact total_pure []
  | a :: rest, h => by
      obtain ⟨ha, hrest⟩ := Bool.and_eq_true_iff.1 h
      rw [CMeaning.argMeaning]
      exact (meaning_total a ha).1.bind fun v ↦ (argMeaning_total rest hrest).bind fun vs ↦
        total_pure _

end

end Counting

/-! ## When a declaration and a `destroy` evaluate once -/

section Repeats

variable {e : Expr} {g : ℕ} {s s' : CState ℕ Unit ℕ} {v m : ℕ}

/-- What is counted behind an expression is counted behind its one evaluation. -/
theorem counted_run {K : ℕ → Effect (CState ℕ Unit ℕ) α} {a : α}
    (hv : (counting.meaning e).value s.mem = some (v, m)) (hK : ∀ v, Counts (K v))
    (h : ((counting.expression e g).run >>= K) s = some (a, s')) : m < s'.mem := by
  obtain ⟨w, s₁, hrun, hrest⟩ := of_bind_eq_some h
  have hobserved := counting.observed_run e g s
  rw [hrun, hv] at hobserved
  have hmem : s₁.mem = m := congrArg Prod.snd (Option.some.inj hobserved)
  exact hmem ▸ hK w s₁ a s' hrest

theorem declareLines_counts {target source : TypeEntry}
    (hclosure : conversion target source = .closure) (hloud : e.loud = true) (x : String)
    (hv : (counting.meaning e).value s.mem = some (v, m)) {u : Unit}
    (h : counting.declareLines target source x e g s = some (u, s')) : m < s'.mem := by
  have htext := (text_counts e g hloud).1
  have hlines : counting.declareLines target source x e g =
      (counting.expression e g).run >>= fun v ↦ pick (counting.part v "env") >>= fun env ↦
        (counting.expression e g).text >>= fun i ↦ pick (counting.part i "invoke") >>=
          fun invoke ↦ (counting.expression e g).text >>= fun o ↦
            pick (counting.part o "owned") >>= fun owned ↦
              lift (counting.write (counting.address x) (counting.closure env invoke owned)) := by
    simp only [CMeaning.declareLines, hclosure, CMeaning.convertText, Lowered.run, bind_assoc,
      pure_bind]
  rw [hlines] at h
  refine counted_run hv (fun v ↦ ?_) h
  refine .bind_right (still_pick _).grows fun env ↦ htext.bind_left fun i ↦ ?_
  refine (still_pick _).grows.bind fun invoke ↦ htext.grows.bind fun o ↦ ?_
  exact (still_pick _).grows.bind fun owned ↦ grows_write _ _

theorem destroyLines_counts (hloud : e.loud = true)
    (hv : (counting.meaning e).value s.mem = some (v, m)) {w : ℕ}
    (h : counting.destroyLines e g s = some (w, s')) : m + 1 < s'.mem := by
  have htext := (text_counts e g hloud).1
  have hlines : counting.destroyLines e g =
      ((counting.expression e g).run >>= fun v ↦ pick (counting.part v "env") >>= fun env ↦
        (counting.expression e g).text >>= fun o ↦ pick (counting.part o "owned") >>= fun owned ↦
          pure [env, owned]) >>= fun vs ↦ lift (counting.call "tc_closure_destroy" vs) := by
    simp only [CMeaning.destroyLines, Lowered.run, bind_assoc, pure_bind]
  rw [hlines] at h
  obtain ⟨vs, s₁, hread, hcall⟩ := of_bind_eq_some h
  have hlt : m < s₁.mem := by
    refine counted_run hv (fun v ↦ ?_) hread
    refine .bind_right (still_pick _).grows fun env ↦ htext.bind_left fun o ↦ ?_
    exact (still_pick _).grows.bind fun owned ↦ (still_pure _).grows
  cases hcall
  exact Nat.succ_lt_succ hlt

end Repeats

end TinyCPlus.Compiler.Evaluation
