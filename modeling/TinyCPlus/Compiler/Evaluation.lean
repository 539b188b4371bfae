import TinyCPlus.Library.Effects

/-!
# What the C code of an expression does (`expression`, `value`, `convert`)

`expression` emits lines and returns a text, which the caller pastes into a later line.
The effects of an expression are thus divided: what the lines do happens where they are
emitted, and what the text does happens wherever, and as often as, the text is read.
-/

namespace TinyCPlus.Compiler.Evaluation

open TinyCPlus.Library

/-! ## Expressions -/

/-- The conversions of `convert`.  All but the one between closures mention the converted
text once. -/
inductive Conversion where
  | none
  | once (target : String)
  | closure
deriving DecidableEq

/-- The expressions by what is lowered and when.  `call` stands for everything whose text
is a call, `made` for what a line of its own calls or allocates (`new`, `await`, lambdas,
results of tasks), and `getter` for a computed property. -/
inductive Expr where
  | name (x : String)
  | literal (text : String)
  | call (f : String) (args : List Expr)
  | made (f : String) (args : List Expr)
  | getter (a : Expr) (property : String)
  | deref (p : Expr)
  | addressOf (a : Expr)
  | step (post : Bool) (op : String) (a : Expr)
  | unary (op : String) (a : Expr)
  | binary (op : String) (a b : Expr)
  | logic (or : Bool) (a b : Expr)
  | member (a : Expr) (field : String)
  | arrow (a : Expr) (field : String)
  | index (a i : Expr)
  | indexArray (a i : Expr)
  | assign (conversion : Conversion) (a b : Expr)
  | compound (op : String) (a b : Expr)

/-- The text is a location of C, so that `(text).f` is one. -/
def Expr.isPlace : Expr → Bool
  | name _ | deref _ | arrow _ _ | index _ _ | indexArray _ _ => true
  | member a _ => a.isPlace
  | _ => false

/-! ## What C does -/

/-- What the operations of C mean, for a memory `M`, addresses `A` and values `V`; nothing
is left where the program ends or what it does is undefined. -/
structure CMeaning (M A V : Type) where
  address : String → A
  load : M → A → Option V
  store : M → A → V → Option M
  /-- What can be read can be written. -/
  store_isSome : ∀ m a v, (store m a v).isSome = (load m a).isSome
  /-- To write a value again changes nothing. -/
  store_store : ∀ {m a v m'}, store m a v = some m' → store m' a v = some m'
  literal : String → V
  pointer : A → V
  pointee : V → Option A
  field : A → String → A
  part : V → String → Option V
  view : A → V
  element : V → V → Option A
  truth : V → Bool
  ofBool : Bool → V
  unary : String → V → Option V
  binary : String → V → V → Option V
  /-- The binary operation with its result converted to the type on the left. -/
  compound : String → V → V → Option V
  convert : String → V → V
  closure : V → V → V → V
  call : String → List V → Effect M V

variable {M A V α β : Type}

/-- The content of a temporary. -/
inductive TempValue (A V : Type) where
  | value (v : V)
  | place (a : A)

/-- The memory of the program and the temporaries of the emitted function. -/
structure CState (M A V : Type) where
  mem : M
  temps : ℕ → Option (TempValue A V)

namespace CState

def lift (x : Effect M α) : Effect (CState M A V) α := fun s ↦
  (x s.mem).map fun r ↦ (r.1, { s with mem := r.2 })

def setTemp (k : ℕ) (c : TempValue A V) : Effect (CState M A V) Unit := fun s ↦
  some ((), { s with temps := Function.update s.temps k (some c) })

def tempValue (k : ℕ) : Effect (CState M A V) V := fun s ↦
  match s.temps k with
  | some (.value v) => some (v, s)
  | _ => none

def tempPlace (k : ℕ) : Effect (CState M A V) A := fun s ↦
  match s.temps k with
  | some (.place a) => some (a, s)
  | _ => none

end CState

/-! ## Lowering -/

/-- What `expression` leaves: the next free temporary, the emitted lines, and what the
text does where it is read as a value and where it is read as a location. -/
structure Lowered (M A V : Type) where
  next : ℕ
  lines : Effect (CState M A V) Unit
  text : Effect (CState M A V) V
  place : Effect (CState M A V) A

namespace Lowered

open CState

/-- The emitted lines and one line that reads the text. -/
def run (L : Lowered M A V) : Effect (CState M A V) V := do
  L.lines
  L.text

/-- The lines that `value` emits, with a line for the temporary `L.next`. -/
def valueLines (L : Lowered M A V) : Effect (CState M A V) Unit := do
  L.lines
  let v ← L.text
  setTemp L.next (.value v)

/-- The lines with one for a temporary `T *v = &(text)`. -/
def placeLines (L : Lowered M A V) : Effect (CState M A V) Unit := do
  L.lines
  let a ← L.place
  setTemp L.next (.place a)

/-- A text that is no location. -/
def ofText (next : ℕ) (lines : Effect (CState M A V) Unit) (text : Effect (CState M A V) V) :
    Lowered M A V := ⟨next, lines, text, failure⟩

end Lowered

open CState

/-- An option as an effect that changes nothing. -/
def pick {σ : Type} (o : Option α) : Effect σ α := fun s ↦ o.map fun a ↦ (a, s)

namespace CMeaning

variable (I : CMeaning M A V)

def read (a : A) : Effect M V := fun m ↦ (I.load m a).map fun v ↦ (v, m)

def write (a : A) (v : V) : Effect M Unit := fun m ↦ (I.store m a v).map fun m' ↦ ((), m')

/-- The location of a text that C reads and writes. -/
def located (next : ℕ) (lines : Effect (CState M A V) Unit) (place : Effect (CState M A V) A) :
    Lowered M A V :=
  ⟨next, lines, (do let a ← place; lift (I.read a)), place⟩

/-- The text that `convert` makes of a text. -/
def convertText (c : Conversion) (text : Effect (CState M A V) V) : Effect (CState M A V) V :=
  match c with
  | .none => text
  | .once target => do
      let v ← text
      pure (I.convert target v)
  | .closure => do
      let env ← text
      let env ← pick (I.part env "env")
      let invoke ← text
      let invoke ← pick (I.part invoke "invoke")
      let owned ← text
      let owned ← pick (I.part owned "owned")
      pure (I.closure env invoke owned)

/-- The value that a conversion makes of a value. -/
def converted (c : Conversion) (v : V) : Option V :=
  match c with
  | .none => some v
  | .once target => some (I.convert target v)
  | .closure => do
      let env ← I.part v "env"
      let invoke ← I.part v "invoke"
      let owned ← I.part v "owned"
      pure (I.closure env invoke owned)

mutual

/-- `expression`, with the first free temporary. -/
def expression : Expr → ℕ → Lowered M A V
  | .name x, g => I.located g (pure ()) (pure (I.address x))
  | .literal t, g => .ofText g (pure ()) (pure (I.literal t))
  | .call f args, g =>
      let L := argValues args g
      .ofText L.1 L.2.1 do
        let vs ← L.2.2.mapM tempValue
        lift (I.call f vs)
  | .made f args, g =>
      let L := argValues args g
      .ofText (L.1 + 1)
        (do
          L.2.1
          let vs ← L.2.2.mapM tempValue
          let v ← lift (I.call f vs)
          setTemp L.1 (.value v))
        (tempValue L.1)
  | .getter a property, g =>
      let L := expression a g
      .ofText L.next L.lines do
        let p ← L.place
        lift (I.call property [I.pointer p])
  | .deref p, g =>
      let L := expression p g
      I.located (L.next + 1) L.valueLines do
        let v ← tempValue L.next
        pick (I.pointee v)
  | .addressOf a, g =>
      let L := expression a g
      .ofText L.next L.lines do
        let p ← L.place
        pure (I.pointer p)
  | .step post op a, g =>
      let L := expression a g
      .ofText L.next L.lines do
        let p ← L.place
        let v ← lift (I.read p)
        let w ← pick (I.compound op v (I.literal "1"))
        lift (I.write p w)
        pure (if post then v else w)
  | .unary op a, g =>
      let L := expression a g
      .ofText (L.next + 1) L.valueLines do
        let v ← tempValue L.next
        pick (I.unary op v)
  | .binary op a b, g =>
      let L := expression a g
      let R := expression b (L.next + 1)
      .ofText (R.next + 1)
        (do
          L.valueLines
          R.valueLines)
        (do
          let v ← tempValue L.next
          let w ← tempValue R.next
          pick (I.binary op v w))
  | .logic or a b, g =>
      let L := expression a g
      let R := expression b (L.next + 2)
      .ofText (R.next + 1)
        (do
          L.valueLines
          let v ← tempValue L.next
          setTemp (L.next + 1) (.value (I.ofBool (I.truth v)))
          if I.truth v = or then pure ()
          else
            R.valueLines
            let w ← tempValue R.next
            setTemp (L.next + 1) (.value (I.ofBool (I.truth w))))
        (tempValue (L.next + 1))
  | .member a field, g =>
      let L := expression a g
      if a.isPlace then
        I.located L.next L.lines do
          let p ← L.place
          pure (I.field p field)
      else
        .ofText L.next L.lines do
          let v ← L.text
          pick (I.part v field)
  | .arrow a field, g =>
      let L := expression a g
      I.located L.next L.lines do
        let v ← L.text
        let p ← pick (I.pointee v)
        pure (I.field p field)
  | .index a i, g =>
      let L := expression a g
      let R := expression i (L.next + 1)
      I.located (R.next + 1)
        (do
          L.valueLines
          R.valueLines)
        (do
          let v ← tempValue L.next
          let k ← tempValue R.next
          pick (I.element v k))
  | .indexArray a i, g =>
      let L := expression a g
      let R := expression i (L.next + 1)
      I.located (R.next + 1)
        (do
          L.placeLines
          R.valueLines)
        (do
          let p ← tempPlace L.next
          let k ← tempValue R.next
          pick (I.element (I.view p) k))
  | .assign conversion a b, g =>
      let L := expression a g
      let R := expression b (L.next + 1)
      .ofText (R.next + 1)
        (do
          L.placeLines
          R.valueLines)
        (do
          let p ← tempPlace L.next
          let w ← I.convertText conversion (tempValue R.next)
          lift (I.write p w)
          pure w)
  | .compound op a b, g =>
      let L := expression a g
      let R := expression b (L.next + 1)
      .ofText (R.next + 1)
        (do
          L.placeLines
          R.valueLines)
        (do
          let p ← tempPlace L.next
          let w ← tempValue R.next
          let v ← lift (I.read p)
          let r ← pick (I.compound op v w)
          lift (I.write p r)
          pure r)

/-- `arg_values`: the next free temporary, the lines and the temporaries of the arguments. -/
def argValues : List Expr → ℕ → ℕ × Effect (CState M A V) Unit × List ℕ
  | [], g => (g, pure (), [])
  | a :: rest, g =>
      let L := expression a g
      let R := argValues rest (L.next + 1)
      (R.1, (do L.valueLines; R.2.1), L.next :: R.2.2)

end

end CMeaning

/-! ## The meaning without temporaries -/

/-- What an expression does where it is used as a value and where it is used as a
location. -/
structure Meaning (M A V : Type) where
  value : Effect M V
  place : Effect M A

namespace Meaning

def ofValue (value : Effect M V) : Meaning M A V := ⟨value, failure⟩

end Meaning

namespace CMeaning

variable (I : CMeaning M A V)

def locatedMeaning (place : Effect M A) : Meaning M A V := ⟨place >>= I.read, place⟩

mutual

/-- What the lowered expression does, from left to right, apart from the compound
assignment, which reads its location after the operand on the right. -/
def meaning : Expr → Meaning M A V
  | .name x => I.locatedMeaning (pure (I.address x))
  | .literal t => .ofValue (pure (I.literal t))
  | .call f args | .made f args => .ofValue do
      let vs ← argMeaning args
      I.call f vs
  | .getter a property => .ofValue do
      let p ← (meaning a).place
      I.call property [I.pointer p]
  | .deref p => I.locatedMeaning do
      let v ← (meaning p).value
      pick (I.pointee v)
  | .addressOf a => .ofValue do
      let p ← (meaning a).place
      pure (I.pointer p)
  | .step post op a => .ofValue do
      let p ← (meaning a).place
      let v ← I.read p
      let w ← pick (I.compound op v (I.literal "1"))
      I.write p w
      pure (if post then v else w)
  | .unary op a => .ofValue do
      let v ← (meaning a).value
      pick (I.unary op v)
  | .binary op a b => .ofValue do
      let v ← (meaning a).value
      let w ← (meaning b).value
      pick (I.binary op v w)
  | .logic or a b => .ofValue do
      let v ← (meaning a).value
      if I.truth v = or then pure (I.ofBool (I.truth v))
      else
        let w ← (meaning b).value
        pure (I.ofBool (I.truth w))
  | .member a field =>
      if a.isPlace then
        I.locatedMeaning do
          let p ← (meaning a).place
          pure (I.field p field)
      else
        .ofValue do
          let v ← (meaning a).value
          pick (I.part v field)
  | .arrow a field => I.locatedMeaning do
      let v ← (meaning a).value
      let p ← pick (I.pointee v)
      pure (I.field p field)
  | .index a i => I.locatedMeaning do
      let v ← (meaning a).value
      let k ← (meaning i).value
      pick (I.element v k)
  | .indexArray a i => I.locatedMeaning do
      let p ← (meaning a).place
      let k ← (meaning i).value
      pick (I.element (I.view p) k)
  | .assign conversion a b => .ofValue do
      let p ← (meaning a).place
      let v ← (meaning b).value
      let w ← pick (I.converted conversion v)
      I.write p w
      pure w
  | .compound op a b => .ofValue do
      let p ← (meaning a).place
      let w ← (meaning b).value
      let v ← I.read p
      let r ← pick (I.compound op v w)
      I.write p r
      pure r

def argMeaning : List Expr → Effect M (List V)
  | [] => pure []
  | a :: rest => do
      let v ← (meaning a).value
      let vs ← argMeaning rest
      pure (v :: vs)

end

end CMeaning

/-! ## One outcome with the temporaries and one without -/

/-- The same result and the same memory, with the temporaries below `g` as in `temps`. -/
def Outcome (g : ℕ) (temps : ℕ → Option (TempValue A V)) :
    Option (α × CState M A V) → Option (α × M) → Prop
  | none, none => True
  | some (a, s), some (b, m) => a = b ∧ s.mem = m ∧ ∀ k < g, s.temps k = temps k
  | none, some _ | some _, none => False

/-- From every state the emitted code does what is meant and keeps the temporaries below
`g`. -/
def Does (g : ℕ) (x : Effect (CState M A V) α) (y : Effect M α) : Prop :=
  ∀ s, Outcome g s.temps (x s) (y s.mem)

theorem outcome_bind {g : ℕ} {temps : ℕ → Option (TempValue A V)}
    {x : Effect (CState M A V) α} {y : Effect M α} {f : α → Effect (CState M A V) β}
    {f' : α → Effect M β} {h : ℕ} {s : CState M A V} (hx : Outcome h s.temps (x s) (y s.mem))
    (hf : ∀ a s', (∀ k < h, s'.temps k = s.temps k) →
      Outcome g temps (f a s') (f' a s'.mem)) :
    Outcome g temps ((x >>= f) s) ((y >>= f') s.mem) := by
  rw [Effect.bind_apply, Effect.bind_apply]
  generalize x s = left at hx ⊢
  generalize y s.mem = right at hx ⊢
  rcases left with _ | ⟨a, s'⟩ <;> rcases right with _ | ⟨b, m⟩
  · trivial
  · exact hx.elim
  · exact hx.elim
  · obtain ⟨rfl, rfl, hkeep⟩ := hx
    exact hf a s' hkeep

theorem outcome_some {g : ℕ} {temps : ℕ → Option (TempValue A V)} {s : CState M A V} (a : α)
    (h : ∀ k < g, s.temps k = temps k) : Outcome g temps (some (a, s)) (some (a, s.mem)) :=
  ⟨rfl, rfl, h⟩

theorem outcome_pick {g : ℕ} {temps : ℕ → Option (TempValue A V)} {s : CState M A V}
    (o : Option α) (h : ∀ k < g, s.temps k = temps k) :
    Outcome g temps (pick o s) (pick o s.mem) := by
  cases o with
  | none => trivial
  | some a => exact outcome_some a h

theorem does_lift (g : ℕ) (x : Effect M α) : Does (V := V) (A := A) g (lift x) x := by
  intro s
  change Outcome g s.temps ((x s.mem).map _) (x s.mem)
  rcases x s.mem with _ | ⟨a, m⟩
  · trivial
  · exact ⟨rfl, rfl, fun k _ ↦ rfl⟩

theorem does_pick (g : ℕ) (o : Option α) :
    Does (V := V) (A := A) (M := M) g (pick o) (pick o) := fun _ ↦ outcome_pick o fun _ _ ↦ rfl

theorem does_pure (g : ℕ) (a : α) : Does (V := V) (A := A) (M := M) g (pure a) (pure a) :=
  does_pick g (some a)

theorem Outcome.mono {g h : ℕ} {temps temps' : ℕ → Option (TempValue A V)}
    {x : Option (α × CState M A V)} {y : Option (α × M)} (hx : Outcome h temps' x y)
    (hgh : g ≤ h) (hkeep : ∀ k < g, temps' k = temps k) : Outcome g temps x y := by
  rcases x with _ | ⟨a, s⟩ <;> rcases y with _ | ⟨b, m⟩
  · trivial
  · exact hx.elim
  · exact hx.elim
  · exact ⟨hx.1, hx.2.1, fun k hk ↦ (hx.2.2 k (hk.trans_le hgh)).trans (hkeep k hk)⟩

theorem Does.mono {g h : ℕ} {x : Effect (CState M A V) α} {y : Effect M α} (hx : Does h x y)
    (hgh : g ≤ h) : Does g x y := fun s ↦ (hx s).mono hgh fun _ _ ↦ rfl

theorem Does.outcome {g : ℕ} {x : Effect (CState M A V) α} {y : Effect M α}
    {temps : ℕ → Option (TempValue A V)} {s : CState M A V} (hx : Does g x y)
    (hkeep : ∀ k < g, s.temps k = temps k) : Outcome g temps (x s) (y s.mem) :=
  (hx s).mono le_rfl hkeep

theorem Does.bind {g : ℕ} {x : Effect (CState M A V) α} {y : Effect M α}
    {f : α → Effect (CState M A V) β} {f' : α → Effect M β} (hx : Does g x y)
    (hf : ∀ a, Does g (f a) (f' a)) : Does g (x >>= f) (y >>= f') :=
  fun s ↦ outcome_bind (hx s) fun a s' hkeep ↦ (hf a s').mono le_rfl hkeep

/-! ## Temporaries -/

section Temporaries

variable {s : CState M A V} {k : ℕ}

theorem tempValue_apply {v : V} (h : s.temps k = some (.value v)) :
    tempValue k s = some (v, s) := by
  rw [tempValue, h]

theorem tempPlace_apply {a : A} (h : s.temps k = some (.place a)) :
    tempPlace k s = some (a, s) := by
  rw [tempPlace, h]

theorem tempValue_bind {v : V} {f : V → Effect (CState M A V) β}
    (h : s.temps k = some (.value v)) : (tempValue k >>= f) s = f v s := by
  rw [Effect.bind_apply, tempValue_apply h]
  rfl

theorem tempPlace_bind {a : A} {f : A → Effect (CState M A V) β}
    (h : s.temps k = some (.place a)) : (tempPlace k >>= f) s = f a s := by
  rw [Effect.bind_apply, tempPlace_apply h]
  rfl

end Temporaries

theorem pick_bind {σ : Type} (a : α) (f : α → Effect σ β) (s : σ) :
    (pick (some a) >>= f) s = f a s := rfl

theorem setTemp_bind {k : ℕ} {c : TempValue A V} {f : Unit → Effect (CState M A V) β}
    {s : CState M A V} :
    (setTemp k c >>= f) s = f () { s with temps := Function.update s.temps k (some c) } := rfl

/-- The lines and the text do what is meant, read as a value and read as a location, and use
the temporaries from `g` on. -/
structure Implements (g : ℕ) (L : Lowered M A V) (D : Meaning M A V) : Prop where
  le : g ≤ L.next
  value : Does g L.run D.value
  place : Does g (L.lines >>= fun _ ↦ L.place) D.place

namespace Implements

variable {g b : ℕ} {L : Lowered M A V} {D : Meaning M A V}
  {temps : ℕ → Option (TempValue A V)} {s : CState M A V}

/-- Setting a temporary keeps the ones below and holds what was set. -/
theorem outcome_setTemp {x : Effect (CState M A V) α} {y : Effect M α}
    {c : α → TempValue A V} {f : Effect (CState M A V) β} {f' : α → Effect M β} {k : ℕ}
    (hgk : g ≤ k) (hx : Outcome g s.temps (x s) (y s.mem))
    (hf : ∀ a s', (∀ j < g, s'.temps j = s.temps j) → s'.temps k = some (c a) →
      Outcome b temps (f s') (f' a s'.mem)) :
    Outcome b temps ((do let a ← x; setTemp k (c a); f) s) ((y >>= f') s.mem) := by
  apply outcome_bind hx
  intro a s' hkeep
  change Outcome b temps (f { s' with temps := Function.update s'.temps k (some (c a)) }) _
  apply hf a { s' with temps := Function.update s'.temps k (some (c a)) }
  · intro j hj
    rw [← hkeep j hj]
    exact Function.update_of_ne (by omega) _ _
  · exact Function.update_self _ _ _

/-- What comes behind the line of a `value` finds the value in its temporary. -/
theorem outcome_valueLines (h : Implements g L D) {f : Effect (CState M A V) β}
    {f' : V → Effect M β}
    (hf : ∀ v s', (∀ j < g, s'.temps j = s.temps j) → s'.temps L.next = some (.value v) →
      Outcome b temps (f s') (f' v s'.mem)) :
    Outcome b temps ((L.valueLines >>= fun _ ↦ f) s) ((D.value >>= f') s.mem) := by
  have hset := outcome_setTemp h.le (h.value s) hf
  simpa only [Lowered.valueLines, Lowered.run, bind_assoc] using hset

theorem outcome_placeLines (h : Implements g L D) {f : Effect (CState M A V) β}
    {f' : A → Effect M β}
    (hf : ∀ a s', (∀ j < g, s'.temps j = s.temps j) → s'.temps L.next = some (.place a) →
      Outcome b temps (f s') (f' a s'.mem)) :
    Outcome b temps ((L.placeLines >>= fun _ ↦ f) s) ((D.place >>= f') s.mem) := by
  have hset := outcome_setTemp h.le (h.place s) hf
  simpa only [Lowered.placeLines, bind_assoc] using hset

theorem ofText {lines : Effect (CState M A V) Unit} {text : Effect (CState M A V) V}
    {value : Effect M V} {next : ℕ} (hle : g ≤ next) (h : Does g (lines >>= fun _ ↦ text) value) :
    Implements g (.ofText next lines text) (.ofValue value) where
  le := hle
  value := h
  place := by
    intro s
    change Outcome g s.temps ((lines s).bind fun _ ↦ none) none
    rcases lines s with _ | r
    · trivial
    · trivial

theorem located {I : CMeaning M A V} {lines : Effect (CState M A V) Unit}
    {text : Effect (CState M A V) A} {place : Effect M A} {next : ℕ} (hle : g ≤ next)
    (h : Does g (lines >>= fun _ ↦ text) place) :
    Implements g (I.located next lines text) (I.locatedMeaning place) where
  le := hle
  value := by
    change Does g (lines >>= fun _ ↦ text >>= fun a ↦ lift (I.read a)) (place >>= I.read)
    rw [← bind_assoc]
    exact h.bind fun a ↦ does_lift g (I.read a)
  place := h

/-- Two operands in temporaries, one behind the other. -/
theorem outcome_operands {R : Lowered M A V} {E : Meaning M A V} (hL : Implements g L D)
    (hR : Implements (L.next + 1) R E) {f : Effect (CState M A V) β} {f' : V → V → Effect M β}
    (hf : ∀ v w s', s'.temps L.next = some (.value v) → s'.temps R.next = some (.value w) →
      (∀ j < g, s'.temps j = s.temps j) → Outcome g s.temps (f s') (f' v w s'.mem)) :
    Outcome g s.temps (((do L.valueLines; R.valueLines) >>= fun _ ↦ f) s)
      ((do let v ← D.value; let w ← E.value; f' v w) s.mem) := by
  rw [bind_assoc]
  apply hL.outcome_valueLines
  intro v s₁ hkeep₁ hv
  apply hR.outcome_valueLines
  intro w s₂ hkeep₂ hw
  have hle := hL.le
  apply hf v w s₂ ((hkeep₂ L.next (by omega)).trans hv) hw
  intro j hj
  exact (hkeep₂ j (by omega)).trans (hkeep₁ j hj)

theorem outcome_placeOperand {R : Lowered M A V} {E : Meaning M A V} (hL : Implements g L D)
    (hR : Implements (L.next + 1) R E) {f : Effect (CState M A V) β} {f' : A → V → Effect M β}
    (hf : ∀ a w s', s'.temps L.next = some (.place a) → s'.temps R.next = some (.value w) →
      (∀ j < g, s'.temps j = s.temps j) → Outcome g s.temps (f s') (f' a w s'.mem)) :
    Outcome g s.temps (((do L.placeLines; R.valueLines) >>= fun _ ↦ f) s)
      ((do let a ← D.place; let w ← E.value; f' a w) s.mem) := by
  rw [bind_assoc]
  apply hL.outcome_placeLines
  intro a s₁ hkeep₁ ha
  apply hR.outcome_valueLines
  intro w s₂ hkeep₂ hw
  have hle := hL.le
  apply hf a w s₂ ((hkeep₂ L.next (by omega)).trans ha) hw
  intro j hj
  exact (hkeep₂ j (by omega)).trans (hkeep₁ j hj)

end Implements

/-! ## The lowering of every expression -/

namespace CMeaning

variable (I : CMeaning M A V)

/-- A conversion of a text that is read without effects. -/
theorem convertText_tempValue (c : Conversion) {k : ℕ} {v : V} {s : CState M A V}
    (h : s.temps k = some (.value v)) :
    I.convertText c (tempValue k) s = pick (I.converted c v) s := by
  cases c with
  | none => exact tempValue_apply h
  | once target =>
    rw [convertText, tempValue_bind h]
    rfl
  | closure =>
    rw [convertText, converted, tempValue_bind h]
    cases I.part v "env" with
    | none => rfl
    | some env =>
    rw [pick_bind, tempValue_bind h]
    cases I.part v "invoke" with
    | none => rfl
    | some invoke =>
    rw [pick_bind, tempValue_bind h]
    cases I.part v "owned" with
    | none => rfl
    | some owned => rfl

theorem convertText_bind (c : Conversion) {k : ℕ} {v : V} {s : CState M A V}
    {f : V → Effect (CState M A V) β} (h : s.temps k = some (.value v)) :
    (I.convertText c (tempValue k) >>= f) s = (pick (I.converted c v) >>= f) s := by
  rw [Effect.bind_apply, I.convertText_tempValue c h, ← Effect.bind_apply]

mutual

/-- The lowered expression does what it means, using the temporaries from `g` on. -/
theorem expression_implements : ∀ (e : Expr) (g : ℕ),
    Implements g (I.expression e g) (I.meaning e)
  | .name x, g => by
      rw [expression, meaning]
      exact .located le_rfl (does_pure g _)
  | .literal t, g => by
      rw [expression, meaning]
      exact .ofText le_rfl (does_pure g _)
  | .call f args, g => by
      rw [expression, meaning]
      refine .ofText (argValues_le args g) fun s ↦ ?_
      apply argValues_outcome args g
      intro vs s' hkeep hvs
      rw [Effect.bind_apply, hvs]
      exact (does_lift g _).outcome hkeep
  | .made f args, g => by
      rw [expression, meaning]
      have hle := argValues_le args g
      refine .ofText (hle.trans (Nat.le_succ _)) fun s ↦ ?_
      rw [bind_assoc]
      apply argValues_outcome args g
      intro vs s' hkeep hvs
      rw [bind_assoc, Effect.bind_apply, hvs]
      rw [Option.bind_some, bind_assoc]
      nth_rewrite 2 [← bind_pure (I.call f vs)]
      apply outcome_bind (does_lift g (I.call f vs) s')
      intro v s₁ hkeep₁
      rw [setTemp_bind, tempValue_apply (Function.update_self _ _ _)]
      refine outcome_some v fun j hj ↦ ?_
      calc
        Function.update s₁.temps _ _ j = s₁.temps j := Function.update_of_ne (by omega) _ _
        _ = s.temps j := (hkeep₁ j hj).trans (hkeep j hj)
  | .getter a property, g => by
      have ha := expression_implements a g
      rw [expression, meaning]
      refine .ofText ha.le ?_
      rw [← bind_assoc]
      exact ha.place.bind fun p ↦ does_lift g _
  | .deref p, g => by
      have hp := expression_implements p g
      rw [expression, meaning]
      refine .located (hp.le.trans (Nat.le_succ _)) fun s ↦ ?_
      apply hp.outcome_valueLines
      intro v s' hkeep hv
      rw [tempValue_bind hv]
      exact outcome_pick _ hkeep
  | .addressOf a, g => by
      have ha := expression_implements a g
      rw [expression, meaning]
      refine .ofText ha.le ?_
      rw [← bind_assoc]
      exact ha.place.bind fun p ↦ does_pure g _
  | .step post op a, g => by
      have ha := expression_implements a g
      rw [expression, meaning]
      refine .ofText ha.le ?_
      rw [← bind_assoc]
      refine ha.place.bind fun p ↦ (does_lift g _).bind fun v ↦ (does_pick g _).bind fun w ↦ ?_
      exact (does_lift g _).bind fun _ ↦ does_pure g _
  | .unary op a, g => by
      have ha := expression_implements a g
      rw [expression, meaning]
      refine .ofText (ha.le.trans (Nat.le_succ _)) fun s ↦ ?_
      apply ha.outcome_valueLines
      intro v s' hkeep hv
      rw [tempValue_bind hv]
      exact outcome_pick _ hkeep
  | .binary op a b, g => by
      have ha := expression_implements a g
      have hb := expression_implements b ((I.expression a g).next + 1)
      rw [expression, meaning]
      refine .ofText (by have hle := ha.le; have hle' := hb.le; omega) fun s ↦ ?_
      apply ha.outcome_operands hb
      intro v w s' hv hw hkeep
      rw [tempValue_bind hv, tempValue_bind hw]
      exact outcome_pick _ hkeep
  | .logic or a b, g => by
      have ha := expression_implements a g
      have hb := expression_implements b ((I.expression a g).next + 2)
      rw [expression, meaning]
      refine .ofText (by have hle := ha.le; have hle' := hb.le; omega) fun s ↦ ?_
      have hle := ha.le
      rw [bind_assoc]
      apply ha.outcome_valueLines
      intro v s₁ hkeep₁ hv
      rw [bind_assoc, tempValue_bind hv, bind_assoc, setTemp_bind]
      have hkeep : ∀ (s' : CState M A V) (c : TempValue A V), (∀ j < g, s'.temps j = s.temps j) →
          ∀ j < g, Function.update s'.temps ((I.expression a g).next + 1) (some c) j =
            s.temps j := by
        intro s' c hs' j hj
        rw [Function.update_of_ne (by omega)]
        exact hs' j hj
      split
      · rw [pure_bind, tempValue_apply (Function.update_self _ _ _)]
        exact outcome_some _ (hkeep s₁ _ hkeep₁)
      · rw [bind_assoc]
        apply hb.outcome_valueLines
        intro w s₂ hkeep₂ hw
        rw [bind_assoc, tempValue_bind hw, setTemp_bind,
          tempValue_apply (Function.update_self _ _ _)]
        refine outcome_some _ (hkeep s₂ _ fun j hj ↦ ?_)
        exact (hkeep₂ j (by omega)).trans (hkeep s₁ _ hkeep₁ j hj)
  | .member a field, g => by
      have ha := expression_implements a g
      rw [expression, meaning]
      split
      · refine .located ha.le ?_
        rw [← bind_assoc]
        exact ha.place.bind fun p ↦ does_pure g _
      · refine .ofText ha.le ?_
        rw [← bind_assoc]
        exact ha.value.bind fun v ↦ does_pick g _
  | .arrow a field, g => by
      have ha := expression_implements a g
      rw [expression, meaning]
      refine .located ha.le ?_
      rw [← bind_assoc]
      exact ha.value.bind fun v ↦ (does_pick g _).bind fun p ↦ does_pure g _
  | .index a i, g => by
      have ha := expression_implements a g
      have hi := expression_implements i ((I.expression a g).next + 1)
      rw [expression, meaning]
      refine .located (by have hle := ha.le; have hle' := hi.le; omega) fun s ↦ ?_
      apply ha.outcome_operands hi
      intro v k s' hv hk hkeep
      rw [tempValue_bind hv, tempValue_bind hk]
      exact outcome_pick _ hkeep
  | .indexArray a i, g => by
      have ha := expression_implements a g
      have hi := expression_implements i ((I.expression a g).next + 1)
      rw [expression, meaning]
      refine .located (by have hle := ha.le; have hle' := hi.le; omega) fun s ↦ ?_
      apply ha.outcome_placeOperand hi
      intro p k s' hp hk hkeep
      rw [tempPlace_bind hp, tempValue_bind hk]
      exact outcome_pick _ hkeep
  | .assign conversion a b, g => by
      have ha := expression_implements a g
      have hb := expression_implements b ((I.expression a g).next + 1)
      rw [expression, meaning]
      refine .ofText (by have hle := ha.le; have hle' := hb.le; omega) fun s ↦ ?_
      apply ha.outcome_placeOperand hb
      intro p v s' hp hv hkeep
      rw [tempPlace_bind hp, I.convertText_bind conversion hv]
      refine Does.outcome ?_ hkeep
      refine (does_pick g _).bind fun w ↦ ?_
      exact (does_lift g _).bind fun _ ↦ does_pure g w
  | .compound op a b, g => by
      have ha := expression_implements a g
      have hb := expression_implements b ((I.expression a g).next + 1)
      rw [expression, meaning]
      refine .ofText (by have hle := ha.le; have hle' := hb.le; omega) fun s ↦ ?_
      apply ha.outcome_placeOperand hb
      intro p w s' hp hw hkeep
      rw [tempPlace_bind hp, tempValue_bind hw]
      refine Does.outcome ?_ hkeep
      refine (does_lift g _).bind fun v ↦ ?_
      exact (does_pick g _).bind fun r ↦ (does_lift g _).bind fun _ ↦ does_pure g r

theorem argValues_le : ∀ (args : List Expr) (g : ℕ), g ≤ (I.argValues args g).1
  | [], g => by
      rw [argValues]
  | a :: rest, g => by
      have ha := (expression_implements a g).le
      have hrest := argValues_le rest ((I.expression a g).next + 1)
      rw [argValues]
      exact (ha.trans (Nat.le_succ _)).trans hrest

/-- What comes behind the lines of the arguments finds the values in the temporaries. -/
theorem argValues_outcome : ∀ (args : List Expr) (g : ℕ) {b : ℕ}
    {temps : ℕ → Option (TempValue A V)} {s : CState M A V} {f : Effect (CState M A V) V}
    {f' : List V → Effect M V},
    (∀ vs s', (∀ j < g, s'.temps j = s.temps j) →
      (I.argValues args g).2.2.mapM tempValue s' = some (vs, s') →
      Outcome b temps (f s') (f' vs s'.mem)) →
    Outcome b temps (((I.argValues args g).2.1 >>= fun _ ↦ f) s)
      ((I.argMeaning args >>= f') s.mem)
  | [], g, b, temps, s, f, f', hf => by
      rw [argMeaning, argValues, pure_bind, pure_bind]
      exact hf [] s (fun _ _ ↦ rfl) (by rw [argValues]; rfl)
  | a :: rest, g, b, temps, s, f, f', hf => by
      have ha := expression_implements a g
      rw [argMeaning, argValues, bind_assoc, bind_assoc]
      apply ha.outcome_valueLines
      intro v s₁ hkeep₁ hv
      rw [bind_assoc]
      apply argValues_outcome rest ((I.expression a g).next + 1)
      intro vs s₂ hkeep₂ hvs
      have hle := ha.le
      rw [pure_bind]
      apply hf (v :: vs) s₂
      · intro j hj
        exact (hkeep₂ j (by omega)).trans (hkeep₁ j hj)
      · rw [argValues, List.mapM_cons, tempValue_bind ((hkeep₂ _ (Nat.lt_succ_self _)).trans hv),
          Effect.bind_apply, hvs]
        rfl

end

end CMeaning

end TinyCPlus.Compiler.Evaluation
