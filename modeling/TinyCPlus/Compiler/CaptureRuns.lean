import TinyCPlus.Compiler.Captures

/-!
# Environments at run time

The functions run in any order and as often as they like, so that every control flow is a run:
an activation executes the accesses of its code, creates lambdas, and calls lambdas whose
environment is live.  A history records what was assigned, without the emitted names.
-/

namespace TinyCPlus.Compiler.Captures

variable {V : Type}

/-! ## States -/

/-- `struct tc_env_<n>` with the function of the lambda. -/
structure Env (V : Type) where
  lambda : ℕ
  fields : List Sym
  value : Sym → V
  body : Code

/-- A call in progress: the variables of the C function, the frame of an async function and the
environment of a lambda. -/
structure Activation (V : Type) where
  fn : Option ℕ
  async : Bool
  env : Option ℕ
  locals : Sym → V
  frame : Sym → V
  code : Code

structure State (V : Type) where
  acts : ℕ → Option (Activation V)
  envs : ℕ → Option (Env V)
  next : ℕ
  globals : Sym → V

namespace State

def setAct (σ : State V) (a : ℕ) (A : Activation V) : State V :=
  { σ with acts := Function.update σ.acts a (some A) }

def setEnv (σ : State V) (e : ℕ) (E : Env V) : State V :=
  { σ with envs := Function.update σ.envs e (some E) }

/-- The value of a C variable; none where the name is not declared or the environment is dead. -/
def load (σ : State V) (A : Activation V) : Cname → Option V
  | .plain s =>
      if s.function = none then some (σ.globals s)
      else if s.function = A.fn then some (A.locals s)
      else none
  | .frame s => if A.async ∧ s.function = A.fn then some (A.frame s) else none
  | .capture s => do
      let e ← A.env
      let E ← σ.envs e
      if s ∈ E.fields then some (E.value s) else none

/-- An assignment in the activation `a`. -/
def store (σ : State V) (a : ℕ) (A : Activation V) (c : Cname) (v : V) : Option (State V) :=
  match c with
  | .plain s =>
      if s.function = none then some { σ with globals := Function.update σ.globals s v }
      else if s.function = A.fn then
        some (σ.setAct a { A with locals := Function.update A.locals s v })
      else none
  | .frame s =>
      if A.async ∧ s.function = A.fn then
        some (σ.setAct a { A with frame := Function.update A.frame s v })
      else none
  | .capture s => do
      let e ← A.env
      let E ← σ.envs e
      if s ∈ E.fields then
        some (σ.setEnv e { E with value := Function.update E.value s v })
      else none

end State

/-! ## Runs -/

/-- The accesses and lambdas of a function itself. -/
def Code.ops : Code → List Code
  | skip => []
  | seq a b => a.ops ++ b.ops
  | op => [op]

inductive Event (V : Type) where
  | start (a : ℕ) (F : Function) (values : Sym → V)
  | call (a e : ℕ) (values : Sym → V)
  | write (a : ℕ) (s : Sym) (v : V)
  | create (a e : ℕ)
  /-- The scope with the environment is left. -/
  | leave (e : ℕ)

inductive Step : State V → Event V → State V → Prop where
  | start {σ : State V} {a : ℕ} {F : Function} {values : Sym → V} {code : Code}
      (hfree : σ.acts a = none) (hcode : F.code = some code) :
      Step σ (.start a F values) (σ.setAct a ⟨F.id, F.async, none, values, values, code⟩)
  | call {σ : State V} {a e : ℕ} {values : Sym → V} {E : Env V}
      (hfree : σ.acts a = none) (henv : σ.envs e = some E) :
      Step σ (.call a e values) (σ.setAct a ⟨some E.lambda, false, some e, values, values, E.body⟩)
  | write {σ σ' : State V} {a : ℕ} {A : Activation V} {s : Sym} {c : Cname} {v : V}
      (hact : σ.acts a = some A) (hop : .write s c ∈ A.code.ops)
      (hstore : σ.store a A c v = some σ') :
      Step σ (.write a s v) σ'
  | create {σ : State V} {a n : ℕ} {A : Activation V} {fields : List (Sym × Cname)}
      {body : Code} {value : Sym → V} (hact : σ.acts a = some A)
      (hop : .create n fields body ∈ A.code.ops)
      (hvalue : ∀ f ∈ fields, σ.load A f.2 = some (value f.1)) :
      Step σ (.create a σ.next)
        { σ.setEnv σ.next ⟨n, fields.map Prod.fst, value, body⟩ with next := σ.next + 1 }
  | leave {σ : State V} {e : ℕ} :
      Step σ (.leave e) { σ with envs := Function.update σ.envs e none }

/-! ## Histories -/

/-- What happened to the variables: `value` in the activations of their functions; for the lambda
with the environment `e`, `snapshot` at the creation of the outermost lambda, whether the lambda
itself assigned the variable, and whether one of the lambdas that passed it inward did before. -/
structure History (V : Type) where
  value : ℕ → Sym → V
  snapshot : ℕ → Sym → V
  itself : ℕ → Sym → Prop
  passed : ℕ → Sym → Prop

namespace History

/-- An assignment in the activation `a`. -/
def write (H : History V) (a : ℕ) (A : Activation V) (s : Sym) (v : V) : History V :=
  if s.function = A.fn then
    { H with value := Function.update H.value a (Function.update (H.value a) s v) }
  else
    match A.env with
    | none => H
    | some e => { H with itself := Function.update H.itself e fun t ↦ H.itself e t ∨ t = s }

/-- A lambda takes over the variables of the function that creates it and what this one captured
itself. -/
def create (H : History V) (a : ℕ) (A : Activation V) (e : ℕ) : History V :=
  { H with
    snapshot := Function.update H.snapshot e fun s ↦
      if s.function = A.fn then H.value a s else
      match A.env with
      | none => H.value a s
      | some outer => H.snapshot outer s
    itself := Function.update H.itself e fun _ ↦ False
    passed := Function.update H.passed e fun s ↦
      s.function ≠ A.fn ∧ ∃ outer ∈ A.env, H.itself outer s ∨ H.passed outer s }

def after (σ : State V) (H : History V) : Event V → History V
  | .start a _ values => { H with value := Function.update H.value a values }
  | .call a _ values => { H with value := Function.update H.value a values }
  | .write a s v => (σ.acts a).elim H fun A ↦ H.write a A s v
  | .create a e => (σ.acts a).elim H fun A ↦ H.create a A e
  | .leave _ => H

end History

/-- The states that are reached, with their histories. -/
inductive Reached : State V → History V → Prop where
  | init (globals : Sym → V) (H : History V) :
      Reached ⟨fun _ ↦ none, fun _ ↦ none, 0, globals⟩ H
  | step {σ σ' : State V} {H : History V} {event : Event V} (h : Reached σ H)
      (hstep : Step σ event σ') : Reached σ' (H.after σ event)

/-! ## The invariant -/

/-- An activation and the history: its own variables, and code for its environment. -/
structure Activation.Fits (σ : State V) (H : History V) (a : ℕ) (A : Activation V) : Prop where
  own : ∀ s, s.function ≠ none → s.function = A.fn →
    (if A.async then A.frame s else A.locals s) = H.value a s
  placed : ∃ args, A.code.Placed A.fn A.async args ∧ (A.env = none → args = []) ∧
    ∀ e ∈ A.env, e < σ.next ∧ ∀ E, σ.envs e = some E → E.fields = args

structure Env.Fits (σ : State V) (H : History V) (e : ℕ) (E : Env V) : Prop where
  lt : e < σ.next
  placed : E.body.Placed (some E.lambda) false E.fields
  value : ∀ s ∈ E.fields, ¬H.itself e s → ¬H.passed e s → E.value s = H.snapshot e s

structure Invariant (σ : State V) (H : History V) : Prop where
  acts : ∀ a A, σ.acts a = some A → A.Fits σ H a
  envs : ∀ e E, σ.envs e = some E → E.Fits σ H e

theorem Code.Placed.of_mem {fn : Option ℕ} {async : Bool} {args : List Sym} {code op : Code}
    (h : code.Placed fn async args) (hop : op ∈ code.ops) : op.Placed fn async args := by
  induction code with
  | skip => cases hop
  | seq a b iha ihb =>
    rcases List.mem_append.mp hop with hop | hop
    · exact iha h.1 hop
    · exact ihb h.2 hop
  | read s c => exact List.mem_singleton.mp hop ▸ h
  | write s c => exact List.mem_singleton.mp hop ▸ h
  | create n fields body => exact List.mem_singleton.mp hop ▸ h

namespace Right

variable {fn : Option ℕ} {async : Bool} {args : List Sym} {s : Sym} {c : Cname}

theorem eq_plain (h : Right fn async args s c) (h0 : s.function = none) : c = .plain s := by
  rwa [Right, if_pos h0] at h

theorem eq_own (h : Right fn async args s c) (h0 : s.function ≠ none) (hfn : s.function = fn) :
    c = if async then .frame s else .plain s := by
  rwa [Right, if_neg h0, if_pos hfn] at h

theorem eq_capture (h : Right fn async args s c) (h0 : s.function ≠ none)
    (hfn : s.function ≠ fn) : c = .capture s ∧ s ∈ args := by
  rwa [Right, if_neg h0, if_neg hfn] at h

end Right

/-- A variable of the function itself holds what was assigned last. -/
theorem Activation.Fits.load_own {σ : State V} {H : History V} {a : ℕ} {A : Activation V}
    {args : List Sym} {s : Sym} {c : Cname} (h : A.Fits σ H a)
    (hc : Right A.fn A.async args s c) (h0 : s.function ≠ none) (hfn : s.function = A.fn) :
    σ.load A c = some (H.value a s) := by
  have hown := h.own s h0 hfn
  rw [hc.eq_own h0 hfn]
  split_ifs with hasync
  · rw [if_pos hasync] at hown
    rw [State.load, if_pos ⟨hasync, hfn⟩, hown]
  · rw [if_neg hasync] at hown
    rw [State.load, if_neg h0, if_pos hfn, hown]

theorem State.load_capture {σ : State V} {A : Activation V} {e : ℕ} {E : Env V} {s : Sym}
    (henv : A.env = some e) (hE : σ.envs e = some E) (hs : s ∈ E.fields) :
    σ.load A (.capture s) = some (E.value s) := by
  simp [State.load, henv, hE, hs]

theorem State.exists_of_load_capture {σ : State V} {A : Activation V} {s : Sym} {v : V}
    (h : σ.load A (.capture s) = some v) :
    ∃ e E, A.env = some e ∧ σ.envs e = some E ∧ s ∈ E.fields ∧ E.value s = v := by
  simp only [State.load, Option.bind_eq_bind, Option.bind_eq_some_iff] at h
  obtain ⟨e, henv, E, hE, h⟩ := h
  split_ifs at h with hs
  exact ⟨e, E, henv, hE, hs, Option.some.inj h⟩

/-! ### Steps that touch one part of the state -/

theorem Invariant.setAct {σ : State V} {H H' : History V} (h : Invariant σ H) {a : ℕ}
    {A : Activation V} (hvalue : ∀ b, b ≠ a → H'.value b = H.value b)
    (hitself : H'.itself = H.itself) (hpassed : H'.passed = H.passed)
    (hsnapshot : H'.snapshot = H.snapshot) (hA : A.Fits (σ.setAct a A) H' a) :
    Invariant (σ.setAct a A) H' := by
  constructor
  · intro b B hB
    by_cases hb : b = a
    · subst hb
      obtain rfl : A = B := by simpa [State.setAct] using hB
      exact hA
    · have hB' : σ.acts b = some B := by simpa [State.setAct, hb] using hB
      obtain ⟨hown, hplaced⟩ := h.acts b B hB'
      exact ⟨by rw [hvalue b hb]; exact hown, hplaced⟩
  · intro e E hE
    obtain ⟨hlt, hplaced, hval⟩ := h.envs e E hE
    exact ⟨hlt, hplaced, by rw [hitself, hpassed, hsnapshot]; exact hval⟩

theorem Invariant.start {σ : State V} {H : History V} (h : Invariant σ H) {a : ℕ} {F : Function}
    {code : Code} (hcode : F.code = some code) (values : Sym → V) :
    Invariant (σ.setAct a ⟨F.id, F.async, none, values, values, code⟩)
      { H with value := Function.update H.value a values } := by
  refine h.setAct (fun b hb ↦ Function.update_of_ne hb _ _) rfl rfl rfl ⟨?_, [], ?_⟩
  · intro s _ _
    simp
  · exact ⟨F.placed hcode, fun _ ↦ rfl, fun e he ↦ by cases he⟩

theorem Invariant.call {σ : State V} {H : History V} (h : Invariant σ H) {a e : ℕ} {E : Env V}
    (hE : σ.envs e = some E) (values : Sym → V) :
    Invariant (σ.setAct a ⟨some E.lambda, false, some e, values, values, E.body⟩)
      { H with value := Function.update H.value a values } := by
  refine h.setAct (fun b hb ↦ Function.update_of_ne hb _ _) rfl rfl rfl ⟨?_, E.fields, ?_⟩
  · intro s _ _
    simp
  · refine ⟨(h.envs e E hE).placed, fun hnone ↦ absurd hnone (Option.some_ne_none e),
      fun e' he' ↦ ?_⟩
    obtain rfl : e = e' := Option.mem_some_iff.mp he'
    refine ⟨(h.envs e E hE).lt, fun E' hE' ↦ ?_⟩
    rw [Option.some.inj (hE'.symm.trans hE)]

theorem Invariant.leave {σ : State V} {H : History V} (h : Invariant σ H) (e : ℕ) :
    Invariant { σ with envs := Function.update σ.envs e none } H := by
  have hkept : ∀ e' E, Function.update σ.envs e none e' = some E → σ.envs e' = some E := by
    intro e' E hE
    by_cases he : e' = e
    · simp [he] at hE
    · rwa [Function.update_of_ne he] at hE
  constructor
  · intro a A hA
    obtain ⟨hown, args, hplaced, hnone, henv⟩ := h.acts a A hA
    exact ⟨hown, args, hplaced, hnone, fun e' he' ↦
      ⟨(henv e' he').1, fun E hE ↦ (henv e' he').2 E (hkept e' E hE)⟩⟩
  · intro e' E hE
    obtain ⟨hlt, hplaced, hval⟩ := h.envs e' E (hkept e' E hE)
    exact ⟨hlt, hplaced, hval⟩

theorem Invariant.create {σ : State V} {H : History V} (h : Invariant σ H) {a n : ℕ}
    {A : Activation V} {fields : List (Sym × Cname)} {body : Code} {value : Sym → V}
    (hact : σ.acts a = some A) (hop : .create n fields body ∈ A.code.ops)
    (hvalue : ∀ f ∈ fields, σ.load A f.2 = some (value f.1)) :
    Invariant { σ.setEnv σ.next ⟨n, fields.map Prod.fst, value, body⟩ with next := σ.next + 1 }
      (H.create a A σ.next) := by
  have hA := h.acts a A hact
  obtain ⟨args, hplaced, hnone, henv⟩ := hA.placed
  obtain ⟨hfields, hbody⟩ := hplaced.of_mem hop
  have hne : ∀ e, e < σ.next → e ≠ σ.next := fun e he ↦ Nat.ne_of_lt he
  constructor
  · intro b B hB
    obtain ⟨hown, args', hplaced', hnone', henv'⟩ := h.acts b B hB
    refine ⟨hown, args', hplaced', hnone', fun e he ↦ ?_⟩
    refine ⟨Nat.lt_succ_of_lt (henv' e he).1, fun E hE ↦ (henv' e he).2 E ?_⟩
    simpa [State.setEnv, hne e (henv' e he).1] using hE
  · intro e E hE
    by_cases he : e = σ.next
    · subst he
      obtain rfl : _ = E := by simpa [State.setEnv] using hE
      refine ⟨Nat.lt_succ_self _, hbody, fun s hs _ hpassed ↦ ?_⟩
      obtain ⟨⟨s, c⟩, hf, rfl⟩ := List.mem_map.mp hs
      obtain ⟨⟨h0, -, -⟩, hright⟩ := hfields ⟨s, c⟩ hf
      have hload := hvalue ⟨s, c⟩ hf
      simp only [History.create, Function.update_self] at hpassed ⊢
      by_cases hfn : s.function = A.fn
      · rw [if_pos hfn]
        exact Option.some.inj (hload.symm.trans (hA.load_own hright h0 hfn))
      · rw [if_neg hfn]
        obtain ⟨hc, -⟩ : c = .capture s ∧ s ∈ args := hright.eq_capture h0 hfn
        subst hc
        obtain ⟨outer, E, houter, hE', hs', hv⟩ := State.exists_of_load_capture hload
        rw [houter, ← hv]
        exact (h.envs outer E hE').value s hs'
          (fun hi ↦ hpassed ⟨hfn, outer, houter, Or.inl hi⟩)
          (fun hp ↦ hpassed ⟨hfn, outer, houter, Or.inr hp⟩)
    · have hE' : σ.envs e = some E := by simpa [State.setEnv, he] using hE
      obtain ⟨hlt, hplaced', hval⟩ := h.envs e E hE'
      refine ⟨Nat.lt_succ_of_lt hlt, hplaced', fun s hs hitself hpassed ↦ ?_⟩
      simp only [History.create, Function.update_of_ne he] at hitself hpassed ⊢
      exact hval s hs hitself hpassed

/-- An assignment to a variable of the function itself. -/
theorem Invariant.write_own {σ : State V} {H : History V} (h : Invariant σ H) {a : ℕ}
    {A A' : Activation V} {s : Sym} {v : V} (hact : σ.acts a = some A)
    (hcode : A'.fn = A.fn ∧ A'.async = A.async ∧ A'.env = A.env ∧ A'.code = A.code)
    (hvalue : ∀ t, (if A.async then A'.frame t else A'.locals t) =
      if t = s then v else if A.async then A.frame t else A.locals t) (hfn : s.function = A.fn) :
    Invariant (σ.setAct a A') (H.write a A s v) := by
  obtain ⟨hown, args, hplaced, hnone, henv⟩ := h.acts a A hact
  obtain ⟨hf, has, hen, hco⟩ := hcode
  have hH : H.write a A s v =
      { H with value := Function.update H.value a (Function.update (H.value a) s v) } := if_pos hfn
  rw [hH]
  refine h.setAct (fun b hb ↦ Function.update_of_ne hb _ _) rfl rfl rfl ⟨fun t h0 ht ↦ ?_, args, ?_⟩
  · simp only [Function.update_self, Function.update_apply]
    rw [has, hvalue t]
    split_ifs with hts hasync
    · rfl
    · exact (if_pos hasync).symm.trans (hown t h0 (ht.trans hf))
    · exact (if_neg hasync).symm.trans (hown t h0 (ht.trans hf))
  · rw [hf, has, hen, hco]
    exact ⟨hplaced, hnone, henv⟩

/-- An assignment to a captured variable. -/
theorem Invariant.write_captured {σ : State V} {H : History V} (h : Invariant σ H) {a e : ℕ}
    {A : Activation V} {E : Env V} {s : Sym} {v : V} (henv : A.env = some e)
    (hE : σ.envs e = some E) (hfn : s.function ≠ A.fn) :
    Invariant (σ.setEnv e { E with value := Function.update E.value s v }) (H.write a A s v) := by
  have hH : H.write a A s v =
      { H with itself := Function.update H.itself e fun t ↦ H.itself e t ∨ t = s } := by
    rw [History.write, if_neg hfn, henv]
  rw [hH]
  constructor
  · intro b B hB
    obtain ⟨hown, args, hplaced, hnone, hlive⟩ := h.acts b B hB
    refine ⟨hown, args, hplaced, hnone, fun e' he' ↦ ⟨(hlive e' he').1, fun E' hE' ↦ ?_⟩⟩
    by_cases heq : e' = e
    · subst heq
      obtain rfl : _ = E' := by simpa [State.setEnv] using hE'
      exact (hlive e' he').2 E hE
    · exact (hlive e' he').2 E' (by simpa [State.setEnv, heq] using hE')
  · intro e' E' hE'
    by_cases heq : e' = e
    · subst heq
      obtain rfl : _ = E' := by simpa [State.setEnv] using hE'
      obtain ⟨hlt, hplaced, hval⟩ := h.envs e' E hE
      refine ⟨hlt, hplaced, fun t ht hitself hpassed ↦ ?_⟩
      simp only [Function.update_self, not_or] at hitself
      simp only [Function.update_of_ne hitself.2]
      exact hval t ht hitself.1 hpassed
    · obtain ⟨hlt, hplaced, hval⟩ := h.envs e' E' (by simpa [State.setEnv, heq] using hE')
      refine ⟨hlt, hplaced, fun t ht hitself hpassed ↦ hval t ht ?_ hpassed⟩
      simpa only [Function.update_of_ne heq] using hitself

theorem History.snapshot_write (H : History V) (a : ℕ) (A : Activation V) (s : Sym) (v : V) :
    (H.write a A s v).snapshot = H.snapshot := by
  unfold History.write
  split_ifs
  · rfl
  · split <;> rfl

/-- An assignment to a global. -/
theorem Invariant.write_global {σ : State V} {H : History V} (h : Invariant σ H) (a : ℕ)
    {A : Activation V} {s : Sym} (v : V) (h0 : s.function = none) :
    Invariant { σ with globals := Function.update σ.globals s v } (H.write a A s v) := by
  have hvalue : ∀ b t, t.function ≠ none → (H.write a A s v).value b t = H.value b t := by
    intro b t ht
    have hts : t ≠ s := fun e ↦ ht (e ▸ h0)
    unfold History.write
    split_ifs
    · by_cases hb : b = a
      · simp [hb, hts]
      · simp [hb]
    · split <;> rfl
  have hitself : ∀ e t, ¬(H.write a A s v).itself e t → ¬H.itself e t := by
    intro e t
    unfold History.write
    split_ifs
    · exact id
    · split
      · exact id
      · rename_i e' _
        by_cases he : e = e'
        · subst he
          simp only [Function.update_self, not_or]
          exact And.left
        · simp [he]
  have hpassed : (H.write a A s v).passed = H.passed := by
    unfold History.write
    split_ifs
    · rfl
    · split <;> rfl
  constructor
  · intro b B hB
    obtain ⟨hown, hplaced⟩ := h.acts b B hB
    exact ⟨fun t ht hfn ↦ (hown t ht hfn).trans (hvalue b t ht).symm, hplaced⟩
  · intro e E hE
    obtain ⟨hlt, hplaced, hval⟩ := h.envs e E hE
    refine ⟨hlt, hplaced, fun t ht hi hp ↦ ?_⟩
    rw [H.snapshot_write]
    exact hval t ht (hitself e t hi) (hpassed ▸ hp)

theorem Invariant.write {σ σ' : State V} {H : History V} (h : Invariant σ H) {a : ℕ}
    {A : Activation V} {s : Sym} {c : Cname} {v : V} (hact : σ.acts a = some A)
    (hop : .write s c ∈ A.code.ops) (hstore : σ.store a A c v = some σ') :
    Invariant σ' (H.write a A s v) := by
  obtain ⟨-, args, hplaced, -⟩ := h.acts a A hact
  have hright : Right A.fn A.async args s c := hplaced.of_mem hop
  by_cases h0 : s.function = none
  · rw [hright.eq_plain h0, State.store, if_pos h0] at hstore
    exact Option.some.inj hstore ▸ h.write_global a v h0
  by_cases hfn : s.function = A.fn
  · rw [hright.eq_own h0 hfn] at hstore
    cases hasync : A.async with
    | true =>
      rw [hasync, if_pos rfl, State.store, if_pos ⟨hasync, hfn⟩] at hstore
      refine Option.some.inj hstore ▸ h.write_own hact ⟨rfl, rfl, rfl, rfl⟩ (fun t ↦ ?_) hfn
      simp [hasync, Function.update_apply]
    | false =>
      rw [hasync, if_neg Bool.false_ne_true, State.store, if_neg h0, if_pos hfn] at hstore
      refine Option.some.inj hstore ▸ h.write_own hact ⟨rfl, rfl, rfl, rfl⟩ (fun t ↦ ?_) hfn
      simp [hasync, Function.update_apply]
  · obtain ⟨rfl, -⟩ := hright.eq_capture h0 hfn
    simp only [State.store, Option.bind_eq_bind, Option.bind_eq_some_iff] at hstore
    obtain ⟨e, henv, E, hE, hstore⟩ := hstore
    split_ifs at hstore with hs
    exact Option.some.inj hstore ▸ h.write_captured henv hE hfn

theorem Invariant.step {σ σ' : State V} {H : History V} {event : Event V} (h : Invariant σ H)
    (hstep : Step σ event σ') : Invariant σ' (H.after σ event) := by
  cases hstep with
  | start _ hcode => exact h.start hcode _
  | call _ henv => exact h.call henv _
  | write hact hop hstore =>
    simp only [History.after, hact, Option.elim_some]
    exact h.write hact hop hstore
  | create hact hop hvalue =>
    simp only [History.after, hact, Option.elim_some]
    exact h.create hact hop hvalue
  | leave => exact h.leave _

theorem Reached.invariant {σ : State V} {H : History V} (h : Reached σ H) : Invariant σ H := by
  induction h with
  | init globals H =>
    constructor
    · intro a A hA
      cases hA
    · intro e E hE
      cases hE
  | step _ hstep ih => exact ih.step hstep

/-! ## Reading a captured variable -/

/-- Later steps leave the snapshot of a lambda as it is. -/
theorem snapshot_after (σ : State V) (H : History V) (event : Event V) {e : ℕ}
    (he : ∀ a, event ≠ .create a e) : (H.after σ event).snapshot e = H.snapshot e := by
  cases event with
  | start a F values => rfl
  | call a e' values => rfl
  | leave e' => rfl
  | write a s v =>
    simp only [History.after]
    cases σ.acts a with
    | none => rfl
    | some A => exact congrFun (H.snapshot_write a A s v) e
  | create a e' =>
    simp only [History.after]
    cases σ.acts a with
    | none => rfl
    | some A =>
      have hne : e ≠ e' := fun h ↦ he a (h ▸ rfl)
      simp [History.create, hne]

/-- A step leaves the snapshots of the lambdas as they are that exist before it. -/
theorem Step.snapshot {σ σ' : State V} {event : Event V} (h : Step σ event σ') (H : History V)
    {e : ℕ} (he : e < σ.next) : (H.after σ event).snapshot e = H.snapshot e := by
  refine snapshot_after σ H event fun a hevent ↦ ?_
  subst hevent
  cases h
  exact Nat.lt_irrefl _ he

namespace Nested

/-- `int x = 1; (() => { x = 5; return () => x; })` -/
def function : Function where
  id := some 0
  async := false
  params := []
  body := .seq (.var ⟨1, "x"⟩ .skip)
    (.lambda 2 [] [] (.seq (.assign ⟨3, "x"⟩ .skip) (.lambda 4 [] [] (.id ⟨5, "x"⟩))))
  distinct := by decide
  numbered := by decide

def x : Sym := ⟨1, "x", some 0⟩

def inner : Code := .read x (.capture x)

def outer : Code := .seq (.seq .skip (.write x (.capture x))) (.create 4 [(x, .capture x)] inner)

theorem function_code : function.code =
    some (.seq (.seq .skip (.write x (.plain x))) (.create 2 [(x, .plain x)] outer)) := rfl

/-- The call of the outer lambda. -/
theorem reached_outer : ∃ (σ : State ℕ) (H : History ℕ), Reached σ H ∧ σ.next = 1 ∧
    σ.acts 2 = none ∧ σ.acts 1 = some ⟨some 2, false, some 0, fun _ ↦ 1, fun _ ↦ 1, outer⟩ ∧
    σ.envs 0 = some ⟨2, [x], fun _ ↦ 1, outer⟩ ∧ H.snapshot 0 x = 1 ∧ ¬H.itself 0 x ∧
    ¬H.passed 0 x := by
  have h₀ : Reached ⟨fun _ ↦ none, fun _ ↦ none, 0, fun _ ↦ 0⟩
    ⟨fun _ _ ↦ 0, fun _ _ ↦ 0, fun _ _ ↦ False, fun _ _ ↦ False⟩ := .init _ _
  have h₁ := h₀.step (@Step.start _ _ 0 _ (fun _ ↦ 1) _ rfl function_code)
  have h₂ := h₁.step (@Step.create _ _ 0 2 _ _ _ (fun _ ↦ 1) rfl
    (List.mem_cons_of_mem _ List.mem_cons_self) (by simp [State.load]; rfl))
  have h₃ := h₂.step (@Step.call _ _ 1 0 (fun _ ↦ 1) _ rfl rfl)
  exact ⟨_, _, h₃, rfl, rfl, rfl, rfl, rfl, id, fun h ↦ h.1 rfl⟩

/-- The call of the inner lambda, where the outer one may have assigned `x`. -/
theorem reached_inner {σ : State ℕ} {H : History ℕ} (h : Reached σ H) (value : Sym → ℕ)
    (hnext : σ.next = 1) (hfree : σ.acts 2 = none)
    (hact : σ.acts 1 = some ⟨some 2, false, some 0, fun _ ↦ 1, fun _ ↦ 1, outer⟩)
    (henv : σ.envs 0 = some ⟨2, [x], value, outer⟩) :
    ∃ (σ' : State ℕ) (H' : History ℕ), Reached σ' H' ∧
      σ'.acts 2 = some ⟨some 4, false, some 1, fun _ ↦ 1, fun _ ↦ 1, inner⟩ ∧
      σ'.envs 1 = some ⟨4, [x], value, inner⟩ ∧ H'.snapshot 1 x = H.snapshot 0 x ∧
      ¬H'.itself 1 x ∧ (H'.passed 1 x ↔ H.itself 0 x ∨ H.passed 0 x) := by
  have h₁ := h.step (@Step.create _ _ 1 4 _ _ _ value hact
    (List.mem_cons_of_mem _ List.mem_cons_self) (by simp [State.load, henv]))
  rw [hnext] at h₁
  have h₂ := h₁.step (@Step.call _ _ 2 1 (fun _ ↦ 1) _ hfree rfl)
  refine ⟨_, _, h₂, rfl, rfl, ?_, ?_, ?_⟩
  · simp [History.after, hact, History.create, x]
  · simp [History.after, hact, History.create]
  · simp [History.after, hact, History.create, x]

end Nested

end TinyCPlus.Compiler.Captures
