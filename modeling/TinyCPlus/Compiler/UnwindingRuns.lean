import TinyCPlus.Compiler.Unwinding

/-!
# Exits run what is registered

The code of a statement does what the statement does.  Where the statement leaves its scope, the
code runs what the scopes around it would run up to the target, and jumps there.
-/

namespace TinyCPlus.Compiler.Unwinding

variable {E σ ν : Type} {M : Meaning E σ ν} {fuel : ℕ}

/-! ## Lines -/

section Lines

variable {env : ℕ → Option ν} {rest : List (Code E)}

/-- What the rest of a block does behind a line. -/
def follow (M : Meaning E σ ν) (fuel : ℕ) (env : ℕ → Option ν) (rest : List (Code E)) :
    CExit ν → Effect σ (CExit ν)
  | .normal => Code.runAll M fuel env none rest
  | .jump l => Code.runAll M fuel env (some l) rest
  | o => pure o

/-- No line is a label. -/
def Plain (code : List (Code E)) : Prop := ∀ c ∈ code, ∀ l, c ≠ .label l

section Equations

attribute [local simp] Code.run Code.runAll

@[simp] theorem runAll_nil : Code.runAll M fuel env none [] = pure .normal := rfl

@[simp] theorem runAll_label (l : Label) :
    Code.runAll M fuel env none (.label l :: rest) = Code.runAll M fuel env none rest := by
  simp

@[simp] theorem runAll_save (n : ℕ) (a : E) :
    Code.runAll M fuel env none (.save n a :: rest) =
      M.eval a >>= fun v ↦ Code.runAll M fuel (Function.update env n (some v)) none rest := by
  simp

end Equations

theorem runAll_cons {c : Code E} (hlabel : ∀ l, c ≠ .label l) (hsave : ∀ n a, c ≠ .save n a) :
    Code.runAll M fuel env none (c :: rest) = c.run M fuel env >>= follow M fuel env rest := by
  rw [Code.runAll]
  · refine bind_congr fun o ↦ ?_
    cases o <;> rfl
  · exact hlabel
  · exact hsave

section Steps

variable (n : ℕ) (a : E)

theorem runAll_eval : Code.runAll M fuel env none (.eval a :: rest)
    = M.eval a >>= fun _ ↦ Code.runAll M fuel env none rest := by
  refine (runAll_cons (by nofun) (by nofun)).trans ?_
  simp [Code.run, follow]

theorem runAll_define (locals : List Local) (a : Option E) :
    Code.runAll M fuel env none (.define locals a :: rest)
      = M.evalOption a >>= fun v ↦ M.define locals v >>= fun _ ↦
        Code.runAll M fuel env none rest := by
  refine (runAll_cons (by nofun) (by nofun)).trans ?_
  simp [Code.run, follow]

theorem runAll_drop (l : Local) : Code.runAll M fuel env none (.drop l :: rest)
    = M.drop l >>= fun _ ↦ Code.runAll M fuel env none rest := by
  refine (runAll_cons (by nofun) (by nofun)).trans ?_
  simp [Code.run, follow]

theorem runAll_delete : Code.runAll M fuel env none (.delete n :: rest)
    = read env n >>= fun v ↦ M.delete v >>= fun _ ↦ Code.runAll M fuel env none rest := by
  refine (runAll_cons (by nofun) (by nofun)).trans ?_
  simp [Code.run, follow]

theorem runAll_start : Code.runAll M fuel env none (.start n :: rest)
    = read env n >>= fun v ↦ M.start v >>= fun _ ↦ Code.runAll M fuel env none rest := by
  refine (runAll_cons (by nofun) (by nofun)).trans ?_
  simp [Code.run, follow]

theorem runAll_advance : Code.runAll M fuel env none (.advance n :: rest)
    = read env n >>= fun v ↦ M.advance v >>= fun _ ↦ Code.runAll M fuel env none rest := by
  refine (runAll_cons (by nofun) (by nofun)).trans ?_
  simp [Code.run, follow]

theorem runAll_next : Code.runAll M fuel env none (.next n :: rest)
    = read env n >>= fun v ↦ M.next v >>= fun more ↦
      if more then Code.runAll M fuel env none rest else pure .brk := by
  refine (runAll_cons (by nofun) (by nofun)).trans ?_
  simp only [Code.run, bind_assoc]
  refine bind_congr fun v ↦ bind_congr fun more ↦ ?_
  cases more <;> simp [follow]

theorem runAll_cond (t : Test E) (a b : List (Code E)) :
    Code.runAll M fuel env none (.cond t a b :: rest)
      = t.eval M env >>= fun holds ↦
        (if holds then Code.runAll M fuel env none a else Code.runAll M fuel env none b)
          >>= follow M fuel env rest := by
  refine (runAll_cons (by nofun) (by nofun)).trans ?_
  simp [Code.run]

theorem runAll_ret (v : Option ℕ) : Code.runAll M fuel env none (.ret v :: rest)
    = (match v with
      | none => pure (.returned none)
      | some n => (fun v ↦ .returned (some v)) <$> read env n) := by
  refine (runAll_cons (by nofun) (by nofun)).trans ?_
  cases v <;> simp [Code.run, follow]

end Steps

theorem runAll_jump {code : List (Code E)} (h : Plain code) (l : Label) :
    Code.runAll M fuel env (some l) (code ++ rest) = Code.runAll M fuel env (some l) rest := by
  induction code with
  | nil => rfl
  | cons c code ih =>
      have hcode : Plain code := fun c hc ↦ h c (List.mem_cons_of_mem _ hc)
      have hc := h c (List.mem_cons_self ..)
      cases c with
      | label l => exact absurd rfl (hc l)
      | _ => simpa [Code.runAll] using ih hcode

theorem runAll_jump_plain (h : Plain rest) (l : Label) :
    Code.runAll M fuel env (some l) rest = pure (.jump l) := by
  have hjump : Code.runAll M fuel env (some l) (rest ++ []) = Code.runAll M fuel env (some l) [] :=
    runAll_jump h l
  simpa [Code.runAll] using hjump

end Lines

/-! ## Clean-up -/

theorem unwind_append (returning : Option E) (up rest : List (Cleanup E)) :
    M.unwind returning (up ++ rest) = M.unwind returning up >>= fun _ ↦ M.unwind returning rest := by
  induction up with
  | nil => simp [Meaning.unwind]
  | cons c up ih =>
      cases c with
      | defer a => simp [Meaning.unwind, ih]
      | drop l =>
          by_cases h : returning.any (M.returnedLocal · l)
          · simp [Meaning.unwind, h, ih]
          · simp [Meaning.unwind, h, ih]

theorem plain_cleanupEmit (returning : Option E) (cleanup stop : List (Cleanup E)) :
    Plain (cleanupEmit M returning cleanup stop) := by
  intro c hc l
  obtain ⟨d, -, hd⟩ := List.mem_filterMap.mp hc
  rintro rfl
  cases d <;> simp [Cleanup.line] at hd

/-- The lines of `cleanup_emit` run what was registered behind the stop. -/
theorem runAll_cleanup (returning : Option E) (up stop : List (Cleanup E)) (env : ℕ → Option ν)
    (rest : List (Code E)) :
    Code.runAll M fuel env none (cleanupEmit M returning (up ++ stop) stop ++ rest)
      = M.unwind returning up >>= fun _ ↦ Code.runAll M fuel env none rest := by
  have htake : (up ++ stop).take ((up ++ stop).length - stop.length) = up := by simp
  rw [cleanupEmit, htake]
  clear htake
  induction up with
  | nil => simp [Meaning.unwind]
  | cons c up ih =>
      cases c with
      | defer a =>
          simp only [List.filterMap_cons, Cleanup.line, List.cons_append]
          simp [runAll_eval, Meaning.unwind, ih]
      | drop l =>
          by_cases h : returning.any (M.returnedLocal · l)
          · simp only [List.filterMap_cons, Cleanup.line, h, if_true, Meaning.unwind]
            exact ih
          · simp only [List.filterMap_cons, Cleanup.line, h, Bool.false_eq_true, if_false,
              Meaning.unwind, List.cons_append]
            simp [runAll_drop, ih]

/-! ## Exits -/

/-- The scopes to the target of `break` and `continue` are scopes of the function. -/
def CG.Stops (g : CG E) : Prop := ∀ id stop, g.loop = some (id, stop) → stop <:+ g.cleanup

/-- What the code does where a statement ends: it runs what is registered up to the target. -/
def CG.exit (M : Meaning E σ ν) (g : CG E) : Exit E ν → Effect σ (CExit ν)
  | .normal => pure .normal
  | .broke =>
      match g.loop with
      | some (id, stop) => do
          M.unwind none (g.cleanup.take (g.cleanup.length - stop.length))
          pure (.jump (.brk id))
      | none => do
          M.unwind none g.cleanup
          exhausted
  | .continued =>
      match g.loop with
      | some (id, stop) => do
          M.unwind none (g.cleanup.take (g.cleanup.length - stop.length))
          pure (.jump (.cont id))
      | none => do
          M.unwind none g.cleanup
          exhausted
  | .returned v a => do
      M.unwind a g.cleanup
      pure (.returned v)

theorem exit_congr {g g' : CG E} (hloop : g'.loop = g.loop) (hcleanup : g'.cleanup = g.cleanup)
    (o : Exit E ν) : g'.exit M o = g.exit M o := by
  cases o <;> simp [CG.exit, hloop, hcleanup]

/-- An exit from an inner scope leaves it and then the scopes around it. -/
theorem exit_inner {g g' : CG E} (hg : g.Stops) (hloop : g'.loop = g.loop)
    {registered : List (Cleanup E)} (hcleanup : g'.cleanup = registered ++ g.cleanup)
    {o : Exit E ν} (ho : o ≠ .normal) :
    g'.exit M o = leave M registered o >>= g.exit M := by
  have hstop {id : ℕ} {stop : List (Cleanup E)} (hl : g.loop = some (id, stop)) :
      M.unwind none (g'.cleanup.take (g'.cleanup.length - stop.length))
        = M.unwind none registered >>= fun _ ↦
          M.unwind none (g.cleanup.take (g.cleanup.length - stop.length)) := by
    obtain ⟨up, hup⟩ := hg id stop hl
    rw [hcleanup, ← hup, ← unwind_append]
    have htake (up : List (Cleanup E)) :
        (up ++ stop).take ((up ++ stop).length - stop.length) = up := by simp
    rw [htake, ← List.append_assoc, htake]
  cases o with
  | normal => exact absurd rfl ho
  | broke | continued =>
      cases hl : g.loop with
      | none => simp [CG.exit, hloop, hl, leave, Exit.returning, hcleanup, unwind_append]
      | some p => simp [CG.exit, hloop, hl, leave, Exit.returning, hstop hl]
  | returned v a => simp [CG.exit, leave, Exit.returning, hcleanup, unwind_append]

/-! ## The shape of the code -/

/-- Neither labels nor temporaries that the following lines can see. -/
def Closed (code : List (Code E)) : Prop :=
  ∀ c ∈ code, (∀ l, c ≠ .label l) ∧ ∀ n a, c ≠ .save n a

/-- The lines do not read temporaries from outside. -/
def Steady (M : Meaning E σ ν) (fuel : ℕ) (code : List (Code E)) : Prop :=
  ∀ env env', Code.runAll M fuel env none code = Code.runAll M fuel env' none code

theorem closed_nil : Closed ([] : List (Code E)) := nofun

theorem Closed.plain {code : List (Code E)} (h : Closed code) : Plain code := fun c hc ↦ (h c hc).1

theorem plain_append {code rest : List (Code E)} (h : Plain code) (hrest : Plain rest) :
    Plain (code ++ rest) := by
  intro c hc
  rcases List.mem_append.mp hc with hc | hc
  · exact h c hc
  · exact hrest c hc

theorem runAll_append {code rest : List (Code E)} {env : ℕ → Option ν} (h : Closed code) :
    Code.runAll M fuel env none (code ++ rest)
      = Code.runAll M fuel env none code >>= follow M fuel env rest := by
  induction code with
  | nil => simp [follow]
  | cons c code ih =>
      have hcode : Closed code := fun c hc ↦ h c (List.mem_cons_of_mem _ hc)
      obtain ⟨hlabel, hsave⟩ := h c (List.mem_cons_self ..)
      rw [List.cons_append, runAll_cons hlabel hsave, runAll_cons hlabel hsave, bind_assoc]
      refine bind_congr fun o ↦ ?_
      cases o with
      | normal => exact ih hcode
      | jump l =>
          rw [follow, runAll_jump hcode.plain, follow, runAll_jump_plain hcode.plain, pure_bind]
          rfl
      | brk | returned => simp [follow]

theorem runAll_single {c : Code E} {env : ℕ → Option ν}
    (hlabel : ∀ l, c ≠ .label l) (hsave : ∀ n a, c ≠ .save n a) :
    Code.runAll M fuel env none [c] = c.run M fuel env := by
  rw [runAll_cons hlabel hsave]
  conv_rhs => rw [← bind_pure (c.run M fuel env)]
  refine bind_congr fun o ↦ ?_
  cases o <;> rfl

section Frame

attribute [local simp] statement registers CG.counted

/-- What a statement leaves in the state of the generator. -/
theorem statement_frame (g : CG E) (s : Stmt E) :
    (statement M g s).2.cleanup = registers s ++ g.cleanup ∧ (statement M g s).2.loop = g.loop := by
  cases s with
  | ite a body b => cases b <;> simp
  | «for» a b c body => cases a <;> simp
  | «break» | «continue» => cases h : g.loop <;> simp [h]
  | _ => simp

end Frame

theorem closed_scopedCode {g : CG E} {s : Stmt E} (r : CG E) :
    ∃ body, scopedCode M g s (statement M r s) = [.block body] := by
  cases s <;> simp [scopedCode, statement]

theorem closed_block (body : List (Code E)) : Closed [.block body] := by
  simp [Closed]

theorem closed_append {code rest : List (Code E)} (h : Closed code) (hrest : Closed rest) :
    Closed (code ++ rest) := by
  intro c hc
  rcases List.mem_append.mp hc with hc | hc
  · exact h c hc
  · exact hrest c hc

theorem closed_cleanupEmit (returning : Option E) (cleanup stop : List (Cleanup E)) :
    Closed (cleanupEmit M returning cleanup stop) := by
  refine fun c hc ↦ ⟨plain_cleanupEmit returning cleanup stop c hc, fun n a ↦ ?_⟩
  obtain ⟨d, -, hd⟩ := List.mem_filterMap.mp hc
  rintro rfl
  cases d <;> simp [Cleanup.line] at hd

theorem closed_caseCodes (items : List (Item E)) (g : CG E) :
    ∀ p ∈ (caseCodes M g items).1, Closed p.2 := by
  induction items generalizing g with
  | nil => simp [caseCodes]
  | cons item items ih =>
      obtain ⟨labels, body⟩ := item
      cases labels with
      | none => simpa [caseCodes] using ih g
      | some labels =>
          intro p hp
          rcases List.mem_cons.mp (by simpa only [caseCodes] using hp) with rfl | hp
          · exact closed_block _
          · exact ih _ p hp

theorem closed_defaultCode (items : List (Item E)) (g : CG E) :
    Closed (defaultCode M g items).1 := by
  induction items generalizing g with
  | nil => exact closed_nil
  | cons item items ih =>
      obtain ⟨labels, body⟩ := item
      cases labels with
      | some labels => simpa only [defaultCode] using ih g
      | none =>
          rw [defaultCode]
          split
          · exact ih g
          · exact closed_block _

theorem closed_chain (n : ℕ) (guard : Bool) {fallback : List (Code E)} (hfallback : Closed fallback)
    {cases : List (List E × List (Code E))} (hcases : ∀ p ∈ cases, Closed p.2) :
    Closed (chain n guard fallback cases) := by
  cases cases with
  | nil => exact hfallback
  | cons p cases =>
      rw [chain]
      split
      · exact hcases p (List.mem_cons_self ..)
      · simp [Closed]

theorem plain_statement (g : CG E) (s : Stmt E) : Plain (statement M g s).1 := by
  cases s with
  | block body => simp [statement, Plain]
  | var locals a => simp [statement, Plain]
  | expr a => cases a <;> simp [statement, Plain]
  | ret a =>
      refine plain_append (plain_append ?_ (plain_cleanupEmit _ _ _)) ?_
      · cases a <;> simp [Plain]
      · simp [Plain]
  | ite a body b => cases b <;> simp [statement, Plain]
  | switch a items =>
      refine plain_append (plain_append ?_ ?_) (closed_chain _ _ (closed_defaultCode _ _)
        (closed_caseCodes _ _)).plain
      · simp [Plain]
      · split <;> simp [Plain]
  | «while» | range => simp [statement, loopCode, Plain]
  | «for» a => cases a <;> simp [statement, loopCode, Plain]
  | «break» | «continue» =>
      rw [statement]
      split
      · exact plain_append (plain_cleanupEmit _ _ _) (by simp [Plain])
      · exact closed_nil.plain
  | defer => exact closed_nil.plain
  | delete => simp [statement, Plain]

theorem plain_blockItems (body : List (Stmt E)) (g : CG E) : Plain (blockItems M g body).1 := by
  induction body generalizing g with
  | nil => exact closed_nil.plain
  | cons s rest ih => exact plain_append (plain_statement g s) (ih _)

/-! ## One statement -/

/-- What happens behind a statement. -/
def after (M : Meaning E σ ν) (fuel : ℕ) (g : CG E) (env : ℕ → Option ν) (rest : List (Code E)) :
    Exit E ν → Effect σ (CExit ν)
  | .normal => Code.runAll M fuel env none rest
  | o => g.exit M o

/-- The code of a statement does what the statement does. -/
def Runs (M : Meaning E σ ν) (fuel : ℕ) (g : CG E) (s : Stmt E) : Prop :=
  ∀ rest, Plain rest → Steady M fuel rest → ∀ env,
    Code.runAll M fuel env none ((statement M g s).1 ++ rest)
      = exec M fuel s >>= after M fuel g env rest

theorem exhausted_bind {α β : Type} (f : α → Effect σ β) : (exhausted : Effect σ α) >>= f = exhausted :=
  rfl

/-- An exit leaves the block. -/
theorem exit_follow {g : CG E} {o : Exit E ν} (ho : o ≠ .normal) {rest : List (Code E)}
    (hrest : Plain rest) (env : ℕ → Option ν) :
    g.exit M o >>= follow M fuel env rest = g.exit M o := by
  cases o with
  | normal => exact absurd rfl ho
  | broke | continued =>
      cases h : g.loop with
      | none => simp [CG.exit, h, exhausted_bind]
      | some p => simp [CG.exit, h, follow, runAll_jump_plain hrest]
  | returned v a => simp [CG.exit, follow]

theorem exit_bind_follow {g : CG E} (o : Exit E ν) {rest : List (Code E)} (hrest : Plain rest)
    (env : ℕ → Option ν) :
    g.exit M o >>= follow M fuel env rest = after M fuel g env rest o := by
  by_cases ho : o = .normal
  · subst ho
    simp [CG.exit, follow, after]
  · rw [exit_follow ho hrest]
    cases o <;> first | rfl | exact absurd rfl ho

theorem after_nil (g : CG E) (env : ℕ → Option ν) : after M fuel g env [] = g.exit M := by
  funext o
  cases o <;> rfl

theorem after_congr {g g' : CG E} (hloop : g'.loop = g.loop) (hcleanup : g'.cleanup = g.cleanup)
    (env : ℕ → Option ν) (rest : List (Code E)) :
    after M fuel g' env rest = after M fuel g env rest := by
  funext o
  cases o <;> simp [after, exit_congr hloop hcleanup]

/-- Closed code that ends like something of the source. -/
theorem runAll_closed {g : CG E} {code rest : List (Code E)} (hcode : Closed code)
    (hrest : Plain rest) {e : Effect σ (Exit E ν)} {env : ℕ → Option ν}
    (h : Code.runAll M fuel env none code = e >>= g.exit M) :
    Code.runAll M fuel env none (code ++ rest) = e >>= after M fuel g env rest := by
  rw [runAll_append hcode, h, bind_assoc]
  exact bind_congr fun o ↦ exit_bind_follow o hrest env

theorem steady_cleanupEmit (returning : Option E) (up stop : List (Cleanup E)) :
    Steady M fuel (cleanupEmit M returning (up ++ stop) stop) := by
  intro env env'
  have h (env : ℕ → Option ν) :
      Code.runAll M fuel env none (cleanupEmit M returning (up ++ stop) stop ++ []) =
        M.unwind returning up >>= fun _ ↦ pure .normal :=
    runAll_cleanup returning up stop env []
  simp only [List.append_nil] at h
  rw [h, h]

/-- A statement in a scope of its own. -/
theorem scopedCode_runs {g r : CG E} {s : Stmt E} (hloop : r.loop = g.loop)
    (hcleanup : r.cleanup = g.cleanup) (hs : Runs M fuel r s) (env : ℕ → Option ν) :
    Code.runAll M fuel env none (scopedCode M g s (statement M r s))
      = inScope M s (exec M fuel s) >>= g.exit M := by
  have hafter (rest : List (Code E)) : after M fuel r env rest = after M fuel g env rest :=
    after_congr hloop hcleanup env rest
  have hblock : scopedCode M g s (statement M r s) = (statement M r s).1 ∧ registers s = [] ∨
      scopedCode M g s (statement M r s) =
        [.block ((statement M r s).1 ++
          cleanupEmit M none (registers s ++ g.cleanup) g.cleanup)] := by
    have hframe := (statement_frame (M := M) r s).1
    rw [hcleanup] at hframe
    cases s with
    | block body => exact .inl ⟨rfl, rfl⟩
    | _ => exact .inr (by simp only [scopedCode, hframe])
  rcases hblock with ⟨hcode, hregisters⟩ | hcode
  · have h := hs [] closed_nil.plain (fun _ _ ↦ rfl) env
    rw [List.append_nil, hafter, after_nil] at h
    rw [hcode, h, inScope, bind_assoc]
    refine bind_congr fun o ↦ ?_
    cases o <;> simp [hregisters, leave, Meaning.unwind]
  · rw [hcode, runAll_single (c := .block _) nofun nofun, Code.run,
      hs _ (plain_cleanupEmit _ _ _) (steady_cleanupEmit _ _ _), hafter, inScope, bind_assoc]
    refine bind_congr fun o ↦ ?_
    cases o with
    | normal =>
        have h : Code.runAll M fuel env none
            (cleanupEmit M none (registers s ++ g.cleanup) g.cleanup ++ []) =
              M.unwind none (registers s) >>= fun _ ↦ Code.runAll M fuel env none [] :=
          runAll_cleanup none (registers s) g.cleanup env []
        rw [List.append_nil] at h
        simp [after, h, leave, Exit.returning, CG.exit]
    | _ => simp [after]

section Statements

variable {g : CG E}

attribute [local simp] exec after

theorem runs_block {body : List (Stmt E)}
    (h : ∀ env, Code.runAll M fuel env none
      ((blockItems M g body).1 ++ cleanupEmit M none (blockItems M g body).2.cleanup g.cleanup)
        = execItems M fuel [] body >>= g.exit M) :
    Runs M fuel g (.block body) := by
  intro rest hrest _ env
  refine runAll_closed (closed_block _) hrest ?_
  rw [runAll_single (c := .block _) nofun nofun, Code.run, exec, h env]

theorem runs_var (locals : List Local) (a : Option E) : Runs M fuel g (.var locals a) := by
  intro rest _ _ env
  simp [statement, runAll_define]

theorem runs_expr (a : Option E) : Runs M fuel g (.expr a) := by
  intro rest _ _ env
  cases a <;> simp [statement, runAll_eval, Meaning.evalOption]

/-- The value of a `return` is saved before the clean-up runs. -/
theorem runs_ret (a : Option E) : Runs M fuel g (.ret a) := by
  intro rest _ _ env
  have hcleanup (env : ℕ → Option ν) (rest : List (Code E)) :
      Code.runAll M fuel env none (cleanupEmit M a (g.cleanup ++ []) [] ++ rest) =
        M.unwind a g.cleanup >>= fun _ ↦ Code.runAll M fuel env none rest :=
    runAll_cleanup a g.cleanup [] env rest
  rw [List.append_nil] at hcleanup
  cases a <;>
    simp [statement, hcleanup, runAll_ret, Meaning.evalOption, CG.exit, read]

theorem runs_delete (a : E) : Runs M fuel g (.delete a) := by
  intro rest _ hsteady env
  simp only [statement, List.cons_append, List.nil_append, runAll_save, runAll_delete, exec,
    bind_assoc]
  refine bind_congr fun v ↦ ?_
  simp [read, hsteady (Function.update env _ (some v)) env]

theorem runs_defer (a : E) : Runs M fuel g (.defer a) := by
  intro rest _ _ env
  simp [statement]

/-- The clean-up in front of a jump. -/
theorem goto_runs {stop : List (Cleanup E)} (hstop : stop <:+ g.cleanup) {rest : List (Code E)}
    (hrest : Plain rest) (l : Label) (env : ℕ → Option ν) :
    Code.runAll M fuel env none (cleanupEmit M none g.cleanup stop ++ .goto l :: rest)
      = M.unwind none (g.cleanup.take (g.cleanup.length - stop.length)) >>= fun _ ↦
        pure (.jump l) := by
  obtain ⟨up, hup⟩ := hstop
  have hjump : Code.runAll M fuel env none (.goto l :: rest) = pure (.jump l) := by
    refine (runAll_cons (by nofun) (by nofun)).trans ?_
    simp [Code.run, follow, runAll_jump_plain hrest]
  rw [← hup, runAll_cleanup, hjump]
  simp

theorem runs_break (hg : g.Stops) (hloop : g.loop.isSome) : Runs M fuel g .break := by
  intro rest hrest _ env
  obtain ⟨⟨id, stop⟩, hloop⟩ := Option.isSome_iff_exists.mp hloop
  simp only [statement, hloop, List.append_assoc, List.cons_append, List.nil_append]
  rw [goto_runs (hg id stop hloop) hrest]
  simp [CG.exit, hloop]

theorem runs_continue (hg : g.Stops) (hloop : g.loop.isSome) : Runs M fuel g .continue := by
  intro rest hrest _ env
  obtain ⟨⟨id, stop⟩, hloop⟩ := Option.isSome_iff_exists.mp hloop
  simp only [statement, hloop, List.append_assoc, List.cons_append, List.nil_append]
  rw [goto_runs (hg id stop hloop) hrest]
  simp [CG.exit, hloop]

/-- A branch that is a scope of its own, and what follows. -/
theorem scopedCode_follow {s : Stmt E} (serial : ℕ) (hs : Runs M fuel (g.counted serial) s)
    {rest : List (Code E)} (hrest : Plain rest) (hsteady : Steady M fuel rest)
    (env env' : ℕ → Option ν) :
    Code.runAll M fuel env' none (scopedCode M g s (statement M (g.counted serial) s))
      >>= follow M fuel env' rest = inScope M s (exec M fuel s) >>= after M fuel g env rest := by
  rw [scopedCode_runs (g := g) (r := g.counted serial) rfl rfl hs, bind_assoc]
  refine bind_congr fun o ↦ ?_
  rw [exit_bind_follow o hrest]
  cases o with
  | normal => exact hsteady env' env
  | _ => rfl

theorem runs_ite {a : E} {body : Stmt E} {b : Option (Stmt E)}
    (hbody : ∀ serial, Runs M fuel (g.counted serial) body)
    (hb : ∀ b', b = some b' → ∀ serial, Runs M fuel (g.counted serial) b') :
    Runs M fuel g (.ite a body b) := by
  intro rest hrest hsteady env
  have hscoped {s : Stmt E} (hs : ∀ serial, Runs M fuel (g.counted serial) s) (serial : ℕ)
      (env' : ℕ → Option ν) := scopedCode_follow serial (hs serial) hrest hsteady env env'
  cases b with
  | none =>
      simp only [statement, List.cons_append, List.nil_append, runAll_save, runAll_cond, exec,
        isTrue, bind_assoc, map_eq_pure_bind, pure_bind]
      refine bind_congr fun v ↦ ?_
      cases hv : M.truth v
      · simp [Test.eval, read, hv, follow, hsteady (Function.update env _ (some v)) env]
      · simp [Test.eval, read, hv, hscoped hbody]
  | some b =>
      simp only [statement, List.cons_append, List.nil_append, runAll_save, runAll_cond, exec,
        isTrue, bind_assoc, map_eq_pure_bind, pure_bind]
      refine bind_congr fun v ↦ ?_
      cases hv : M.truth v
      · simp [Test.eval, read, hv, hscoped (hb b rfl)]
      · simp [Test.eval, read, hv, hscoped hbody]

end Statements

/-! ## Loops -/

/-- What the code of a turn does behind the body. -/
def afterTurn (M : Meaning E σ ν) (inner : CG E) (id : ℕ) (step : Effect σ Unit) :
    Exit E ν → Effect σ (CExit ν)
  | .normal | .continued => do
      step
      pure .normal
  | .broke => pure (.jump (.brk id))
  | .returned v a => inner.exit M (.returned v a)

/-- The body of a loop, the label for `continue` and the step. -/
theorem body_runs {inner r : CG E} {id : ℕ} (hinner : inner.loop = some (id, inner.cleanup))
    (hloop : r.loop = inner.loop) (hcleanup : r.cleanup = inner.cleanup) {s : Stmt E}
    (hs : Runs M fuel r s) {stepCode : List (Code E)} (hplain : Plain stepCode)
    {step : Effect σ Unit} {env : ℕ → Option ν}
    (hstep : Code.runAll M fuel env none stepCode = step >>= fun _ ↦ pure .normal) :
    Code.runAll M fuel env none
        (scopedCode M inner s (statement M r s) ++ .label (.cont id) :: stepCode)
      = inScope M s (exec M fuel s) >>= afterTurn M inner id step := by
  obtain ⟨body, hbody⟩ := closed_scopedCode (M := M) (g := inner) (s := s) r
  have hclosed : Closed (scopedCode M inner s (statement M r s)) := hbody ▸ closed_block body
  rw [runAll_append hclosed, scopedCode_runs hloop hcleanup hs, bind_assoc]
  refine bind_congr fun o ↦ ?_
  cases o with
  | normal => simp [CG.exit, follow, afterTurn, hstep]
  | broke =>
      have hskip : Code.runAll M fuel env (some (.brk id)) stepCode = pure (.jump (.brk id)) :=
        runAll_jump_plain hplain (.brk id)
      simp [CG.exit, hinner, Meaning.unwind, follow, afterTurn, Code.runAll, hskip]
  | continued =>
      simp [CG.exit, hinner, Meaning.unwind, follow, afterTurn, Code.runAll, hstep]
  | returned v a => simp [CG.exit, follow, afterTurn]

/-- What happens behind a loop, where its label for `break` is. -/
def afterLoop (M : Meaning E σ ν) (fuel : ℕ) (inner : CG E) (env : ℕ → Option ν)
    (clean : List (Code E)) : Exit E ν → Effect σ (CExit ν)
  | .returned v a => inner.exit M (.returned v a)
  | _ => Code.runAll M fuel env none clean

/-- The turns of the code are the turns of the loop. -/
theorem loop_runs {inner : CG E} {id : ℕ} {test : Effect σ Bool} {body : Effect σ (Exit E ν)}
    {step : Effect σ Unit} {turn : Effect σ (CExit ν)}
    (hturn : turn = test >>= fun more ↦
      if more then body >>= afterTurn M inner id step else pure .brk)
    (env : ℕ → Option ν) (clean : List (Code E)) (n : ℕ) :
    repeatCode turn n >>= follow M fuel env (.label (.brk id) :: clean)
      = turns test body step n >>= afterLoop M fuel inner env clean := by
  induction n with
  | zero => rfl
  | succ n ih =>
      rw [repeatCode, turns, bind_assoc, bind_assoc, hturn, bind_assoc]
      refine bind_congr fun more ↦ ?_
      cases more with
      | false => simp [follow, afterLoop]
      | true =>
          simp only [if_true, bind_assoc]
          refine bind_congr fun o ↦ ?_
          rw [hturn] at ih
          cases o with
          | normal | continued => simp [afterTurn, ih]
          | broke => simp [afterTurn, follow, afterLoop, Code.runAll]
          | returned v a => simp [afterTurn, CG.exit, follow, afterLoop]

/-- A loop ends normally or with a `return`. -/
theorem turns_bind_congr {α : Type} {test : Effect σ Bool} {body : Effect σ (Exit E ν)}
    {step : Effect σ Unit} {f f' : Exit E ν → Effect σ α} (hnormal : f .normal = f' .normal)
    (hreturned : ∀ v a, f (.returned v a) = f' (.returned v a)) (n : ℕ) :
    turns test body step n >>= f = turns test body step n >>= f' := by
  induction n with
  | zero => rfl
  | succ n ih =>
      rw [turns, bind_assoc, bind_assoc]
      refine bind_congr fun more ↦ ?_
      cases more with
      | false => simpa using hnormal
      | true =>
          simp only [if_true, bind_assoc]
          refine bind_congr fun o ↦ ?_
          cases o with
          | normal | continued => simp [ih]
          | broke => simpa using hnormal
          | returned v a => simpa using hreturned v a

/-- A loop with what is in front of it and what its own scope runs behind it. -/
theorem loopCode_runs (g inner : CG E) {id : ℕ} {init turn stepCode clean : List (Code E)}
    {registered : List (Cleanup E)} (hcleanup : inner.cleanup = registered ++ g.cleanup) {α : Type}
    (start : Effect σ α) {env : ℕ → Option ν} (envOf : α → ℕ → Option ν) (test : α → Effect σ Bool)
    (body : Effect σ (Exit E ν)) (step : α → Effect σ Unit)
    (hinit : ∀ rest, Code.runAll M fuel env none (init ++ rest)
      = start >>= fun x ↦ Code.runAll M fuel (envOf x) none rest)
    (hturn : ∀ x, Code.runAll M fuel (envOf x) none (turn ++ .label (.cont id) :: stepCode)
      = test x >>= fun more ↦
        if more then body >>= afterTurn M inner id (step x) else pure .brk)
    (hclean : ∀ env, Code.runAll M fuel env none clean
      = M.unwind none registered >>= fun _ ↦ pure .normal) :
    Code.runAll M fuel env none (loopCode id init turn stepCode clean)
      = (start >>= fun x ↦ turns (test x) body (step x) fuel >>= leave M registered)
        >>= g.exit M := by
  rw [loopCode, runAll_single (by nofun) (by nofun), Code.run, List.append_assoc, hinit, bind_assoc]
  refine bind_congr fun x ↦ ?_
  refine (runAll_cons (by nofun) (by nofun)).trans ?_
  rw [Code.run]
  refine (loop_runs (hturn x) (envOf x) clean fuel).trans ?_
  rw [bind_assoc]
  refine turns_bind_congr ?_ ?_ fuel
  · simp [afterLoop, hclean, leave, Exit.returning, CG.exit]
  · intro v a
    simp [afterLoop, leave, Exit.returning, CG.exit, hcleanup, unwind_append]

/-- `if (!(tmp)) break;` -/
theorem test_runs {n : ℕ} {a : E} {rest : List (Code E)} (hsteady : Steady M fuel rest)
    (env : ℕ → Option ν) :
    Code.runAll M fuel env none (.save n a :: .cond (.fails n) [.breakLoop] [] :: rest)
      = isTrue M a >>= fun more ↦
        if more then Code.runAll M fuel env none rest else pure .brk := by
  have hbreak (env : ℕ → Option ν) :
      Code.runAll M fuel env none [(.breakLoop : Code E)] = pure .brk :=
    runAll_single (by nofun) (by nofun)
  simp only [runAll_save, runAll_cond, isTrue, map_eq_pure_bind, bind_assoc, pure_bind]
  refine bind_congr fun v ↦ ?_
  cases hv : M.truth v
  · simp [Test.eval, read, hv, hbreak, follow]
  · simp [Test.eval, read, hv, follow, hsteady (Function.update env n (some v)) env]

section LoopStatements

variable {g : CG E} {body : Stmt E}

/-- The body of a loop that registers nothing. -/
theorem steady_body {inner r : CG E} {id : ℕ} (hinner : inner.loop = some (id, inner.cleanup))
    (hloop : r.loop = inner.loop) (hcleanup : r.cleanup = inner.cleanup) {s : Stmt E}
    (hs : Runs M fuel r s) {stepCode : List (Code E)} (hplain : Plain stepCode)
    {step : Effect σ Unit}
    (hstep : ∀ env, Code.runAll M fuel env none stepCode = step >>= fun _ ↦ pure .normal) :
    Steady M fuel (scopedCode M inner s (statement M r s) ++ .label (.cont id) :: stepCode) := by
  intro env env'
  rw [body_runs hinner hloop hcleanup hs hplain (hstep env),
    body_runs hinner hloop hcleanup hs hplain (hstep env')]

theorem stops_self (cleanup : List (Cleanup E)) (id serial : ℕ) :
    (⟨cleanup, some (id, cleanup), serial⟩ : CG E).Stops := by
  rintro _ _ ⟨⟩
  exact List.suffix_rfl

theorem leave_nil (o : Exit E ν) : leave M [] o = pure o := by
  simp [leave, Meaning.unwind]

theorem runs_while {a : E}
    (hbody : ∀ inner : CG E, inner.Stops → inner.loop.isSome → Runs M fuel inner body) :
    Runs M fuel g (.while a body) := by
  intro rest hrest _ env
  have hs := hbody _ (stops_self g.cleanup (g.serial + 1) (g.serial + 1 + 1)) rfl
  have hstep (env : ℕ → Option ν) :
      Code.runAll M fuel env none [] = (pure () : Effect σ Unit) >>= fun _ ↦ pure .normal := by
    simp
  have hinner : (⟨g.cleanup, some (g.serial + 1, g.cleanup), g.serial + 1 + 1⟩ : CG E).loop =
      some (g.serial + 1, g.cleanup) := rfl
  have hsteady := steady_body hinner rfl rfl hs closed_nil.plain hstep
  refine runAll_closed (closed_block _) hrest ?_
  refine (loopCode_runs g ⟨g.cleanup, some (g.serial + 1, g.cleanup), g.serial + 1 + 1⟩
    (List.nil_append _).symm (pure ()) (fun _ ↦ env) (fun _ ↦ isTrue M a)
    (inScope M body (exec M fuel body)) (fun _ ↦ pure ()) (by simp) (fun _ ↦ ?_)
    (by simp [Meaning.unwind])).trans ?_
  · refine (test_runs hsteady env).trans (bind_congr fun more ↦ ?_)
    rw [body_runs rfl rfl rfl hs closed_nil.plain (hstep env)]
  · simp [exec, leave_nil]

theorem runs_range {a : E}
    (hbody : ∀ inner : CG E, inner.Stops → inner.loop.isSome → Runs M fuel inner body) :
    Runs M fuel g (.range a body) := by
  intro rest hrest _ env
  have hs := hbody _ (stops_self g.cleanup (g.serial + 1 + 1) (g.serial + 1 + 1)) rfl
  have hstep (v : ν) : Code.runAll M fuel (Function.update env (g.serial + 1) (some v)) none
      [(.advance (g.serial + 1) : Code E)] = M.advance v >>= fun _ ↦ pure .normal := by
    simp [runAll_advance, read]
  refine runAll_closed (closed_block _) hrest ?_
  refine (loopCode_runs g ⟨g.cleanup, some (g.serial + 1 + 1, g.cleanup), g.serial + 1 + 1⟩
    (List.nil_append _).symm
    (M.eval a >>= fun v ↦ M.start v >>= fun _ ↦ pure v)
    (fun v ↦ Function.update env (g.serial + 1) (some v)) M.next (inScope M body (exec M fuel body))
    M.advance (fun rest ↦ ?_) (fun v ↦ ?_) (by simp [Meaning.unwind])).trans ?_
  · simp [runAll_start, read]
  · simp only [List.cons_append, List.nil_append, runAll_next, read, Function.update_self, pure_bind]
    refine bind_congr fun more ↦ ?_
    rw [body_runs rfl rfl rfl hs (by simp [Plain]) (hstep v)]
  · simp [exec, leave_nil]

/-- The part of a loop in front of its first condition. -/
theorem runs_init {a : Option (Stmt E)} (ha : ∀ s, a = some s → (∃ locals b, s = .var locals b) ∨
      ∃ b, s = .expr b) :
    ∃ start : Effect σ Unit, (∀ s, a = some s → exec M fuel s = start >>= fun _ ↦ pure .normal) ∧
      (a = none → start = pure ()) ∧
      ∀ env rest, Code.runAll M fuel env none ((a.map fun s ↦ (statement M g s).1).getD [] ++ rest)
        = start >>= fun _ ↦ Code.runAll M fuel env none rest := by
  cases a with
  | none => exact ⟨pure (), nofun, fun _ ↦ rfl, by simp⟩
  | some s =>
      rcases ha s rfl with ⟨locals, b, rfl⟩ | ⟨b, rfl⟩
      · refine ⟨M.evalOption b >>= M.define locals, ?_, nofun, ?_⟩
        · rintro _ ⟨⟩
          simp [exec]
        · simp [statement, runAll_define]
      · refine ⟨M.evalOption b >>= fun _ ↦ pure (), ?_, nofun, ?_⟩
        · rintro _ ⟨⟩
          simp [exec]
        · cases b <;> simp [statement, runAll_eval, Meaning.evalOption]

/-- What a loop registers in its own scope. -/
def initRegisters (a : Option (Stmt E)) : List (Cleanup E) := (a.map registers).getD []

theorem runs_for {a : Option (Stmt E)} {b c : Option E}
    (ha : ∀ s, a = some s → (∃ locals b, s = .var locals b) ∨ ∃ b, s = .expr b)
    (hbody : ∀ inner : CG E, inner.Stops → inner.loop.isSome → Runs M fuel inner body) :
    Runs M fuel g (.for a b c body) := by
  intro rest hrest _ env
  obtain ⟨start, hexec, hnone, hinit⟩ : ∃ start : Effect σ Unit,
      (∀ s, a = some s → exec M fuel s = start >>= fun _ ↦ pure .normal) ∧
      (a = none → start = pure ()) ∧
      ∀ env rest, Code.runAll M fuel env none ((a.map fun s ↦ (statement M g s).1).getD [] ++ rest)
        = start >>= fun _ ↦ Code.runAll M fuel env none rest :=
    runs_init ha
  obtain ⟨init, hcode, hcleanup⟩ : ∃ init : CG E,
      (statement M g (.for a b c body)).1 =
        loopCode (init.serial + 1) ((a.map fun s ↦ (statement M g s).1).getD [])
          ((b.map fun b ↦ [.save (init.serial + 1 + 1) b,
              .cond (.fails (init.serial + 1 + 1)) [.breakLoop] []]).getD [] ++
            scopedCode M ⟨init.cleanup, some (init.serial + 1, init.cleanup), init.serial + 1 + 1⟩
              body (statement M
                ⟨init.cleanup, some (init.serial + 1, init.cleanup), init.serial + 1 + 1⟩ body))
          (c.toList.map .eval) (cleanupEmit M none init.cleanup g.cleanup) ∧
        init.cleanup = initRegisters a ++ g.cleanup := by
    cases a with
    | none => exact ⟨g, by cases b <;> rfl, rfl⟩
    | some s => exact ⟨(statement M g s).2, by cases b <;> rfl, (statement_frame g s).1⟩
  have hs := hbody _ (stops_self init.cleanup (init.serial + 1) (init.serial + 1 + 1)) rfl
  have hplain : Plain (c.toList.map (Code.eval (E := E))) := by
    cases c <;> simp [Plain]
  have hstep (env : ℕ → Option ν) : Code.runAll M fuel env none (c.toList.map .eval)
      = (M.evalOption c >>= fun _ ↦ pure ()) >>= fun _ ↦ pure .normal := by
    cases c <;> simp [Meaning.evalOption, runAll_eval]
  have hinner : (⟨init.cleanup, some (init.serial + 1, init.cleanup), init.serial + 1 + 1⟩ :
      CG E).loop = some (init.serial + 1, init.cleanup) := rfl
  have hsteady := steady_body hinner rfl rfl hs hplain hstep
  rw [hcode]
  refine runAll_closed (closed_block _) hrest ?_
  refine (loopCode_runs g
    ⟨init.cleanup, some (init.serial + 1, init.cleanup), init.serial + 1 + 1⟩ hcleanup start
    (fun _ ↦ env) (fun _ ↦ loopTest M b) (inScope M body (exec M fuel body))
    (fun _ ↦ M.evalOption c >>= fun _ ↦ pure ()) (hinit env) (fun _ ↦ ?_)
    (fun env ↦ ?_)).trans ?_
  · cases b with
    | none =>
        simp only [Option.map_none, Option.getD_none, List.nil_append, loopTest, pure_bind, if_true]
        exact body_runs rfl rfl rfl hs hplain (hstep env)
    | some b =>
        refine (test_runs hsteady env).trans (bind_congr fun more ↦ ?_)
        rw [body_runs rfl rfl rfl hs hplain (hstep env)]
  · have h : Code.runAll M fuel env none
        (cleanupEmit M none (initRegisters a ++ g.cleanup) g.cleanup ++ []) =
          M.unwind none (initRegisters a) >>= fun _ ↦ Code.runAll M fuel env none [] :=
      runAll_cleanup none (initRegisters a) g.cleanup env []
    rw [List.append_nil, ← hcleanup] at h
    exact h
  · cases a with
    | none => simp [exec, hnone rfl, initRegisters, leave_nil]
    | some s => simp [exec, hexec s rfl, initRegisters]

end LoopStatements

/-! ## Switches -/

section Switch

variable {g : CG E} {items : List (Item E)} {v : ν} {env : ℕ → Option ν}

/-- The code of a block in braces ends like the block. -/
def RunsBlock (M : Meaning E σ ν) (fuel : ℕ) (g : CG E) (body : List (Stmt E)) : Prop :=
  ∀ serial env, Code.runAll M fuel env none
    ((blockItems M (g.counted serial) body).1 ++
      cleanupEmit M none (blockItems M (g.counted serial) body).2.cleanup g.cleanup)
    = execItems M fuel [] body >>= g.exit M

theorem follow_nil (e : Effect σ (CExit ν)) : e >>= follow M fuel env [] = e := by
  conv_rhs => rw [← bind_pure e]
  refine bind_congr fun o ↦ ?_
  cases o <;> rfl

theorem execCase_of_nil {serial : ℕ} (h : (caseCodes M (g.counted serial) items).1 = []) :
    execCase M fuel v items = none := by
  induction items with
  | nil => rfl
  | cons item items ih =>
      obtain ⟨labels, body⟩ := item
      cases labels with
      | none => exact ih h
      | some labels => simp [caseCodes] at h

theorem any_allLabels :
    (allLabels items).any (M.isLabel v) = (execCase M fuel v items).isSome := by
  induction items with
  | nil => rfl
  | cons item items ih =>
      obtain ⟨labels, body⟩ := item
      rw [allLabels, List.flatMap_cons, List.any_append, ← allLabels, ih]
      cases labels with
      | none => simp [execCase]
      | some labels =>
          cases h : labels.any (M.isLabel v) <;> simp [execCase, h]

theorem hasDefault_eq : hasDefault items = (execDefault M fuel items).isSome := by
  induction items with
  | nil => rfl
  | cons item items ih =>
      obtain ⟨labels, body⟩ := item
      rw [hasDefault, List.any_cons, ← hasDefault, ih]
      cases labels <;> simp [execDefault]

/-- The first case with the value runs, else what is behind the cases. -/
theorem chain_runs (hbody : ∀ item ∈ items, RunsBlock M fuel g item.2) {n : ℕ}
    (hv : env n = some v) (guard : Bool) (fallback : List (Code E)) (serial : ℕ)
    (hguard : guard = true → (caseCodes M (g.counted serial) items).1 = [] ∨
      (execCase M fuel v items).isSome) :
    Code.runAll M fuel env none (chain n guard fallback (caseCodes M (g.counted serial) items).1)
      = match execCase M fuel v items with
        | some e => e >>= g.exit M
        | none => Code.runAll M fuel env none fallback := by
  induction items generalizing serial with
  | nil => rfl
  | cons item items ih =>
      have hrest : ∀ item ∈ items, RunsBlock M fuel g item.2 := fun item hitem ↦
        hbody item (List.mem_cons_of_mem _ hitem)
      obtain ⟨labels, body⟩ := item
      cases labels with
      | none => exact ih hrest serial hguard
      | some labels =>
          have hblock := hbody _ (List.mem_cons_self ..) serial env
          set r := blockItems M (g.counted serial) body
          have hrun : Code.runAll M fuel env none
              [.block (r.1 ++ cleanupEmit M none r.2.cleanup g.cleanup)]
                = execItems M fuel [] body >>= g.exit M := by
            rw [runAll_single (by nofun) (by nofun), Code.run, hblock]
          have hcodes : (caseCodes M (g.counted serial) ((some labels, body) :: items)).1 =
              (labels, [.block (r.1 ++ cleanupEmit M none r.2.cleanup g.cleanup)]) ::
                (caseCodes M (g.counted r.2.serial) items).1 := rfl
          rw [hcodes] at hguard ⊢
          rw [chain, execCase]
          by_cases hlast : (guard && (caseCodes M (g.counted r.2.serial) items).1.isEmpty) = true
          · have hnone : execCase M fuel v items = none :=
              execCase_of_nil (List.isEmpty_iff.mp (Bool.and_eq_true_iff.mp hlast).2)
            have hsome := (hguard (Bool.and_eq_true_iff.mp hlast).1).resolve_left nofun
            have hany : labels.any (M.isLabel v) = true := by
              by_contra hany
              simp [execCase, hany, hnone] at hsome
            rw [if_pos hlast, if_pos hany, hrun]
          · rw [if_neg hlast, runAll_cond]
            simp only [Test.eval, read, hv, map_pure, pure_bind, follow_nil]
            by_cases hany : labels.any (M.isLabel v) = true
            · rw [if_pos hany, if_pos hany, hrun]
            · rw [if_neg hany, if_neg hany]
              refine ih hrest r.2.serial fun hg ↦ .inr ?_
              have hsome := (hguard hg).resolve_left nofun
              simpa [execCase, hany] using hsome

theorem default_runs (hbody : ∀ item ∈ items, RunsBlock M fuel g item.2) (serial : ℕ) :
    Code.runAll M fuel env none (defaultCode M (g.counted serial) items).1
      = match execDefault M fuel items with
        | some e => e >>= g.exit M
        | none => pure .normal := by
  induction items with
  | nil => rfl
  | cons item items ih =>
      have hrest : ∀ item ∈ items, RunsBlock M fuel g item.2 := fun item hitem ↦
        hbody item (List.mem_cons_of_mem _ hitem)
      obtain ⟨labels, body⟩ := item
      cases labels with
      | some labels => exact ih hrest
      | none =>
          have hdefault : hasDefault items = (execDefault M fuel items).isSome := hasDefault_eq
          rw [defaultCode, execDefault]
          cases hd : execDefault M fuel items with
          | some e =>
              rw [hd] at hdefault
              have hlater : hasDefault items = true := hdefault
              rw [if_pos hlater, ih hrest, hd]
              rfl
          | none =>
              rw [hd] at hdefault
              rw [if_neg (by simp [hdefault]), runAll_single (by nofun) (by nofun), Code.run]
              exact hbody _ (List.mem_cons_self ..) serial env

theorem runs_switch {a : E} (hbody : ∀ item ∈ items, RunsBlock M fuel g item.2) :
    Runs M fuel g (.switch a items) := by
  intro rest hrest hsteady env
  set n := g.serial + 1
  set guard := M.isEnum a && !hasDefault items
  set cases := caseCodes M (g.counted n) items
  set fallback := defaultCode M (g.counted cases.2) items
  have hchain : Closed (chain n guard fallback.1 cases.1) :=
    closed_chain _ _ (closed_defaultCode _ _) (closed_caseCodes _ _)
  have hdefault : hasDefault items = (execDefault M fuel items).isSome := hasDefault_eq
  have hcode : (statement M g (.switch a items)).1 = .save n a ::
      ((if guard && !items.isEmpty then [.cond (.noLabel n (allLabels items)) [.panic] []] else [])
        ++ chain n guard fallback.1 cases.1) := rfl
  rw [hcode, List.cons_append, runAll_save, exec, bind_assoc]
  refine bind_congr fun v ↦ ?_
  set env' := Function.update env n (some v)
  have hv : env' n = some v := Function.update_self ..
  have hany : (allLabels items).any (M.isLabel v) = (execCase M fuel v items).isSome :=
    any_allLabels
  have hrun (e : Effect σ (Exit E ν)) (h : Code.runAll M fuel env' none (chain n guard fallback.1
      cases.1) = e >>= g.exit M) :
      Code.runAll M fuel env' none (chain n guard fallback.1 cases.1 ++ rest)
        = e >>= after M fuel g env rest := by
    rw [runAll_closed hchain hrest h]
    refine bind_congr fun o ↦ ?_
    cases o with
    | normal => exact hsteady env' env
    | _ => rfl
  have hguard (code : List (Code E)) (h : guard = true → items = [] ∨
      (execCase M fuel v items).isSome) :
      Code.runAll M fuel env' none ((if guard && !items.isEmpty then
        [.cond (.noLabel n (allLabels items)) [.panic] []] else []) ++ code)
        = Code.runAll M fuel env' none code := by
    by_cases hif : (guard && !items.isEmpty) = true
    · rw [if_pos hif, List.cons_append, runAll_cond]
      have hsome := (h (Bool.and_eq_true_iff.mp hif).1).resolve_left fun hnil ↦ by simp [hnil] at hif
      simp [Test.eval, read, hv, hany, hsome, follow]
    · rw [if_neg hif, List.nil_append]
  have hcase (h : guard = true → items = [] ∨ (execCase M fuel v items).isSome) :=
    chain_runs (g := g) hbody hv guard fallback.1 n fun hg ↦
      (h hg).imp_left fun hnil ↦ by simp [hnil, caseCodes]
  cases hC : execCase M fuel v items with
  | some e =>
      have hsome : guard = true → items = [] ∨ (execCase M fuel v items).isSome := fun _ ↦
        .inr (by simp [hC])
      rw [List.append_assoc, hguard _ hsome]
      refine hrun e ((hcase hsome).trans ?_)
      rw [hC]
  | none =>
      have hfall : (guard = true → items = []) → Code.runAll M fuel env' none
          (chain n guard fallback.1 cases.1) = Code.runAll M fuel env' none fallback.1 := by
        intro h
        refine (hcase fun hg ↦ .inl (h hg)).trans ?_
        rw [hC]
      have hfallback : Code.runAll M fuel env' none _ = _ := default_runs hbody cases.2
      cases hD : execDefault M fuel items with
      | some e =>
          have hnot : guard = true → items = [] := by
            intro hg
            simp [guard, hdefault, hD] at hg
          rw [List.append_assoc, hguard _ fun hg ↦ .inl (hnot hg)]
          refine hrun e ((hfall hnot).trans (hfallback.trans ?_))
          rw [hD]
      | none =>
          have hg : guard = M.isEnum a := by simp [guard, hdefault, hD]
          by_cases hif : (M.isEnum a && !items.isEmpty) = true
          · rw [hg, if_pos hif, List.append_assoc, List.cons_append, runAll_cond]
            have hpanic : Code.runAll M fuel env' none [(.panic : Code E)] = throw () :=
              runAll_single (by rintro _ ⟨⟩) (by rintro _ _ ⟨⟩)
            simp [Test.eval, read, hv, hany, hC, hif, hpanic]
          · have hnot : guard = true → items = [] := by
              intro h
              rw [hg] at h
              simpa [h] using hif
            rw [List.append_assoc, hguard _ fun hg ↦ .inl (hnot hg)]
            simp only [if_neg hif]
            refine hrun _ ((hfall hnot).trans (hfallback.trans ?_))
            rw [hD]
            simp [CG.exit]

end Switch

/-! ## Blocks -/

/-- A block behind what is registered so far; every statement of it runs. -/
theorem blockItems_runs {outer : CG E} (hout : outer.Stops) {body : List (Stmt E)} {g : CG E}
    {registered : List (Cleanup E)} (hcleanup : g.cleanup = registered ++ outer.cleanup)
    (hloop : g.loop = outer.loop)
    (hbody : ∀ s ∈ body, ∀ g : CG E, g.Stops → g.loop = outer.loop → Runs M fuel g s)
    (env : ℕ → Option ν) :
    Code.runAll M fuel env none
        ((blockItems M g body).1 ++
          cleanupEmit M none (blockItems M g body).2.cleanup outer.cleanup)
      = execItems M fuel registered body >>= outer.exit M := by
  induction body generalizing g registered env with
  | nil =>
      have h : Code.runAll M fuel env none
          (cleanupEmit M none (registered ++ outer.cleanup) outer.cleanup ++ []) =
            M.unwind none registered >>= fun _ ↦ Code.runAll M fuel env none [] :=
        runAll_cleanup none registered outer.cleanup env []
      rw [List.append_nil, ← hcleanup] at h
      simp [blockItems, h, execItems, leave, Exit.returning, CG.exit]
  | cons s body ih =>
      have hstops : g.Stops := by
        intro id stop h
        rw [hcleanup]
        exact (hout id stop (hloop ▸ h)).trans (List.suffix_append ..)
      obtain ⟨hframe, hframeLoop⟩ := statement_frame (M := M) g s
      have hregistered : (statement M g s).2.cleanup =
          (registers s ++ registered) ++ outer.cleanup := by
        rw [hframe, hcleanup, List.append_assoc]
      have hnext := ih hregistered (hframeLoop.trans hloop)
        fun s' hs' ↦ hbody s' (List.mem_cons_of_mem _ hs')
      have hsteady : Steady M fuel ((blockItems M (statement M g s).2 body).1 ++
          cleanupEmit M none (blockItems M (statement M g s).2 body).2.cleanup outer.cleanup) :=
        fun env env' ↦ (hnext env).trans (hnext env').symm
      have hs := hbody s (List.mem_cons_self ..) g hstops hloop _
        (plain_append (plain_blockItems body (statement M g s).2) (plain_cleanupEmit _ _ _))
        hsteady env
      rw [blockItems, List.append_assoc]
      refine hs.trans ?_
      rw [execItems, bind_assoc]
      refine bind_congr fun o ↦ ?_
      cases o with
      | normal => exact hnext env
      | broke => exact exit_inner (o := .broke) hout hloop hcleanup nofun
      | continued => exact exit_inner (o := .continued) hout hloop hcleanup nofun
      | returned v a => exact exit_inner (o := .returned v a) hout hloop hcleanup nofun

/-! ## Bodies -/

mutual

/-- What the parser makes: a loop begins with a variable or an expression. -/
def parsed : Stmt E → Bool
  | .block body => parsedAll body
  | .ite _ body b =>
      parsed body &&
        (match b with
        | some b => parsed b
        | none => true)
  | .switch _ items => parsedItems items
  | .while _ body | .range _ body => parsed body
  | .for a _ _ body =>
      (match a with
        | none | some (.var _ _) | some (.expr _) => true
        | _ => false) && parsed body
  | .var _ _ | .expr _ | .ret _ | .break | .continue | .defer _ | .delete _ => true

def parsedAll : List (Stmt E) → Bool
  | [] => true
  | s :: body => parsed s && parsedAll body

def parsedItems : List (Item E) → Bool
  | [] => true
  | (_, body) :: items => parsedAll body && parsedItems items

end

/-- The blocks of a statement that is accepted. -/
theorem runsBlock_of {g : CG E} (hg : g.Stops) {body : List (Stmt E)}
    (hbody : ∀ s ∈ body, ∀ g' : CG E, g'.Stops → g'.loop = g.loop → Runs M fuel g' s) :
    RunsBlock M fuel g body := fun serial env ↦
  blockItems_runs (g := g.counted serial) hg (List.nil_append _).symm rfl hbody env

variable {K : Checks E}

mutual

theorem statement_runs : ∀ (s : Stmt E) (depth switchLoop : ℕ),
    checkStmt K depth switchLoop s = true → parsed s = true → ∀ g : CG E,
      g.Stops → (depth ≠ 0 → g.loop.isSome) → Runs M fuel g s
  | .block body, depth, switchLoop, hs, hp, g, hg, hd => by
      refine runs_block fun env ↦ blockItems_runs hg (List.nil_append _).symm rfl ?_ env
      exact fun s hs' g' hg' hloop ↦
        statements_run body depth switchLoop hs hp s hs' g' hg' (hloop ▸ hd)
  | .var locals a, _, _, _, _, g, _, _ => runs_var locals a
  | .expr a, _, _, _, _, g, _, _ => runs_expr a
  | .ret a, _, _, _, _, g, _, _ => runs_ret a
  | .ite a body b, depth, switchLoop, hs, hp, g, hg, hd => by
      have hbody : checkStmt K depth switchLoop body = true ∧ parsed body = true := by
        cases b <;> simp_all [checkStmt, parsed]
      refine runs_ite (fun serial ↦
        statement_runs body depth switchLoop hbody.1 hbody.2 (g.counted serial) hg hd) ?_
      cases b with
      | none => exact nofun
      | some b =>
          rintro _ ⟨⟩ serial
          rw [checkStmt, Bool.and_eq_true] at hs
          rw [parsed, Bool.and_eq_true] at hp
          exact statement_runs b depth switchLoop hs.2 hp.2 (g.counted serial) hg hd
  | .switch a items, depth, switchLoop, hs, hp, g, hg, hd => by
      rw [checkStmt, Bool.and_eq_true] at hs
      refine runs_switch fun item hitem ↦ runsBlock_of hg ?_
      exact fun s hs' g' hg' hloop ↦
        items_run items depth hs.2 hp item hitem s hs' g' hg' (hloop ▸ hd)
  | .while a body, depth, switchLoop, hs, hp, g, _, _ => by
      rw [checkStmt, Bool.and_eq_true] at hs
      exact runs_while fun inner hinner hloop ↦
        statement_runs body (depth + 1) switchLoop hs.2 hp inner hinner fun _ ↦ hloop
  | .for a b c body, depth, switchLoop, hs, hp, g, _, _ => by
      have hbody : checkStmt K (depth + 1) switchLoop body = true := by
        cases a <;> simp_all [checkStmt]
      have hinit : (∀ s, a = some s → (∃ locals b, s = .var locals b) ∨ ∃ b, s = .expr b) ∧
          parsed body = true := by
        cases a with
        | none => simpa [parsed] using hp
        | some s => cases s <;> simp_all [parsed]
      exact runs_for hinit.1 fun inner hinner hloop ↦
        statement_runs body (depth + 1) switchLoop hbody hinit.2 inner hinner fun _ ↦ hloop
  | .range a body, depth, switchLoop, hs, hp, g, _, _ => by
      rw [checkStmt, Bool.and_eq_true] at hs
      exact runs_range fun inner hinner hloop ↦
        statement_runs body (depth + 1) switchLoop hs.2 hp inner hinner fun _ ↦ hloop
  | .break, depth, _, hs, _, g, hg, hd =>
      runs_break hg (hd (by simpa using (Bool.and_eq_true_iff.mp hs).2))
  | .continue, depth, _, hs, _, g, hg, hd => runs_continue hg (hd (by simpa [checkStmt] using hs))
  | .defer a, _, _, _, _, g, _, _ => runs_defer a
  | .delete a, _, _, _, _, g, _, _ => runs_delete a

theorem statements_run : ∀ (body : List (Stmt E)) (depth switchLoop : ℕ),
    checkBlock K depth switchLoop body = true → parsedAll body = true →
      ∀ s ∈ body, ∀ g : CG E, g.Stops → (depth ≠ 0 → g.loop.isSome) → Runs M fuel g s
  | [], _, _, _, _, _, hs, _, _, _ => absurd hs List.not_mem_nil
  | s :: body, depth, switchLoop, hb, hp, s', hs', g, hg, hd => by
      rw [checkBlock, Bool.and_eq_true] at hb
      rw [parsedAll, Bool.and_eq_true] at hp
      rcases List.mem_cons.mp hs' with h | hs'
      · rw [h]
        exact statement_runs s depth switchLoop hb.1 hp.1 g hg hd
      · exact statements_run body depth switchLoop hb.2 hp.2 s' hs' g hg hd

theorem items_run : ∀ (items : List (Item E)) (depth : ℕ),
    checkItems K depth items = true → parsedItems items = true → ∀ item ∈ items, ∀ s ∈ item.2,
      ∀ g : CG E, g.Stops → (depth ≠ 0 → g.loop.isSome) → Runs M fuel g s
  | [], _, _, _, _, hitem, _, _, _, _, _ => absurd hitem List.not_mem_nil
  | (labels, body) :: items, depth, hi, hp, item, hitem, s, hs, g, hg, hd => by
      rw [checkItems, Bool.and_eq_true] at hi
      rw [parsedItems, Bool.and_eq_true] at hp
      rcases List.mem_cons.mp hitem with h | hitem
      · rw [h] at hs
        exact statements_run body depth (depth + 1) hi.1 hp.1 s hs g hg hd
      · exact items_run items depth hi.2 hp.2 item hitem s hs g hg hd

end

/-- A function that is accepted runs its deferred expressions and destructors as its scopes are
left: the code that is emitted for it has the effects and the result of its body. -/
theorem function_runs {body : List (Stmt E)} (hbody : checkBlock K 0 0 body = true)
    (hparsed : parsedAll body = true) :
    runFunction M fuel (function M body) = execFunction M fuel body := by
  have hstops : (⟨[], none, 0⟩ : CG E).Stops := nofun
  have h : Code.runAll M fuel (fun _ ↦ none) none
      ((blockItems M ⟨[], none, 0⟩ body).1 ++
        cleanupEmit M none (blockItems M ⟨[], none, 0⟩ body).2.cleanup []) =
        execItems M fuel [] body >>= (⟨[], none, 0⟩ : CG E).exit M :=
    blockItems_runs hstops (List.nil_append _).symm rfl
      (fun s hs g hg _ ↦ statements_run body 0 0 hbody hparsed s hs g hg (absurd rfl)) fun _ ↦ none
  rw [runFunction, function]
  refine (congrArg (· >>= _) h).trans ?_
  rw [bind_assoc, execFunction]
  refine bind_congr fun o ↦ ?_
  cases o with
  | normal => simp [CG.exit]
  | broke | continued => simp [CG.exit, Meaning.unwind, exhausted_bind]
  | returned v a => simp [CG.exit, Meaning.unwind]

/-- Every expression is a number; its evaluation and the destructors leave a trace. -/
def Meaning.tracing : Meaning ℕ (List ℕ) ℕ where
  eval a := fun trace ↦ some (.ok a, trace ++ [a])
  truth v := v != 0
  isLabel v a := v == a
  define _ _ := pure ()
  drop l := fun trace ↦ some (.ok (), trace ++ [100 + l.id])
  delete _ := pure ()
  start _ := pure ()
  next _ := pure false
  advance _ := pure ()
  returnedLocal a l := a == l.id
  isEnum _ := false

/-- Two variables, a loop that is left by `break`, and a `return` of one of the variables. -/
def nestedScopes : List (Stmt ℕ) :=
  [.var [⟨1, true⟩] none, .var [⟨2, true⟩] none, .defer 10,
    .while 20 (.block [.defer 11, .ite 21 .break none]), .ret (some 1)]

theorem function_runs_nested :
    runFunction .tracing 2 (function .tracing nestedScopes)
        = execFunction .tracing 2 nestedScopes ∧
      execFunction .tracing 2 nestedScopes [] = some (.ok (some 1), [20, 21, 11, 1, 10, 102]) :=
  ⟨function_runs (K := ⟨fun _ ↦ true, fun _ ↦ none, fun _ ↦ ""⟩) (by decide) (by decide), rfl⟩

end TinyCPlus.Compiler.Unwinding
