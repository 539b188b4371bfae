import Mathlib

/-!
# Arguments of calls (`check_args`, `arg_values`, `append_args`)

`check_args` writes on every argument which parameter it is for and puts the missing
defaults behind the explicit arguments.  The emitted code evaluates this list into
temporaries and picks them by parameter.
-/

namespace TinyCPlus.Compiler

variable {E : Type}

/-! ## Binding -/

/-- A parameter with the expression of its default. -/
structure Param (E : Type) where
  name : String
  default : Option E

/-- The parser takes `...` as the last parameter only. -/
structure Params (E : Type) where
  fixed : List (Param E)
  variadic : Bool

structure Arg (E : Type) where
  label : Option String
  expr : E
  parameter : Option ℕ

inductive ArgError where
  | unknownLabel (label : String)
  | positionalAfterNamed
  | tooMany
  | suppliedTwice (name : String)
  | wrongType
  | notLiteral
  | missing (name : String)
deriving DecidableEq, Repr

/-- What `check_expr` and `require` say about an argument of a parameter, and about one
without a parameter. -/
structure ArgTypes (E : Type) where
  accepts : ℕ → E → Bool
  checks : E → Bool
  isLiteral : E → Bool

variable (C : ArgTypes E) (ps : Params E)

/-- The parameter that an argument is for; the one behind the others is `...`. -/
def argTarget (p : ℕ) (named : Bool) (arg : Arg E) : Except ArgError ℕ :=
  match arg.label with
  | some label =>
      match ps.fixed.findIdx? (·.name == label) with
      | some i => .ok i
      | none => .error (.unknownLabel label)
  | none =>
      if named then .error .positionalAfterNamed
      else if p < ps.fixed.length ∨ ps.variadic = true then .ok p
      else .error .tooMany

/-- The first loop of `check_args`, behind the arguments `done`. -/
def bindLoop : ℕ → Bool → List (Arg E) → List (Arg E) → Except ArgError (List (Arg E))
  | _, _, done, [] => .ok done
  | p, named, done, arg :: rest =>
      match argTarget ps p named arg with
      | .error e => .error e
      | .ok target =>
          let named := named || arg.label.isSome
          match ps.fixed[target]? with
          | none =>
              if C.checks arg.expr then bindLoop p named (done ++ [arg]) rest
              else .error .wrongType
          | some param =>
              if done.any (·.parameter == some target) then .error (.suppliedTwice param.name)
              else if C.accepts target arg.expr then
                bindLoop (if arg.label.isNone then p + 1 else p) named
                  (done ++ [{ arg with parameter := some target }]) rest
              else .error .wrongType

/-- The second loop, from the parameter with the number `i`. -/
def fillDefaults : ℕ → List (Param E) → List (Arg E) → Except ArgError (List (Arg E))
  | _, [], args => .ok args
  | i, param :: rest, args =>
      if args.any (·.parameter == some i) then fillDefaults (i + 1) rest args
      else
        match param.default with
        | none => .error (.missing param.name)
        | some value =>
            if C.isLiteral value = false then .error .notLiteral
            else if C.accepts i value then
              fillDefaults (i + 1) rest (args ++ [⟨none, value, some i⟩])
            else .error .wrongType

def checkArgs (args : List (Arg E)) : Except ArgError (List (Arg E)) :=
  match bindLoop C ps 0 false [] args with
  | .error e => .error e
  | .ok args => fillDefaults C 0 ps.fixed args

/-! ## The emitted call -/

/-- A call in the emitted code: the expressions that go into temporaries, one line after
the other, and what is passed, as the parameter that a value is converted for and the
number of its temporary. -/
structure EmittedCall (E : Type) where
  lines : List E
  passed : List (Option ℕ × ℕ)

/-- The temporaries of the arguments for a parameter, or without one. -/
def argValues (args : List (Arg E)) (parameter : Option ℕ) : List ℕ :=
  (List.range args.length).filter fun j ↦ args[j]?.any (·.parameter == parameter)

def appendArgs (args : List (Arg E)) : List (Option ℕ × ℕ) :=
  if ps.fixed.length = 0 ∧ ps.variadic = false then
    (List.range args.length).map fun j ↦ (none, j)
  else
    ((List.range ps.fixed.length).filterMap fun i ↦
      (argValues args (some i)).head?.map fun j ↦ (some i, j)) ++
    if ps.variadic then (argValues args none).map fun j ↦ (none, j) else []

def emitCall (args : List (Arg E)) : EmittedCall E := ⟨args.map Arg.expr, appendArgs ps args⟩

/-! ## What a call means -/

/-- The explicit argument with the number `j` is for the parameter with the number `i`, by
its position or by its label. -/
def BoundTo (args : List (Arg E)) (i j : ℕ) : Prop :=
  i < ps.fixed.length ∧ ∃ arg ∈ args[j]?,
    match arg.label with
    | some label => ps.fixed.findIdx? (·.name == label) = some i
    | none => j = i

/-- A list of explicit arguments that gives every parameter at most one value, and one to
those without a default. -/
structure WellBound (args : List (Arg E)) : Prop where
  known : ∀ arg ∈ args, ∀ label ∈ arg.label, ∃ param ∈ ps.fixed, param.name = label
  namedLast : args.Pairwise fun a b ↦ a.label.isSome → b.label.isSome
  fits : ∀ j, ∀ arg ∈ args[j]?, arg.label = none → j < ps.fixed.length ∨ ps.variadic = true
  once : ∀ i j j', BoundTo ps args i j → BoundTo ps args i j' → j = j'
  every : ∀ i (hi : i < ps.fixed.length), (∃ j, BoundTo ps args i j) ∨
    ps.fixed[i].default.isSome

/-! ## The first loop -/

/-- The parameter that the argument with the number `j` is for. -/
def bindsTo (j : ℕ) (arg : Arg E) : Option ℕ :=
  match arg.label with
  | some label => ps.fixed.findIdx? (·.name == label)
  | none => if j < ps.fixed.length then some j else none

/-- The arguments from the number `j` on, with their parameters. -/
def bound : ℕ → List (Arg E) → List (Arg E)
  | _, [] => []
  | j, arg :: rest => { arg with parameter := bindsTo ps j arg } :: bound (j + 1) rest

/-- There is a parameter for the argument. -/
def Admitted (j : ℕ) (arg : Arg E) : Prop :=
  match arg.label with
  | some label => (ps.fixed.findIdx? (·.name == label)).isSome
  | none => j < ps.fixed.length ∨ ps.variadic = true

variable {C ps}

theorem bindsTo_lt {j i : ℕ} {arg : Arg E} (h : bindsTo ps j arg = some i) :
    i < ps.fixed.length := by
  rw [bindsTo] at h
  split at h
  · exact List.findIdx?_eq_some_iff_getElem.mp h |>.1
  · split at h
    · cases h
      assumption
    · cases h

theorem admitted_iff {j : ℕ} {arg : Arg E} : Admitted ps j arg ↔
    (bindsTo ps j arg).isSome = true ∨ arg.label = none ∧ ps.variadic = true := by
  rw [Admitted, bindsTo]
  split
  · rename_i label hlabel
    simp [hlabel]
  · rename_i hlabel
    split
    · rename_i hlt
      simp [hlt]
    · rename_i hlt
      simp [hlt, hlabel]

/-- What the loop does with an argument, once its parameter is known. -/
theorem bindLoop_target {p target : ℕ} {named : Bool} {done rest out : List (Arg E)} {arg : Arg E}
    (htarget : argTarget ps p named arg = .ok target) (hlt : target < ps.fixed.length)
    (h : bindLoop C ps p named done (arg :: rest) = .ok out) :
    (∀ a ∈ done, a.parameter ≠ some target) ∧
      bindLoop C ps (if arg.label.isNone then p + 1 else p) (named || arg.label.isSome)
        (done ++ [{ arg with parameter := some target }]) rest = .ok out := by
  rw [bindLoop, htarget] at h
  dsimp only at h
  rw [List.getElem?_eq_getElem hlt] at h
  dsimp only at h
  split at h
  · cases h
  · rename_i hany
    split at h
    · refine ⟨fun a ha hparameter ↦ hany ?_, h⟩
      exact List.any_eq_true.mpr ⟨a, ha, by rw [hparameter, beq_self_eq_true]⟩
    · cases h

/-- One turn of the first loop. -/
theorem bindLoop_cons {p : ℕ} {named : Bool} {done rest out : List (Arg E)} {arg : Arg E}
    (hp : named = false → p = min done.length ps.fixed.length)
    (hfresh : bindsTo ps done.length arg = none → arg.parameter = none)
    (h : bindLoop C ps p named done (arg :: rest) = .ok out) :
    Admitted ps done.length arg ∧ (named = true → arg.label.isSome = true) ∧
      (∀ i, bindsTo ps done.length arg = some i → ∀ a ∈ done, a.parameter ≠ some i) ∧
      ∃ p', ((named || arg.label.isSome) = false → p' = min (done.length + 1) ps.fixed.length) ∧
        bindLoop C ps p' (named || arg.label.isSome)
          (done ++ [{ arg with parameter := bindsTo ps done.length arg }]) rest = .ok out := by
  cases hlabel : arg.label with
  | some label =>
      cases hfind : ps.fixed.findIdx? (·.name == label) with
      | none =>
          rw [bindLoop, argTarget, hlabel] at h
          dsimp only at h
          rw [hfind] at h
          cases h
      | some i =>
          have htarget : argTarget ps p named arg = .ok i := by
            rw [argTarget, hlabel]
            dsimp only
            rw [hfind]
          have hbinds : bindsTo ps done.length arg = some i := by
            rw [bindsTo, hlabel]
            exact hfind
          obtain ⟨hother, hrest⟩ := bindLoop_target htarget (bindsTo_lt hbinds) h
          rw [hlabel] at hrest
          refine ⟨?_, fun _ ↦ rfl, fun j hj ↦ ?_, p, ?_, ?_⟩
          · rw [Admitted, hlabel]
            dsimp only
            rw [hfind]
            rfl
          · rw [hbinds] at hj
            exact Option.some.inj hj ▸ hother
          · rw [Option.isSome_some, Bool.or_true]
            exact fun hfalse ↦ by cases hfalse
          · rw [hbinds]
            exact hrest
  | none =>
      cases named with
      | true =>
          rw [bindLoop, argTarget, hlabel] at h
          cases h
      | false =>
          have hpos := hp rfl
          by_cases hlt : p < ps.fixed.length
          · have htarget : argTarget ps p false arg = .ok p := by
              rw [argTarget, hlabel]
              dsimp only
              rw [if_neg Bool.false_ne_true, if_pos (Or.inl hlt)]
            have hdone : p = done.length := by omega
            have hbinds : bindsTo ps done.length arg = some p := by
              rw [bindsTo, hlabel]
              dsimp only
              rw [← hdone, if_pos hlt]
            obtain ⟨hother, hrest⟩ := bindLoop_target htarget hlt h
            rw [hlabel] at hrest
            refine ⟨?_, fun hfalse ↦ absurd hfalse Bool.false_ne_true, fun j hj ↦ ?_, p + 1, fun _ ↦ (by omega), ?_⟩
            · rw [Admitted, hlabel]
              exact Or.inl (hdone ▸ hlt)
            · rw [hbinds] at hj
              exact Option.some.inj hj ▸ hother
            · rw [hbinds]
              exact hrest
          · have hge : ps.fixed.length ≤ done.length := by omega
            have hbinds : bindsTo ps done.length arg = none := by
              rw [bindsTo, hlabel]
              exact if_neg (by omega)
            rw [bindLoop, argTarget, hlabel] at h
            dsimp only at h
            rw [if_neg Bool.false_ne_true] at h
            split at h
            · cases h
            · rename_i target htarget
              split at htarget
              · rename_i hvariadic
                cases htarget
                rw [List.getElem?_eq_none (by omega)] at h
                dsimp only at h
                split at h
                · have harg : { arg with label := none, parameter := none } = arg := by
                    rw [← hfresh hbinds, ← hlabel]
                  refine ⟨?_, fun hfalse ↦ absurd hfalse Bool.false_ne_true, fun j hj ↦ ?_, p,
                    fun _ ↦ (by omega), ?_⟩
                  · rw [Admitted, hlabel]
                    exact Or.inr (hvariadic.resolve_left hlt)
                  · rw [hbinds] at hj
                    cases hj
                  · rw [hbinds, harg]
                    exact h
                · cases h
              · cases htarget

variable (ps) in
/-- What the first loop leaves, from the arguments `args` with `named` when a label has come
before them. -/
structure Bound (named : Bool) (n : ℕ) (done args out : List (Arg E)) : Prop where
  out_eq : out = done ++ bound ps n args
  admitted : ∀ j, ∀ arg ∈ args[j]?, Admitted ps (n + j) arg
  labelled : named = true → ∀ arg ∈ args, arg.label.isSome = true
  namedLast : args.Pairwise fun a b ↦ a.label.isSome = true → b.label.isSome = true
  once : (done.filterMap Arg.parameter).Nodup → (out.filterMap Arg.parameter).Nodup

/-- The first loop, by induction on the arguments that are left. -/
theorem bindLoop_ok {p : ℕ} {named : Bool} {done args out : List (Arg E)}
    (hp : named = false → p = min done.length ps.fixed.length)
    (hfresh : ∀ j, ∀ arg ∈ args[j]?, bindsTo ps (done.length + j) arg = none →
      arg.parameter = none)
    (h : bindLoop C ps p named done args = .ok out) :
    Bound ps named done.length done args out := by
  induction args generalizing p named done with
  | nil =>
      rw [bindLoop] at h
      cases h
      exact ⟨(List.append_nil _).symm, fun j arg harg ↦ (by cases harg),
        fun _ arg harg ↦ absurd harg List.not_mem_nil, .nil, id⟩
  | cons arg args ih =>
      obtain ⟨hadmitted, hnamed, hother, p', hp', hrest⟩ := bindLoop_cons hp
        (hfresh 0 arg rfl) h
      have hlength : (done ++ [{ arg with parameter := bindsTo ps done.length arg }]).length =
          done.length + 1 := List.length_append
      have hbound := ih (by rwa [hlength]) (fun j a ha hnone ↦ hfresh (j + 1) a ha (by
        rw [hlength, Nat.add_assoc, Nat.add_comm 1] at hnone
        exact hnone)) hrest
      rw [hlength] at hbound
      refine ⟨?_, ?_, ?_, ?_, ?_⟩
      · rw [hbound.out_eq, List.append_assoc]
        rfl
      · intro j a ha
        cases j with
        | zero =>
            cases ha
            exact hadmitted
        | succ j =>
            have hnext := hbound.admitted j a ha
            rwa [Nat.add_assoc, Nat.add_comm 1] at hnext
      · intro htrue a ha
        rcases List.mem_cons.mp ha with rfl | ha
        · exact hnamed htrue
        · exact hbound.labelled (by rw [htrue, Bool.true_or]) a ha
      · refine .cons (fun a ha hsome ↦ ?_) hbound.namedLast
        exact hbound.labelled (by rw [hsome, Bool.or_true]) a ha
      · intro hnodup
        apply hbound.once
        rw [List.filterMap_append, List.nodup_append]
        refine ⟨hnodup, ?_, ?_⟩
        · cases hbinds : bindsTo ps done.length arg with
          | none => exact List.nodup_nil
          | some i => exact List.nodup_singleton i
        · intro i hi i' hi' heq
          obtain ⟨a, ha, hparameter⟩ := List.mem_filterMap.mp hi
          obtain ⟨b, hb, hparameter'⟩ := List.mem_filterMap.mp hi'
          rw [List.mem_singleton.mp hb] at hparameter'
          exact hother i' hparameter' a ha (heq ▸ hparameter)

/-! ## The second loop -/

/-- What the second loop adds: defaults of the parameters that have no argument yet. -/
structure Filled (ps : Params E) (n : ℕ) (args out : List (Arg E)) (added : List (ℕ × E)) :
    Prop where
  out_eq : out = args ++ added.map fun d ↦ ⟨none, d.2, some d.1⟩
  defaults : ∀ d ∈ added, n ≤ d.1 ∧ (ps.fixed[d.1]?.bind Param.default) = some d.2 ∧
    ∀ a ∈ args, a.parameter ≠ some d.1
  sorted : (added.map Prod.fst).Pairwise (· < ·)
  every : ∀ i, n ≤ i → i < ps.fixed.length → (∃ a ∈ args, a.parameter = some i) ∨
    ∃ d ∈ added, d.1 = i

/-- The second loop, by induction on the parameters that are left. -/
theorem fillDefaults_ok {n : ℕ} {rest : List (Param E)} (hrest : rest = ps.fixed.drop n)
    {args out : List (Arg E)} (h : fillDefaults C n rest args = .ok out) :
    ∃ added, Filled ps n args out added := by
  induction rest generalizing n args with
  | nil =>
      rw [fillDefaults] at h
      cases h
      have hlength : ps.fixed.length ≤ n := List.drop_eq_nil_iff.mp hrest.symm
      exact ⟨[], (List.append_nil _).symm, fun d hd ↦ absurd hd List.not_mem_nil, .nil,
        fun i hi hlt ↦ absurd (hlength.trans hi) (not_le.mpr hlt)⟩
  | cons param rest ih =>
      have hlt : n < ps.fixed.length := by
        by_contra hge
        rw [List.drop_eq_nil_iff.mpr (not_lt.mp hge)] at hrest
        cases hrest
      rw [List.drop_eq_getElem_cons hlt] at hrest
      obtain ⟨hparam, hnext⟩ := List.cons.inj hrest
      rw [fillDefaults] at h
      split at h
      · rename_i hany
        obtain ⟨a, ha, hparameter⟩ := List.any_eq_true.mp hany
        obtain ⟨added, hfilled⟩ := ih hnext h
        refine ⟨added, hfilled.out_eq, fun d hd ↦ ?_, hfilled.sorted, fun i hi hlast ↦ ?_⟩
        · obtain ⟨hle, hdefault⟩ := hfilled.defaults d hd
          exact ⟨by omega, hdefault⟩
        · rcases hi.eq_or_lt with rfl | hi
          · exact Or.inl ⟨a, ha, eq_of_beq hparameter⟩
          · exact hfilled.every i hi hlast
      · rename_i hany
        split at h
        · cases h
        · rename_i value hdefault
          split at h
          · cases h
          · split at h
            · obtain ⟨added, hfilled⟩ := ih hnext h
              refine ⟨(n, value) :: added, ?_, ?_, ?_, ?_⟩
              · rw [hfilled.out_eq, List.append_assoc]
                rfl
              · intro d hd
                rcases List.mem_cons.mp hd with rfl | hd
                · refine ⟨le_rfl, ?_, fun a ha hparameter ↦ hany ?_⟩
                  · rw [List.getElem?_eq_getElem hlt, Option.bind_some, ← hparam, hdefault]
                  · exact List.any_eq_true.mpr ⟨a, ha, by rw [hparameter, beq_self_eq_true]⟩
                · obtain ⟨hle, hvalue, hnone⟩ := hfilled.defaults d hd
                  exact ⟨by omega, hvalue, fun a ha ↦ hnone a (List.mem_append_left _ ha)⟩
              · refine .cons (fun i hi ↦ ?_) hfilled.sorted
                obtain ⟨d, hd, rfl⟩ := List.mem_map.mp hi
                exact (hfilled.defaults d hd).1
              · intro i hi hlast
                rcases hi.eq_or_lt with rfl | hi
                · exact Or.inr ⟨_, List.mem_cons_self, rfl⟩
                · rcases hfilled.every i hi hlast with ⟨a, ha, hparameter⟩ | ⟨d, hd, heq⟩
                  · rcases List.mem_append.mp ha with ha | ha
                    · exact Or.inl ⟨a, ha, hparameter⟩
                    · rw [List.mem_singleton.mp ha] at hparameter
                      cases hparameter
                      omega
                  · exact Or.inr ⟨d, List.mem_cons_of_mem _ hd, heq⟩
            · cases h

/-! ## Positions in the list -/

theorem bound_getElem? (n j : ℕ) (args : List (Arg E)) : (bound ps n args)[j]? =
    args[j]?.map fun a ↦ { a with parameter := bindsTo ps (n + j) a } := by
  induction args generalizing n j with
  | nil => rfl
  | cons a args ih =>
      cases j with
      | zero => rfl
      | succ j =>
          rw [bound, List.getElem?_cons_succ, List.getElem?_cons_succ, ih, Nat.add_assoc,
            Nat.add_comm 1]

theorem bound_length (n : ℕ) (args : List (Arg E)) : (bound ps n args).length = args.length := by
  induction args generalizing n with
  | nil => rfl
  | cons a args ih => rw [bound, List.length_cons, List.length_cons, ih]

theorem bound_exprs (n : ℕ) (args : List (Arg E)) :
    (bound ps n args).map Arg.expr = args.map Arg.expr := by
  induction args generalizing n with
  | nil => rfl
  | cons a args ih => rw [bound, List.map_cons, List.map_cons, ih]

theorem boundTo_iff {args : List (Arg E)} {i j : ℕ} :
    BoundTo ps args i j ↔ ∃ a ∈ args[j]?, bindsTo ps j a = some i := by
  constructor
  · rintro ⟨hlt, a, ha, hbinds⟩
    refine ⟨a, ha, ?_⟩
    rw [bindsTo]
    split at hbinds
    · exact hbinds
    · rw [hbinds]
      exact if_pos hlt
  · rintro ⟨a, ha, hbinds⟩
    refine ⟨bindsTo_lt hbinds, a, ha, ?_⟩
    rw [bindsTo] at hbinds
    split at hbinds
    · exact hbinds
    · split at hbinds
      · exact Option.some.inj hbinds
      · cases hbinds

/-- Two arguments for one parameter are the same one. -/
theorem index_unique {args : List (Arg E)} (h : (args.filterMap Arg.parameter).Nodup)
    {i j j' : ℕ} {a a' : Arg E} (ha : args[j]? = some a) (ha' : args[j']? = some a')
    (hi : a.parameter = some i) (hi' : a'.parameter = some i) : j = j' := by
  have hpairs := List.pairwise_iff_getElem.mp (List.pairwise_filterMap.mp h)
  obtain ⟨hj, hget⟩ := List.getElem?_eq_some_iff.mp ha
  obtain ⟨hj', hget'⟩ := List.getElem?_eq_some_iff.mp ha'
  rcases lt_trichotomy j j' with hlt | heq | hgt
  · exact absurd rfl (hpairs j j' hj hj' hlt i (hget ▸ hi) i (hget' ▸ hi'))
  · exact heq
  · exact absurd rfl (hpairs j' j hj' hj hgt i (hget' ▸ hi') i (hget ▸ hi))

/-! ## Checked calls -/

/-- What `check_args` has done to the arguments of an accepted call. -/
structure Checked (ps : Params E) (args out : List (Arg E)) (added : List (ℕ × E)) : Prop where
  first : Bound ps false 0 [] args (bound ps 0 args)
  second : Filled ps 0 (bound ps 0 args) out added

theorem checkArgs_ok {args out : List (Arg E)}
    (hfresh : ∀ j, ∀ arg ∈ args[j]?, bindsTo ps j arg = none → arg.parameter = none)
    (h : checkArgs C ps args = .ok out) : ∃ added, Checked ps args out added := by
  rw [checkArgs] at h
  split at h
  · cases h
  · rename_i mid hloop
    have hfirst := bindLoop_ok (fun _ ↦ (Nat.zero_min _).symm)
      (fun j arg harg hnone ↦ hfresh j arg harg (by rwa [List.length_nil, Nat.zero_add] at hnone))
      hloop
    have hmid : mid = bound ps 0 args := hfirst.out_eq
    obtain ⟨added, hsecond⟩ := fillDefaults_ok List.drop_zero.symm h
    exact ⟨added, hmid ▸ hfirst, hmid ▸ hsecond⟩

namespace Checked

variable {args out : List (Arg E)} {added : List (ℕ × E)} (h : Checked ps args out added)

include h

theorem nodup : ((bound ps 0 args).filterMap Arg.parameter).Nodup := h.first.once List.nodup_nil

theorem out_nodup : (out.filterMap Arg.parameter).Nodup := by
  have hadded : (added.map fun d ↦ (⟨none, d.2, some d.1⟩ : Arg E)).filterMap Arg.parameter =
      added.map Prod.fst := by
    rw [List.filterMap_map, ← List.filterMap_eq_map]
    rfl
  rw [h.second.out_eq, List.filterMap_append, hadded, List.nodup_append]
  refine ⟨h.nodup, h.second.sorted.imp (fun hlt ↦ hlt.ne), fun i hi k hk heq ↦ ?_⟩
  obtain ⟨a, ha, hparameter⟩ := List.mem_filterMap.mp hi
  obtain ⟨d, hd, rfl⟩ := List.mem_map.mp hk
  exact (h.second.defaults d hd).2.2 a ha (heq ▸ hparameter)

/-- An explicit argument stands where it was written. -/
theorem explicit {j : ℕ} {a : Arg E} (ha : args[j]? = some a) :
    out[j]? = some { a with parameter := bindsTo ps j a } := by
  have hlt : j < (bound ps 0 args).length := by
    rw [bound_length]
    exact (List.getElem?_eq_some_iff.mp ha).1
  rw [h.second.out_eq, List.getElem?_append_left hlt, bound_getElem?, ha, Nat.zero_add]
  rfl

/-- What stands behind the explicit arguments is a default. -/
theorem added_at {j : ℕ} {a : Arg E} (ha : out[j]? = some a) (hj : args.length ≤ j) :
    ∃ d ∈ added, a = ⟨none, d.2, some d.1⟩ := by
  rw [h.second.out_eq, List.getElem?_append_right (by rwa [bound_length])] at ha
  obtain ⟨d, hd, rfl⟩ := List.mem_map.mp (List.mem_of_getElem? ha)
  exact ⟨d, hd, rfl⟩

theorem boundTo_of_parameter {i j : ℕ} {a : Arg E} (ha : out[j]? = some a)
    (hi : a.parameter = some i) (hj : j < args.length) : BoundTo ps args i j := by
  have hexplicit := h.explicit (List.getElem?_eq_getElem hj)
  rw [ha] at hexplicit
  cases hexplicit
  exact boundTo_iff.mpr ⟨_, List.getElem?_eq_getElem hj, hi⟩

theorem wellBound : WellBound ps args where
  known := by
    intro arg harg label hlabel
    obtain ⟨j, hj⟩ := List.getElem?_of_mem harg
    have hadmitted := h.first.admitted j arg hj
    rw [Admitted, Option.mem_def.mp hlabel] at hadmitted
    obtain ⟨i, hi⟩ := Option.isSome_iff_exists.mp hadmitted
    obtain ⟨hlt, hname, -⟩ := List.findIdx?_eq_some_iff_getElem.mp hi
    exact ⟨_, List.getElem_mem hlt, eq_of_beq hname⟩
  namedLast := h.first.namedLast
  fits := by
    intro j arg harg hlabel
    have hadmitted := h.first.admitted j arg harg
    rwa [Admitted, hlabel, Nat.zero_add] at hadmitted
  once := by
    intro i j j' hj hj'
    obtain ⟨a, ha, hbinds⟩ := boundTo_iff.mp hj
    obtain ⟨a', ha', hbinds'⟩ := boundTo_iff.mp hj'
    exact index_unique h.out_nodup (h.explicit ha) (h.explicit ha') hbinds hbinds'
  every := by
    intro i hi
    rcases h.second.every i (Nat.zero_le i) hi with ⟨a, ha, hparameter⟩ | ⟨d, hd, rfl⟩
    · obtain ⟨j, hj⟩ := List.getElem?_of_mem ha
      rw [bound_getElem?, Option.map_eq_some_iff, Nat.zero_add] at hj
      obtain ⟨b, hb, rfl⟩ := hj
      exact Or.inl ⟨j, boundTo_iff.mpr ⟨b, hb, hparameter⟩⟩
    · have hdefault := (h.second.defaults d hd).2.1
      rw [List.getElem?_eq_getElem hi, Option.bind_some] at hdefault
      rw [hdefault]
      exact Or.inr rfl

/-- Without a parameter there is no argument. -/
theorem out_eq_nil (hnone : ps.fixed.length = 0 ∧ ps.variadic = false) : out = [] := by
  have hargs : args = [] := by
    rw [List.eq_nil_iff_forall_not_mem]
    intro arg harg
    obtain ⟨j, hj⟩ := List.getElem?_of_mem harg
    cases hlabel : arg.label with
    | some label =>
        obtain ⟨param, hparam, -⟩ := h.wellBound.known arg harg label hlabel
        exact List.ne_nil_of_mem hparam (List.length_eq_zero_iff.mp hnone.1)
    | none =>
        rcases h.wellBound.fits j arg hj hlabel with hlt | hvariadic
        · omega
        · rw [hnone.2] at hvariadic
          cases hvariadic
  have hadded : added = [] := by
    rw [List.eq_nil_iff_forall_not_mem]
    intro d hd
    have hdefault := (h.second.defaults d hd).2.1
    rw [List.getElem?_eq_none (by omega)] at hdefault
    cases hdefault
  rw [h.second.out_eq, hargs, hadded]
  rfl

theorem exists_argument {i : ℕ} (hi : i < ps.fixed.length) : ∃ j : ℕ, ∃ a ∈ out[j]?,
    a.parameter = some i := by
  rcases h.second.every i (Nat.zero_le i) hi with ⟨a, ha, hparameter⟩ | ⟨d, hd, rfl⟩
  · obtain ⟨j, hj⟩ := List.getElem?_of_mem (l := out)
      (h.second.out_eq ▸ List.mem_append_left _ ha)
    exact ⟨j, a, hj, hparameter⟩
  · obtain ⟨j, hj⟩ := List.getElem?_of_mem (l := out)
      (h.second.out_eq ▸ List.mem_append_right _ (List.mem_map_of_mem hd))
    exact ⟨j, _, hj, rfl⟩

/-- The argument of a parameter is the explicit one that is bound to it, else its default. -/
theorem argument_cases {i j : ℕ} {a : Arg E} (hi : i < ps.fixed.length) (ha : out[j]? = some a)
    (hparameter : a.parameter = some i) : BoundTo ps args i j ∨
      (∀ k, ¬ BoundTo ps args i k) ∧ args.length ≤ j ∧ ps.fixed[i].default = some a.expr := by
  by_cases hj : j < args.length
  · exact Or.inl (h.boundTo_of_parameter ha hparameter hj)
  · obtain ⟨d, hd, rfl⟩ := h.added_at ha (not_lt.mp hj)
    cases hparameter
    obtain ⟨-, hdefault, hother⟩ := h.second.defaults d hd
    rw [List.getElem?_eq_getElem hi, Option.bind_some] at hdefault
    refine Or.inr ⟨fun k hk ↦ ?_, not_lt.mp hj, hdefault⟩
    obtain ⟨b, hb, hbinds⟩ := boundTo_iff.mp hk
    have hmem := List.mem_of_getElem? (by rw [bound_getElem?, Option.mem_def.mp hb, Nat.zero_add]; rfl :
      (bound ps 0 args)[k]? = some { b with parameter := bindsTo ps k b })
    exact hother _ hmem hbinds

/-- The arguments without a parameter are those that nothing is bound to. -/
theorem extra_iff {j : ℕ} : (∃ a ∈ out[j]?, a.parameter = none) ↔
    j < args.length ∧ ∀ i, ¬ BoundTo ps args i j := by
  constructor
  · rintro ⟨a, ha, hnone⟩
    have hj : j < args.length := by
      by_contra hge
      obtain ⟨d, -, rfl⟩ := h.added_at ha (not_lt.mp hge)
      cases hnone
    refine ⟨hj, fun i hi ↦ ?_⟩
    obtain ⟨b, hb, hbinds⟩ := boundTo_iff.mp hi
    have hsame := Option.some.inj ((Option.mem_def.mp ha).symm.trans (h.explicit hb))
    rw [hsame] at hnone
    exact Option.some_ne_none i (hbinds.symm.trans hnone)
  · rintro ⟨hj, hfree⟩
    refine ⟨_, h.explicit (List.getElem?_eq_getElem hj), ?_⟩
    rw [Option.eq_none_iff_forall_ne_some]
    exact fun i hi ↦ hfree i (boundTo_iff.mpr ⟨_, List.getElem?_eq_getElem hj, hi⟩)

end Checked

theorem mem_argValues {args : List (Arg E)} {parameter : Option ℕ} {j : ℕ} :
    j ∈ argValues args parameter ↔ ∃ a ∈ args[j]?, a.parameter = parameter := by
  rw [argValues, List.mem_filter, List.mem_range]
  constructor
  · rintro ⟨hj, hany⟩
    rw [List.getElem?_eq_getElem hj, Option.any_some] at hany
    exact ⟨_, List.getElem?_eq_getElem hj, eq_of_beq hany⟩
  · rintro ⟨a, ha, rfl⟩
    refine ⟨(List.getElem?_eq_some_iff.mp ha).1, ?_⟩
    rw [Option.mem_def.mp ha, Option.any_some, beq_self_eq_true]

/-- What is passed is one temporary for each parameter in order, and then those without a
parameter. -/
theorem Checked.passed {args out : List (Arg E)} {added : List (ℕ × E)}
    (h : Checked ps args out added) : ∃ source : ℕ → ℕ, ∃ extras : List ℕ,
      appendArgs ps out = ((List.range ps.fixed.length).map fun i ↦ (some i, source i)) ++
        extras.map (fun j ↦ (none, j)) ∧
      (∀ i < ps.fixed.length, ∃ a ∈ out[source i]?, a.parameter = some i) ∧
      extras.Pairwise (· < ·) ∧ ∀ j, j ∈ extras ↔ ∃ a ∈ out[j]?, a.parameter = none := by
  have hhead : ∀ i, ∃ j, i < ps.fixed.length → (argValues out (some i)).head? = some j := by
    intro i
    by_cases hi : i < ps.fixed.length
    · obtain ⟨j, hj⟩ := h.exists_argument hi
      have hne : argValues out (some i) ≠ [] := List.ne_nil_of_mem (mem_argValues.mpr hj)
      exact ⟨_, fun _ ↦ List.head?_eq_some_head hne⟩
    · exact ⟨0, fun hlt ↦ absurd hlt hi⟩
  choose source hsource using hhead
  have hfixed : ((List.range ps.fixed.length).filterMap fun i ↦
      (argValues out (some i)).head?.map fun j ↦ (some i, j)) =
      (List.range ps.fixed.length).map fun i ↦ (some i, source i) := by
    rw [← List.filterMap_eq_map]
    apply List.filterMap_congr
    intro i hi
    rw [hsource i (List.mem_range.mp hi)]
    rfl
  refine ⟨source, argValues out none, ?_, fun i hi ↦ ?_, ?_, fun j ↦ mem_argValues⟩
  · rw [appendArgs, hfixed]
    split
    · rename_i hnone
      rw [h.out_eq_nil hnone, hnone.1]
      rfl
    · congr 1
      split
      · rfl
      · rename_i hvariadic
        have hempty : argValues out none = [] := by
          rw [List.eq_nil_iff_forall_not_mem]
          intro j hj
          obtain ⟨hlt, hfree⟩ := h.extra_iff.mp (mem_argValues.mp hj)
          have hj := List.getElem?_eq_getElem hlt
          have hadmitted := h.first.admitted j _ hj
          rw [Nat.zero_add, admitted_iff, or_iff_left fun hfalse ↦ hvariadic hfalse.2] at hadmitted
          obtain ⟨i, hi⟩ := Option.isSome_iff_exists.mp hadmitted
          exact hfree i (boundTo_iff.mpr ⟨_, hj, hi⟩)
        rw [hempty]
        rfl
  · exact mem_argValues.mp (List.mem_of_head? (hsource i hi))
  · exact List.Pairwise.filter _ List.pairwise_lt_range

/-! ## Checking twice -/

namespace Checked

variable {args out : List (Arg E)} {added : List (ℕ × E)} (h : Checked ps args out added)

include h

theorem added_lt {d : ℕ × E} (hd : d ∈ added) : d.1 < ps.fixed.length := by
  by_contra hge
  have hdefault := (h.second.defaults d hd).2.1
  rw [List.getElem?_eq_none (not_lt.mp hge)] at hdefault
  cases hdefault

theorem not_boundTo_added {d : ℕ × E} (hd : d ∈ added) (j : ℕ) : ¬ BoundTo ps args d.1 j := by
  intro hbound
  obtain ⟨a, ha, hbinds⟩ := boundTo_iff.mp hbound
  have hget : (bound ps 0 args)[j]? = some { a with parameter := bindsTo ps j a } := by
    rw [bound_getElem?, Option.mem_def.mp ha, Nat.zero_add]
    rfl
  exact (h.second.defaults d hd).2.2 _ (List.mem_of_getElem? hget) hbinds

/-- Where a default is missing, no argument is an extra one. -/
theorem parameter_isSome (hne : added ≠ []) : ∀ a ∈ out, a.parameter.isSome = true := by
  intro a ha
  rw [Option.isSome_iff_ne_none]
  intro hnone
  obtain ⟨j, hj⟩ := List.getElem?_of_mem ha
  obtain ⟨hlt, hfree⟩ := h.extra_iff.mp ⟨a, hj, hnone⟩
  have hget := List.getElem?_eq_getElem hlt
  have hbinds : bindsTo ps j args[j] = none := by
    rw [Option.eq_none_iff_forall_ne_some]
    exact fun i hi ↦ hfree i (boundTo_iff.mpr ⟨_, hget, hi⟩)
  have hadmitted := h.first.admitted j _ hget
  rw [Nat.zero_add, admitted_iff, hbinds] at hadmitted
  have hlabel := (hadmitted.resolve_left Bool.false_ne_true).1
  have hge : ps.fixed.length ≤ j := by
    rw [bindsTo, hlabel] at hbinds
    dsimp only at hbinds
    split at hbinds
    · cases hbinds
    · omega
  obtain ⟨d, hd⟩ := List.exists_mem_of_ne_nil added hne
  have hdj : d.1 < j := (h.added_lt hd).trans_le hge
  have hearlier : args[d.1].label = none := by
    rw [← Option.not_isSome_iff_eq_none]
    intro hsome
    have hpair := List.pairwise_iff_getElem.mp h.first.namedLast d.1 j (hdj.trans hlt) hlt hdj hsome
    rw [hlabel] at hpair
    cases hpair
  apply h.not_boundTo_added hd d.1
  refine ⟨h.added_lt hd, _, List.getElem?_eq_getElem (hdj.trans hlt), ?_⟩
  rw [hearlier]

theorem length_le (hne : added ≠ []) : out.length ≤ ps.fixed.length := by
  have hlength : (out.filterMap Arg.parameter).length = out.length := by
    rw [List.length_filterMap_eq_countP, List.countP_eq_length]
    exact h.parameter_isSome hne
  have hsubset : out.filterMap Arg.parameter ⊆ List.range ps.fixed.length := by
    intro i hi
    obtain ⟨a, ha, hparameter⟩ := List.mem_filterMap.mp hi
    obtain ⟨j, hj⟩ := List.getElem?_of_mem ha
    rw [List.mem_range]
    by_cases hlt : j < args.length
    · exact (h.boundTo_of_parameter hj hparameter hlt).1
    · obtain ⟨d, hd, rfl⟩ := h.added_at hj (not_lt.mp hlt)
      cases hparameter
      exact h.added_lt hd
  have hle := (h.out_nodup.subperm hsubset).length_le
  rwa [hlength, List.length_range] at hle

/-- Behind positional arguments every default stands at the number of its parameter. -/
theorem added_eq (hne : added ≠ []) (hlabel : ∀ arg ∈ args, arg.label = none) :
    added.map Prod.fst = List.range' args.length (ps.fixed.length - args.length) := by
  have hlength : args.length ≤ ps.fixed.length := by
    refine le_trans ?_ (h.length_le hne)
    rw [h.second.out_eq, List.length_append, bound_length]
    exact Nat.le_add_right _ _
  have hbound : ∀ k (_ : k < args.length), BoundTo ps args k k := by
    intro k hk
    refine ⟨hk.trans_le hlength, _, List.getElem?_eq_getElem hk, ?_⟩
    rw [hlabel _ (List.getElem_mem hk)]
  have hrange : (List.range' args.length (ps.fixed.length - args.length)).Pairwise (· < ·) :=
    List.pairwise_lt_range'
  refine List.Pairwise.eq_of_mem_iff h.second.sorted hrange fun i ↦ ?_
  rw [List.mem_range'_1]
  constructor
  · intro hi
    obtain ⟨d, hd, rfl⟩ := List.mem_map.mp hi
    have hlt := h.added_lt hd
    have hge : args.length ≤ d.1 := by
      by_contra hk
      exact h.not_boundTo_added hd d.1 (hbound d.1 (not_le.mp hk))
    omega
  · rintro ⟨hge, hlt⟩
    obtain ⟨j, a, ha, hparameter⟩ := h.exists_argument (i := i) (by omega)
    by_cases hj : j < args.length
    · obtain ⟨-, b, hb, hbinds⟩ := h.boundTo_of_parameter ha hparameter hj
      rw [hlabel b (List.mem_of_getElem? hb)] at hbinds
      dsimp only at hbinds
      omega
    · obtain ⟨d, hd, rfl⟩ := h.added_at ha (not_lt.mp hj)
      cases hparameter
      exact List.mem_map_of_mem hd

theorem fresh : ∀ j, ∀ arg ∈ out[j]?, bindsTo ps j arg = none → arg.parameter = none := by
  intro j arg harg hnone
  by_cases hj : j < args.length
  · have hsame := Option.some.inj
      ((Option.mem_def.mp harg).symm.trans (h.explicit (List.getElem?_eq_getElem hj)))
    rw [hsame] at hnone ⊢
    exact hnone
  · obtain ⟨d, hd, rfl⟩ := h.added_at harg (not_lt.mp hj)
    have hlength := h.length_le (List.ne_nil_of_mem hd)
    have hlt := (List.getElem?_eq_some_iff.mp harg).1
    rw [bindsTo] at hnone
    dsimp only at hnone
    rw [if_pos (hlt.trans_le hlength)] at hnone
    cases hnone

/-- A list that has been checked is left as it is, if it passes again. -/
theorem again {out' : List (Arg E)} (h' : checkArgs C ps out = .ok out') : out' = out := by
  obtain ⟨added', hagain⟩ := checkArgs_ok h.fresh h'
  have hbound : bound ps 0 out = out := by
    apply List.ext_getElem?
    intro j
    rw [bound_getElem?, Nat.zero_add]
    cases hget : out[j]? with
    | none => rfl
    | some a =>
        rw [Option.map_some]
        congr 1
        by_cases hj : j < args.length
        · have hsame := Option.some.inj
            (hget.symm.trans (h.explicit (List.getElem?_eq_getElem hj)))
          rw [hsame]
          rfl
        · obtain ⟨d, hd, rfl⟩ := h.added_at hget (not_lt.mp hj)
          have hlt := (List.getElem?_eq_some_iff.mp hget).1
          have hlength := h.length_le (List.ne_nil_of_mem hd)
          have hlabel : ∀ arg ∈ args, arg.label = none := by
            intro arg harg
            obtain ⟨k, hk⟩ := List.getElem?_of_mem harg
            rw [← Option.not_isSome_iff_eq_none]
            intro hsome
            have hklt := (List.getElem?_eq_some_iff.mp hk).1
            have hkout := List.getElem?_eq_some_iff.mp (h.explicit hk)
            have hpair := List.pairwise_iff_getElem.mp hagain.first.namedLast k j hkout.1 hlt
              (by omega)
            rw [hkout.2, (List.getElem?_eq_some_iff.mp hget).2] at hpair
            cases hpair hsome
          have hnumbers := congrArg (fun l ↦ l[j - args.length]?)
            (h.added_eq (List.ne_nil_of_mem hd) hlabel)
          have hplace : added[j - args.length]? = some d := by
            rw [h.second.out_eq, List.getElem?_append_right (by rw [bound_length]; omega),
              bound_length, List.getElem?_map, Option.map_eq_some_iff] at hget
            obtain ⟨d', hd', heq⟩ := hget
            rw [hd']
            cases d
            cases d'
            cases heq
            rfl
          rw [List.getElem?_map, hplace, List.getElem?_range' (by omega), Option.map_some] at hnumbers
          have hnumber : d.1 = j := by
            have hd := Option.some.inj hnumbers
            omega
          have hbinds : bindsTo ps j (⟨none, d.2, some d.1⟩ : Arg E) = some j :=
            if_pos (hlt.trans_le hlength)
          rw [hbinds, hnumber]
  have hadded : added' = [] := by
    rw [List.eq_nil_iff_forall_not_mem]
    intro d hd
    obtain ⟨j, a, ha, hparameter⟩ := h.exists_argument (hagain.added_lt hd)
    refine (hagain.second.defaults d hd).2.2 a ?_ hparameter
    rw [hbound]
    exact List.mem_of_getElem? ha
  rw [hagain.second.out_eq, hbound, hadded]
  exact List.append_nil _

end Checked

/-! ## Accepted calls -/

/-- In a call that is accepted every parameter has one argument, the explicit one that is
bound to it or its default.  The emitted code evaluates the explicit arguments in written
order, with the defaults behind them, and passes them in the order of the parameters, with the
rest behind them.  Checking the arguments once more changes nothing. -/
theorem checkArgs_binds {args out : List (Arg E)} (hfresh : ∀ arg ∈ args, arg.parameter = none)
    (h : checkArgs C ps args = .ok out) : WellBound ps args ∧
      ∃ defaults : List E, ∃ source : ℕ → ℕ, ∃ extras : List ℕ,
        emitCall ps out =
          ⟨args.map Arg.expr ++ defaults,
            ((List.range ps.fixed.length).map fun i ↦ (some i, source i)) ++
              extras.map fun j ↦ (none, j)⟩ ∧
        (∀ i (hi : i < ps.fixed.length), BoundTo ps args i (source i) ∨
          (∀ j, ¬ BoundTo ps args i j) ∧ args.length ≤ source i ∧
            ∃ value, ps.fixed[i].default = some value ∧
              (args.map Arg.expr ++ defaults)[source i]? = some value) ∧
        extras.Pairwise (· < ·) ∧
        (∀ j, j ∈ extras ↔ j < args.length ∧ ∀ i, ¬ BoundTo ps args i j) ∧
        ∀ out', checkArgs C ps out = .ok out' → out' = out := by
  obtain ⟨added, hchecked⟩ := checkArgs_ok
    (fun j arg harg _ ↦ hfresh arg (List.mem_of_getElem? harg)) h
  obtain ⟨source, extras, happend, hsource, hsorted, hextras⟩ := hchecked.passed
  have hlines : out.map Arg.expr = args.map Arg.expr ++ added.map Prod.snd := by
    rw [hchecked.second.out_eq, List.map_append, bound_exprs, List.map_map]
    rfl
  refine ⟨hchecked.wellBound, added.map Prod.snd, source, extras, ?_, fun i hi ↦ ?_, hsorted,
    fun j ↦ (hextras j).trans hchecked.extra_iff, fun out' ↦ hchecked.again⟩
  · rw [emitCall, hlines, happend]
  · obtain ⟨a, ha, hparameter⟩ := hsource i hi
    rcases hchecked.argument_cases hi ha hparameter with hbound | ⟨hfree, hle, hdefault⟩
    · exact Or.inl hbound
    · refine Or.inr ⟨hfree, hle, a.expr, hdefault, ?_⟩
      rw [← hlines, List.getElem?_map, ha]
      rfl

/-- `f(c: 30, a: 10)` for `f(int a, int b = 7, int c)`. -/
theorem checkArgs_binds_named :
    checkArgs ⟨fun _ _ ↦ true, fun _ ↦ true, fun _ ↦ true⟩
        ⟨[⟨"a", none⟩, ⟨"b", some 7⟩, ⟨"c", none⟩], false⟩
        [⟨some "c", 30, none⟩, ⟨some "a", 10, none⟩] =
      .ok [⟨some "c", 30, some 2⟩, ⟨some "a", 10, some 0⟩, ⟨none, 7, some 1⟩] ∧
    WellBound (E := ℕ) ⟨[⟨"a", none⟩, ⟨"b", some 7⟩, ⟨"c", none⟩], false⟩
      [⟨some "c", 30, none⟩, ⟨some "a", 10, none⟩] := by
  have h : checkArgs (E := ℕ) ⟨fun _ _ ↦ true, fun _ ↦ true, fun _ ↦ true⟩
        ⟨[⟨"a", none⟩, ⟨"b", some 7⟩, ⟨"c", none⟩], false⟩
        [⟨some "c", 30, none⟩, ⟨some "a", 10, none⟩] =
      .ok [⟨some "c", 30, some 2⟩, ⟨some "a", 10, some 0⟩, ⟨none, 7, some 1⟩] := by rfl
  exact ⟨h, (checkArgs_binds (by simp) h).1⟩

end TinyCPlus.Compiler
