import Mathlib

/-!
# Construction without `init` (`N_NEW` in `check_expr` and `expression`)

A class without a constructor takes its arguments one field after the other.  The labels of
the arguments are parsed, but nothing reads them here, and computed properties are fields
for the checker and none for the structure in C.
-/

namespace TinyCPlus.Compiler

/-! ## Classes -/

inductive MemberKind where
  | var
  | property (computed : Bool)
  | function
deriving DecidableEq, Repr

structure Member where
  name : String
  kind : MemberKind
deriving DecidableEq, Repr

namespace Member

/-- What the loop over the arguments stops at. -/
def isField (m : Member) : Bool :=
  match m.kind with
  | .var | .property _ => true
  | .function => false

/-- What `emit_type` puts into the structure. -/
def isStored (m : Member) : Bool :=
  match m.kind with
  | .var | .property false => true
  | .property true | .function => false

end Member

/-- The members of a class; `analyze` rejects duplicates. -/
structure ClassBody where
  members : List Member
  distinct : (members.map Member.name).Nodup

namespace ClassBody

def fields (c : ClassBody) : List Member := c.members.filter Member.isField

/-- The names of the stored fields, in declaration order. -/
def stored (c : ClassBody) : List String := (c.members.filter Member.isStored).map Member.name

end ClassBody

/-- An argument: its label and whether its type fits a member. -/
structure NewArg where
  label : Option String
  fits : Member → Bool

/-! ## The checker and the emitted code -/

/-- The loop over the arguments: the member that each is for, or the error. -/
def checkNew : List Member → List NewArg → Except String (List Member)
  | _, [] => .ok []
  | [], _ :: _ => .error "too many constructor arguments"
  | m :: body, it :: args =>
      if m.isField then
        if it.fits m then (checkNew body args).map (m :: ·)
        else .error "expected another type"
      else checkNew body (it :: args)

/-- The assignments to members, each of the temporary with the number of its argument. -/
def newStores : ℕ → List Member → List (String × ℕ)
  | _, [] => []
  | j, m :: fields => (m.name, j) :: newStores (j + 1) fields

/-- An object: the temporary in each of its fields; a field without one is zero. -/
abbrev Object := String → Option ℕ

/-- The assignments in C; a name that is not in the structure is an error. -/
def runStores (stored : List String) : List (String × ℕ) → Object → Option Object
  | [], o => some o
  | (name, j) :: stores, o =>
      if name ∈ stored then runStores stored stores (Function.update o name (some j)) else none

/-! ## What a construction means -/

/-- The number of the stored field of each argument: the one that its label names, or the one
behind that of the argument in front. -/
def intendedFields (stored : List String) : ℕ → List NewArg → Option (List ℕ)
  | _, [] => some []
  | next, it :: args =>
      match (match it.label with
        | some label => stored.findIdx? (· == label)
        | none => if next < stored.length then some next else none) with
      | some i => (intendedFields stored (i + 1) args).map (i :: ·)
      | none => none

/-- The object with every argument in its field. -/
def objectOf (stored : List String) (places : List ℕ) : Object := fun name ↦
  places.findIdx? fun i ↦ stored[i]? == some name

/-- Every argument has a stored field of its own, and that is where it ends up. -/
def Constructs (c : ClassBody) (args : List NewArg) (fields : List Member) : Prop :=
  ∃ places, intendedFields c.stored 0 args = some places ∧ places.Nodup ∧
    runStores c.stored (newStores 0 fields) (fun _ ↦ none) = some (objectOf c.stored places)

/-- No computed property stands among the first fields, and every label is the name of the
field with the number of its argument. -/
def InPlace (c : ClassBody) (args : List NewArg) : Prop :=
  ∀ k : ℕ, ∀ it ∈ args[k]?, ∃ m ∈ c.fields[k]?, m.isStored = true ∧
    ∀ label ∈ it.label, m.name = label

/-! ## Fields and their names -/

theorem checkNew_eq {body : List Member} {args : List NewArg} {fields : List Member}
    (h : checkNew body args = .ok fields) :
    fields = (body.filter Member.isField).take args.length ∧ fields.length = args.length := by
  fun_induction checkNew body args generalizing fields with
  | case1 => cases h; simp
  | case2 => cases h
  | case3 m body it args hfield hfits ih =>
      cases hrest : checkNew body args with
      | error e =>
          rw [hrest] at h
          cases h
      | ok rest =>
          rw [hrest] at h
          cases h
          obtain ⟨heq, hlength⟩ := ih hrest
          rw [List.filter_cons_of_pos hfield, List.length_cons, List.take_succ_cons, ← heq,
            List.length_cons, hlength]
          exact ⟨rfl, rfl⟩
  | case4 => cases h
  | case5 m body it args hfield ih =>
      rw [List.filter_cons_of_neg hfield]
      exact ih h

namespace ClassBody

variable (c : ClassBody)

theorem isField_of_isStored {m : Member} (h : m.isStored = true) : m.isField = true := by
  obtain ⟨name, kind⟩ := m
  cases kind with
  | var => rfl
  | property computed => rfl
  | function => cases h

theorem stored_eq : c.stored = (c.fields.filter Member.isStored).map Member.name := by
  rw [stored, fields, List.filter_filter]
  congr 1
  apply List.filter_congr
  intro m _
  cases hstored : m.isStored with
  | true => rw [isField_of_isStored hstored, Bool.and_self]
  | false => rfl

theorem stored_nodup : c.stored.Nodup :=
  c.distinct.sublist (List.filter_sublist.map Member.name)

theorem fields_nodup : (c.fields.map Member.name).Nodup :=
  c.distinct.sublist (List.filter_sublist.map Member.name)

/-- A member with the name of a stored field is that field. -/
theorem isStored_of_name {m : Member} (hm : m ∈ c.fields) (hname : m.name ∈ c.stored) :
    m.isStored = true := by
  obtain ⟨m', hm', hsame⟩ := List.mem_map.mp hname
  obtain ⟨hmem', hstored⟩ := List.mem_filter.mp hm'
  rwa [← List.inj_on_of_nodup_map c.distinct hmem' (List.mem_filter.mp hm).1 hsame]

/-- If the first fields are stored, they are the first stored fields. -/
theorem stored_take {n : ℕ} (hn : n ≤ c.fields.length)
    (h : ∀ m ∈ c.fields.take n, m.isStored = true) :
    c.stored.take n = (c.fields.take n).map Member.name := by
  have hsplit : c.fields.filter Member.isStored =
      c.fields.take n ++ (c.fields.drop n).filter Member.isStored := by
    conv_lhs => rw [← List.take_append_drop n c.fields]
    rw [List.filter_append, List.filter_eq_self.mpr h]
  have hlength : ((c.fields.take n).map Member.name).length = n := by
    rw [List.length_map, List.length_take_of_le hn]
  rw [stored_eq, hsplit, List.map_append]
  exact List.take_left' hlength

end ClassBody

/-! ## Assignments -/

/-- The assignments to fields with different names. -/
theorem runStores_newStores {stored : List String} {fields : List Member}
    (hnodup : (fields.map Member.name).Nodup) (j : ℕ) (o o' : Object) :
    runStores stored (newStores j fields) o = some o' ↔
      (∀ m ∈ fields, m.name ∈ stored) ∧
        o' = fun name ↦ ((fields.findIdx? (·.name == name)).map (j + ·)).or (o name) := by
  induction fields generalizing j o with
  | nil =>
      rw [newStores, runStores, Option.some.injEq]
      simp only [List.not_mem_nil, false_implies, implies_true, true_and, List.findIdx?_nil,
        Option.map_none, Option.none_or]
      exact eq_comm
  | cons m fields ih =>
      rw [List.map_cons, List.nodup_cons] at hnodup
      rw [newStores, runStores]
      split
      · rename_i hmem
        have hupdate : (fun name ↦ ((fields.findIdx? (·.name == name)).map (j + 1 + ·)).or
            (Function.update o m.name (some j) name)) =
            fun name ↦ (((m :: fields).findIdx? (·.name == name)).map (j + ·)).or (o name) := by
          funext name
          rw [List.findIdx?_cons]
          by_cases hname : m.name = name
          · have hnone : fields.findIdx? (·.name == name) = none := by
              rw [List.findIdx?_eq_none_iff]
              intro m' hm'
              rw [beq_eq_false_iff_ne]
              exact fun heq ↦ hnodup.1 (List.mem_map.mpr ⟨m', hm', heq.trans hname.symm⟩)
            rw [hnone, hname, Function.update_self, beq_self_eq_true]
            rfl
          · rw [Function.update_of_ne (Ne.symm hname), beq_eq_false_iff_ne.mpr hname]
            simp only [Bool.false_eq_true, if_false, Option.map_map]
            congr 2
            funext i
            simp only [Function.comp_apply]
            omega
        rw [ih hnodup.2, hupdate]
        simp only [List.mem_cons, forall_eq_or_imp, hmem, true_and]
      · rename_i hmem
        constructor
        · rintro ⟨⟩
        · rintro ⟨hall, -⟩
          exact absurd (hall m List.mem_cons_self) hmem

/-! ## Places of arguments -/

theorem intendedFields_label {stored : List String} {next : ℕ} {args : List NewArg}
    {places : List ℕ} (h : intendedFields stored next args = some places) {k i : ℕ} {it : NewArg}
    (hit : args[k]? = some it) (hplace : places[k]? = some i) {label : String}
    (hlabel : it.label = some label) : stored[i]? = some label := by
  induction args generalizing next places k with
  | nil => cases hit
  | cons a args ih =>
      rw [intendedFields] at h
      split at h
      · rename_i i' hi'
        obtain ⟨rest, hrest, rfl⟩ := Option.map_eq_some_iff.mp h
        cases k with
        | zero =>
            cases hit
            cases hplace
            rw [hlabel] at hi'
            obtain ⟨hlt, hname, -⟩ := List.findIdx?_eq_some_iff_getElem.mp hi'
            rw [List.getElem?_eq_getElem hlt, eq_of_beq hname]
        | succ k => exact ih hrest hit hplace
      · cases h

/-- Arguments that are in place go to the stored fields one after the other. -/
theorem intendedFields_of_inPlace {stored : List String} (hnodup : stored.Nodup) {next : ℕ}
    {args : List NewArg} (h : ∀ k : ℕ, ∀ it ∈ args[k]?, ∃ name ∈ stored[next + k]?,
      ∀ label ∈ it.label, name = label) :
    intendedFields stored next args = some (List.range' next args.length) := by
  induction args generalizing next with
  | nil => rfl
  | cons a args ih =>
      obtain ⟨name, hname, hlabel⟩ := h 0 a rfl
      rw [Nat.add_zero] at hname
      obtain ⟨hlt, hget⟩ := List.getElem?_eq_some_iff.mp hname
      have htail : ∀ k : ℕ, ∀ it ∈ args[k]?, ∃ name ∈ stored[next + 1 + k]?,
          ∀ label ∈ it.label, name = label := by
        intro k it hit
        obtain ⟨name, hname, hlabel⟩ := h (k + 1) it hit
        exact ⟨name, by rwa [Nat.add_assoc, Nat.add_comm 1], hlabel⟩
      have hrest := ih htail
      rw [intendedFields]
      cases hit : a.label with
      | none =>
          dsimp only
          rw [if_pos hlt]
          dsimp only
          rw [hrest, List.length_cons, List.range'_succ]
          rfl
      | some label =>
          have hfind : stored.findIdx? (· == label) = some next := by
            rw [List.findIdx?_eq_some_iff_getElem]
            refine ⟨hlt, ?_, fun j hj ↦ ?_⟩
            · rw [beq_iff_eq]
              exact hget.trans (hlabel label hit)
            · rw [beq_iff_eq]
              intro hsame
              have hsame' : stored[j] = stored[next] :=
                hsame.trans (hget.trans (hlabel label hit)).symm
              exact hj.ne ((hnodup.getElem_inj_iff).mp hsame')
          dsimp only
          rw [hfind]
          dsimp only
          rw [hrest, List.length_cons, List.range'_succ]
          rfl

/-- The number of the element with a name, where names differ. -/
theorem findIdx?_of_nodup {α : Type} {f : α → String} {xs : List α} (hnodup : (xs.map f).Nodup)
    {k : ℕ} {x : α} (hx : xs[k]? = some x) : xs.findIdx? (f · == f x) = some k := by
  obtain ⟨hlt, hget⟩ := List.getElem?_eq_some_iff.mp hx
  rw [List.findIdx?_eq_some_iff_getElem]
  refine ⟨hlt, by rw [hget, beq_self_eq_true], fun j hj ↦ ?_⟩
  rw [beq_iff_eq]
  intro hsame
  have hj' : j < (xs.map f).length := by rw [List.length_map]; omega
  have hk' : k < (xs.map f).length := by rwa [List.length_map]
  have hnames : (xs.map f)[j] = (xs.map f)[k] := by
    rw [List.getElem_map, List.getElem_map, hsame, hget]
  exact hj.ne ((hnodup.getElem_inj_iff).mp hnames)

/-! ## Constructions -/

section Construction

variable {c : ClassBody} {args : List NewArg} {fields : List Member}

theorem fields_eq (h : checkNew c.members args = .ok fields) :
    fields = c.fields.take args.length ∧ args.length ≤ c.fields.length := by
  obtain ⟨hfields, hlength⟩ := checkNew_eq h
  refine ⟨hfields, ?_⟩
  rw [← hlength, hfields]
  exact List.length_take_le' _ _

/-- The fields of the arguments are the first stored ones if they are stored. -/
theorem stored_getElem? (h : checkNew c.members args = .ok fields)
    (hall : ∀ m ∈ fields, m.isStored = true) {k : ℕ} {m : Member} (hm : fields[k]? = some m) :
    c.stored[k]? = some m.name := by
  obtain ⟨hfields, hle⟩ := fields_eq h
  have htake : c.stored.take args.length = fields.map Member.name := by
    rw [hfields]
    exact c.stored_take hle (hfields ▸ hall)
  have hk : k < args.length := by
    have hlt := (List.getElem?_eq_some_iff.mp hm).1
    rwa [(checkNew_eq h).2] at hlt
  rw [← List.getElem?_take_of_lt hk, htake, List.getElem?_map, hm]
  rfl

end Construction

/-- `class P \x7b int x; int y; \x7d` -/
def pairClass : ClassBody := ⟨[⟨"x", .var⟩, ⟨"y", .var⟩], by decide⟩

end TinyCPlus.Compiler
