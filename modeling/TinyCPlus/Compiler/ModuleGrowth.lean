import TinyCPlus.Compiler.ModuleLookup

/-!
# Names in a module when another module grows

The symbols of all modules stand in one list, which `lookup` searches before the members of the
class.  A function or variable that is added to another module leaves the names of a body as they
are, except its own name and the computed properties, which have no file of their own.
-/

namespace TinyCPlus.Compiler.ModuleLookup

/-! ## Names in a body -/

/-- An unqualified name in a body. -/
structure Occurrence where
  name : String
  /-- The members written behind the name. -/
  path : List String
  /-- It is followed by type arguments. -/
  generic : Bool
  /-- It is called. -/
  called : Bool
  /-- The scopes inside the global one, innermost first. -/
  locals : List (List Symbol)

/-- The body of a function, method or lambda, or a computed property without its lambdas. -/
structure Body where
  file : String
  isProperty : Bool
  /-- The members of the class around it. -/
  members : Option (List String)
  names : List Occurrence

/-- What the program has beside its functions and variables. -/
structure Surroundings where
  /-- The loaded modules, with label and file. -/
  modules : List (String × String)
  /-- The file that declares a type. -/
  typeFile : String → Option String

/-- What a name is; an extern symbol is the same in every file. -/
inductive Meaning where
  | ambiguous
  | undefined
  | noDeclaration
  | symbol (name : String) (file : Option String)
  | generic (t : Template)
  | type (name : String) (t : Option Template)
  | member (name : String)
  | this
  | builtin
deriving DecidableEq

def entity (s : Symbol) : Meaning := .symbol s.name (if s.isExtern then none else some s.file)

variable (W : Surroundings) (P : Program) (table : List Symbol)

/-- `qualified_value`, the longest label first. -/
def qualified (label : String) : List String → Option Meaning
  | [] => none
  | n :: rest =>
      (qualified (label ++ "." ++ n) rest).or <|
        (W.modules.find? (·.1 == label)).map fun m ↦
          match table.find? fun s ↦ s.name == n && s.file == m.2 with
          | some s => entity s
          | none => if W.typeFile n = some m.2 then .type n none else .noDeclaration

/-- The file that `lookup` prefers. -/
def Body.lookupFile (b : Body) : String := if b.isProperty then P.activeFile else b.file

/-- `check_expr` of a name that is no symbol. -/
def otherwise (b : Body) (o : Occurrence) (template : Option Template) : Meaning :=
  if o.called ∧ o.name = "hash" then .builtin
  else if o.name ∈ b.members.getD [] then .member o.name
  else if o.name = "this" ∧ b.members.isSome then .this
  else if o.generic then .type o.name template
  else if (W.typeFile o.name).isSome then .type o.name none
  else .undefined

/-- `check_expr` of a name, below `qualified_value`. -/
def checkId (b : Body) (o : Occurrence) : Meaning :=
  match lookup o.locals table (b.lookupFile P) o.name with
  | .ambiguous => .ambiguous
  | .found s =>
      match P.templates.find? fun t ↦ o.generic && t.name == o.name with
      | some t => if t.isFunction then .generic t else entity s
      | none => entity s
  | .undefined =>
      match P.templates.find? fun t ↦ o.generic && t.name == o.name with
      | some t => if t.isFunction then .generic t else otherwise W b o (some t)
      | none => otherwise W b o none

/-- What a name in a body is.  The functions of the language itself are not looked up. -/
def meaning (b : Body) (o : Occurrence) : Meaning :=
  if o.called ∧ o.name ∈ ["owned", "println", "print", "assert", "len"] then .builtin
  else if (o.locals.flatten ++ table).any fun s ↦ s.name == o.name then checkId W P table b o
  else (qualified W table o.name o.path).getD (checkId W P table b o)

/-! ## Additions -/

inductive AdditionKind where
  | function | variable | generic
deriving DecidableEq

/-- A function or variable at top level, or a generic function. -/
structure Addition where
  decl : Decl
  kind : AdditionKind

/-- The program with the declaration in the place `i` among those of its kind. -/
def Addition.into (A : Addition) (P : Program) (i : ℕ) : Program :=
  match A.kind with
  | .function => { P with functions := P.functions.take i ++ A.decl :: P.functions.drop i }
  | .variable =>
      let added := ⟨A.decl.file, [(A.decl.name, A.decl.isExtern)]⟩
      { P with globals := P.globals.take i ++ added :: P.globals.drop i }
  | .generic =>
      let added := ⟨A.decl.name, A.decl.file, true⟩
      { P with templates := P.templates.take i ++ added :: P.templates.drop i }

/-- The declarations of a program, latest first, split where the addition comes in. -/
theorem exists_split_into (A : Addition) (P : Program) (i : ℕ) :
    ∃ later earlier, P.declsBefore P.globals.length = later ++ earlier ∧
      (A.into P i).declsBefore (A.into P i).globals.length =
        later ++ (if A.kind = .generic then [] else [A.decl]) ++ earlier := by
  rcases A with ⟨d, kind⟩
  cases kind with
  | function =>
      refine ⟨(P.globals.flatMap Global.decls).reverse ++ (P.functions.drop i).reverse,
        (P.functions.take i).reverse, ?_, ?_⟩
      · rw [Program.declsBefore, List.take_length, List.append_assoc]
        congr 1
        rw [← List.reverse_append, List.take_append_drop]
      · simp [Addition.into, Program.declsBefore]
  | «variable» =>
      refine ⟨((P.globals.drop i).flatMap Global.decls).reverse,
        ((P.globals.take i).flatMap Global.decls).reverse ++ P.functions.reverse, ?_, ?_⟩
      · rw [Program.declsBefore, List.take_length, ← List.append_assoc]
        congr 1
        rw [← List.reverse_append, ← List.flatMap_append, List.take_append_drop]
      · simp only [Addition.into, Program.declsBefore, List.take_length]
        simp [Global.decls]
  | generic =>
      refine ⟨P.declsBefore P.globals.length, [], (List.append_nil _).symm, ?_⟩
      simp [Addition.into, Program.declsBefore]

/-! ## Binding one name -/

section Binding

variable {sameType : Decl → Decl → Bool} {decls : List Decl} {table : List Symbol}
  {symbols : List (Decl × Symbol)}

/-- `bind` asks only for the symbols of the name. -/
theorem bind_filter {d : Decl} {s : Symbol} {table' : List Symbol}
    (h : bind sameType table d = some (table', s)) :
    bind sameType (table.filter (·.name = d.name)) d =
      some (table'.filter (·.name = d.name), s) := by
  have hfind : (table.filter (·.name = d.name)).find?
        (fun s ↦ s.name == d.name && !passedOver d s) =
      table.find? fun s ↦ s.name == d.name && !passedOver d s := by
    rw [List.find?_filter]
    congr 1
    funext t
    by_cases ht : t.name = d.name <;> simp [ht]
  unfold bind at h ⊢
  rw [hfind]
  split at h
  · cases h
    rw [List.filter_cons_of_pos (by simp)]
  · split at h
    · rename_i hforeign
      cases h
      rw [if_pos hforeign]
    · cases h

theorem bindAll_filter (h : bindAll sameType decls = some (table, symbols)) (name : String) :
    ∃ symbols', bindAll sameType (decls.filter (·.name = name)) =
      some (table.filter (·.name = name), symbols') := by
  induction decls generalizing table symbols with
  | nil =>
      cases h
      exact ⟨[], rfl⟩
  | cons d decls ih =>
      obtain ⟨table₀, symbols₀, s, hrest, hbind, -⟩ := bindAll_cons h
      obtain ⟨symbols', hfilter⟩ := ih hrest
      by_cases hd : d.name = name
      · subst hd
        rw [List.filter_cons_of_pos (by simp), bindAll, hfilter, Option.bind_some,
          bind_filter hbind]
        exact ⟨_, rfl⟩
      · rw [List.filter_cons_of_neg (by simpa using hd)]
        obtain ⟨rfl, -⟩ | ⟨rfl, -⟩ := bind_cases hbind
        · rw [List.filter_cons_of_neg (by simpa using hd)]
          exact ⟨symbols', hfilter⟩
        · exact ⟨symbols', hfilter⟩

theorem subset_bindAll (h : bindAll sameType decls = some (table, symbols)) : table ⊆ decls := by
  induction decls generalizing table symbols with
  | nil =>
      cases h
      exact List.Subset.refl _
  | cons d decls ih =>
      obtain ⟨table₀, symbols₀, s, hrest, hbind, -⟩ := bindAll_cons h
      obtain ⟨rfl, -⟩ | ⟨rfl, -⟩ := bind_cases hbind
      · exact List.cons_subset_cons d (ih hrest)
      · exact List.subset_cons_of_subset d (ih hrest)

theorem map_fst_bindAll (h : bindAll sameType decls = some (table, symbols)) :
    symbols.map Prod.fst = decls := by
  induction decls generalizing table symbols with
  | nil =>
      cases h
      rfl
  | cons d decls ih =>
      obtain ⟨table₀, symbols₀, s, hrest, -, rfl⟩ := bindAll_cons h
      rw [List.map_cons, ih hrest]

/-- Every declaration has a symbol. -/
theorem exists_symbolOf (h : bindAll sameType decls = some (table, symbols)) {d : Decl}
    (hd : d ∈ decls) : ∃ s, SymbolOf table d s := by
  rw [← map_fst_bindAll h] at hd
  obtain ⟨p, hp, rfl⟩ := List.mem_map.1 hd
  exact ⟨p.2, symbolOf_bindAll h p hp⟩

end Binding

/-! ## The symbols before and behind an addition -/

section Growth

variable {sameType : Decl → Decl → Bool} {later earlier : List Decl} {d : Decl}
  {table table' : List Symbol} {symbols symbols' : List (Decl × Symbol)}
  (h : bindAll sameType (later ++ earlier) = some (table, symbols))
  (h' : bindAll sameType (later ++ [d] ++ earlier) = some (table', symbols'))
include h h'

/-- The symbols of another name stay. -/
theorem filter_grown {name : String} (hname : name ≠ d.name) :
    table'.filter (·.name = name) = table.filter (·.name = name) := by
  obtain ⟨_, hfilter⟩ := bindAll_filter h name
  obtain ⟨_, hfilter'⟩ := bindAll_filter h' name
  have hdecls : (later ++ [d] ++ earlier).filter (·.name = name) =
      (later ++ earlier).filter (·.name = name) := by
    rw [List.filter_append, List.filter_append, List.filter_append,
      List.filter_cons_of_neg (by simpa using hname.symm), List.filter_nil, List.append_nil]
  rw [hdecls, hfilter] at hfilter'
  exact (Prod.mk.inj (Option.some.inj hfilter')).1.symm

/-- A symbol stays, or is extern before and behind. -/
theorem exists_grown {s : Symbol} (hs : s ∈ table) : ∃ s' ∈ table', entity s' = entity s ∧
    s'.name = s.name ∧ (s' = s ∨ s'.isExtern = true) := by
  have hdecl : s ∈ later ++ [d] ++ earlier := by
    rcases List.mem_append.1 (subset_bindAll h hs) with hs | hs
    · exact List.mem_append_left _ (List.mem_append_left _ hs)
    · exact List.mem_append_right _ hs
  obtain ⟨s', hs', hname, rfl | ⟨hforeign', hforeign⟩⟩ := exists_symbolOf h' hdecl
  · exact ⟨s', hs', rfl, rfl, .inl rfl⟩
  · refine ⟨s', hs', ?_, hname, .inr hforeign'⟩
    rw [entity, entity, hforeign', hforeign, hname]
    rfl

omit h in
/-- Beside a declaration that is not extern, no symbol of its name is. -/
theorem not_extern_of_grown (hd : d.isExtern = false) {s : Symbol} (hs : s ∈ table')
    (hname : s.name = d.name) : s.isExtern = false := by
  have hmem : d ∈ later ++ [d] ++ earlier := by simp
  obtain ⟨u, hu, -, rfl | ⟨-, hforeign⟩⟩ := exists_symbolOf h' hmem
  · rcases (distinct_bindAll h').apart s hs u hu hname with rfl | ⟨-, hs, -⟩
    · exact hd
    · exact hs
  · rw [hd] at hforeign
    cases hforeign

/-- A declaration that is not extern adds one symbol. -/
theorem mem_grown_iff (hd : d.isExtern = false) {s : Symbol} (hne : s ≠ d) :
    s ∈ table' ↔ s ∈ table := by
  by_cases hname : s.name = d.name
  · constructor
    · intro hs
      have hdecl : s ∈ later ++ earlier := by
        have hdecl' := subset_bindAll h' hs
        rw [List.append_assoc, List.mem_append, List.singleton_append, List.mem_cons] at hdecl'
        rcases hdecl' with hs | rfl | hs
        · exact List.mem_append_left _ hs
        · exact absurd rfl hne
        · exact List.mem_append_right _ hs
      obtain ⟨u, hu, -, rfl | ⟨-, hforeign⟩⟩ := exists_symbolOf h hdecl
      · exact hu
      · rw [not_extern_of_grown h' hd hs hname] at hforeign
        cases hforeign
    · intro hs
      obtain ⟨s', hs', -, hname', rfl | hforeign⟩ := exists_grown h h' hs
      · exact hs'
      · rw [not_extern_of_grown h' hd hs' (hname'.trans hname)] at hforeign
        cases hforeign
  · have hfilter := filter_grown h h' hname
    have hiff : s ∈ table'.filter (·.name = s.name) ↔ s ∈ table.filter (·.name = s.name) := by
      rw [hfilter]
    simpa using hiff

end Growth

/-! ## What an addition leaves -/

/-- The name is declared in a scope of the body. -/
def Occurrence.IsLocal (o : Occurrence) : Prop := ∃ l ∈ o.locals.flatten, l.name = o.name

/-- The name and the members behind it are the declaration behind the label of a module. -/
def Occurrence.Spells (W : Surroundings) (d : Decl) (o : Occurrence) : Prop :=
  ∃ labels rest m, o.path = labels ++ d.name :: rest ∧
    W.modules.find? (·.1 == labels.foldl (fun label n ↦ label ++ "." ++ n) o.name) = some m ∧
      (d.isExtern = true ∨ m.2 = d.file)

/-- The occurrences that an addition leaves by design: of other names, and of its name where it is
declared in the body or, outside computed properties, in the module itself. -/
structure Body.Untouched (W : Surroundings) (P P' : Program) (table : List Symbol) (A : Addition)
    (b : Body) (o : Occurrence) : Prop where
  file : b.isProperty = true → P'.activeFile = P.activeFile ∨
    ∀ s ∈ table, ∀ t ∈ table, s.name = o.name → t.name = o.name → s = t
  spelled : A.kind ≠ .generic → ¬ o.Spells W A.decl
  name : o.name ≠ A.decl.name ∨ (A.kind = .generic ∧ o.generic = false) ∨
    (A.kind ≠ .generic ∧
      (o.IsLocal ∨ b.isProperty = false ∧ ∃ s ∈ table, s.name = o.name ∧ s.file = b.file))

section Names

variable {W : Surroundings} {P P' : Program} {table table' : List Symbol}
  {locals : List (List Symbol)} {file file' name : String} {A : Addition} {b : Body}
  {o : Occurrence}

theorem lookup_of_local (h : ∃ l ∈ locals.flatten, l.name = name) :
    lookup locals table file name = lookup locals table' file' name := by
  obtain ⟨l, hl, hname⟩ := h
  rw [lookup, lookup]
  cases hfind : locals.flatten.find? (·.name == name) with
  | none => exact absurd hname (by simpa using List.find?_eq_none.1 hfind l hl)
  | some s => rfl

theorem lookup_of_filter (h : table'.filter (·.name = name) = table.filter (·.name = name)) :
    lookup locals table' file name = lookup locals table file name := by
  rw [lookup, lookup, scan_filter, h, ← scan_filter]

/-- A name with one symbol needs no preferred file. -/
theorem lookup_of_single (hT : Distinct table)
    (h : ∀ s ∈ table, ∀ t ∈ table, s.name = name → t.name = name → s = t) :
    lookup locals table file name = lookup locals table file' name := by
  rw [lookup, lookup]
  by_cases hsome : ∃ s ∈ table, s.name = name
  · obtain ⟨s, hs, hname⟩ := hsome
    have hfound (f : String) : scanGlobal f name table none 0 = .found s :=
      (scan_found_iff hT hs hname).2 (.inr fun t ht htname ↦ h t ht s hs htname hname)
    rw [hfound, hfound]
  · have hnone : table.filter (·.name = name) = [] := by
      rw [List.filter_eq_nil_iff]
      intro s hs hname
      exact hsome ⟨s, hs, by simpa using hname⟩
    have hmissing (f : String) : scanGlobal f name table none 0 = scanGlobal f name [] none 0 := by
      rw [scan_filter, hnone]
    rw [hmissing, hmissing]
    rfl

theorem checkId_congr
    (htemplates : P'.templates.find? (fun t ↦ o.generic && t.name == o.name) =
      P.templates.find? fun t ↦ o.generic && t.name == o.name)
    (hlookup : lookup o.locals table' (b.lookupFile P') o.name =
        lookup o.locals table (b.lookupFile P) o.name ∨
      ∃ s s', lookup o.locals table' (b.lookupFile P') o.name = .found s' ∧
        lookup o.locals table (b.lookupFile P) o.name = .found s ∧ entity s' = entity s) :
    checkId W P' table' b o = checkId W P table b o := by
  rw [checkId, checkId, htemplates]
  rcases hlookup with hlookup | ⟨s, s', hs', hs, hentity⟩
  · rw [hlookup]
  · rw [hs', hs]
    dsimp only
    rw [hentity]

/-- The templates of a name that is not added stay. -/
theorem find?_templates_into (A : Addition) (P : Program) (i : ℕ)
    (h : o.name ≠ A.decl.name ∨ (A.kind = .generic ∧ o.generic = false) ∨ A.kind ≠ .generic) :
    (A.into P i).templates.find? (fun t ↦ o.generic && t.name == o.name) =
      P.templates.find? fun t ↦ o.generic && t.name == o.name := by
  rcases A with ⟨d, kind⟩
  cases kind with
  | function => rfl
  | «variable» => rfl
  | generic =>
      have hnot : (o.generic && d.name == o.name) = false := by
        rcases h with h | ⟨-, h⟩ | h
        · rw [beq_eq_false_iff_ne.2 (Ne.symm h), Bool.and_false]
        · rw [h, Bool.false_and]
        · exact absurd rfl h
      change (P.templates.take i ++ _ :: P.templates.drop i).find? _ = _
      rw [List.find?_append, List.find?_cons_of_neg (by simpa using hnot), ← List.find?_append,
        List.take_append_drop]

/-- `qualified_value` where no label leads to the addition. -/
theorem qualified_congr (label : String) (path : List String)
    (h : ∀ labels n rest m, path = labels ++ n :: rest →
      W.modules.find? (·.1 == labels.foldl (fun label n ↦ label ++ "." ++ n) label) = some m →
      ((table'.find? fun s ↦ s.name == n && s.file == m.2).map entity) =
        (table.find? fun s ↦ s.name == n && s.file == m.2).map entity) :
    qualified W table' label path = qualified W table label path := by
  induction path generalizing label with
  | nil => rfl
  | cons n rest ih =>
      rw [qualified, qualified, ih (label ++ "." ++ n) fun labels n' rest' m hpath ↦
        h (n :: labels) n' rest' m (by rw [hpath]; rfl)]
      cases hfind : W.modules.find? (·.1 == label) with
      | none => rfl
      | some m =>
          have hentity := h [] n rest m rfl hfind
          rw [Option.map_some, Option.map_some]
          congr 2
          cases hs : table.find? fun s ↦ s.name == n && s.file == m.2 with
          | none =>
              rw [hs, Option.map_none, Option.map_eq_none_iff] at hentity
              rw [hentity]
          | some s =>
              rw [hs, Option.map_some, Option.map_eq_some_iff] at hentity
              obtain ⟨s', hs', hentity⟩ := hentity
              rw [hs']
              exact hentity

/-- The symbol of a name in a file is unique. -/
theorem find?_file_iff (hT : Distinct table) {n f : String} {s : Symbol} :
    table.find? (fun s ↦ s.name == n && s.file == f) = some s ↔
      s ∈ table ∧ s.name = n ∧ s.file = f := by
  constructor
  · intro hs
    have hmem := List.mem_of_find?_eq_some hs
    have hsome := List.find?_some hs
    rw [Bool.and_eq_true, beq_iff_eq, beq_iff_eq] at hsome
    exact ⟨hmem, hsome.1, hsome.2⟩
  · rintro ⟨hs, hname, hfile⟩
    cases ht : table.find? fun s ↦ s.name == n && s.file == f with
    | none =>
        have hnot : ¬ (s.name = n ∧ s.file = f) := by
          simpa using List.find?_eq_none.1 ht s hs
        exact absurd ⟨hname, hfile⟩ hnot
    | some t =>
        have hmem := List.mem_of_find?_eq_some ht
        have hsome := List.find?_some ht
        rw [Bool.and_eq_true, beq_iff_eq, beq_iff_eq] at hsome
        rcases hT.apart t hmem s hs (hsome.1.trans hname.symm) with rfl | ⟨hne, -⟩
        · rfl
        · exact absurd (hsome.2.trans hfile.symm) hne

end Names

section Names

variable {sameType : Decl → Decl → Bool} {later earlier : List Decl} {d : Decl}
  {table table' : List Symbol} {symbols symbols' : List (Decl × Symbol)}

/-- A symbol of a file is found as before, unless it is the addition, or both may be extern. -/
theorem find?_file_grown (h : bindAll sameType (later ++ earlier) = some (table, symbols))
    (h' : bindAll sameType (later ++ [d] ++ earlier) = some (table', symbols')) {n f : String}
    (hother : n = d.name → d.isExtern = false ∧ f ≠ d.file) :
    table'.find? (fun s ↦ s.name == n && s.file == f) =
      table.find? fun s ↦ s.name == n && s.file == f := by
  have hT := distinct_bindAll h
  have hT' := distinct_bindAll h'
  ext s
  rw [find?_file_iff hT', find?_file_iff hT]
  refine and_congr_left fun ⟨hname, hfile⟩ ↦ ?_
  by_cases hn : n = d.name
  · obtain ⟨hd, hf⟩ := hother hn
    exact mem_grown_iff h h' hd fun heq ↦ hf (by rw [← hfile, heq])
  · have hfilter := filter_grown h h' hn
    have hiff : s ∈ table'.filter (·.name = n) ↔ s ∈ table.filter (·.name = n) := by
      rw [hfilter]
    simpa [hname] using hiff

/-- An addition that is bound, or a generic function, which is not. -/
theorem tables_into {A : Addition} {P : Program} {i : ℕ}
    (hP : P.bindings sameType = some (table, symbols))
    (hP' : (A.into P i).bindings sameType = some (table', symbols')) :
    (A.kind = .generic ∧ table' = table) ∨ (A.kind ≠ .generic ∧ ∃ later earlier,
      bindAll sameType (later ++ earlier) = some (table, symbols) ∧
        bindAll sameType (later ++ [A.decl] ++ earlier) = some (table', symbols')) := by
  obtain ⟨later, earlier, hsplit, hsplit'⟩ := exists_split_into A P i
  rw [Program.bindings, hsplit] at hP
  rw [Program.bindings, hsplit'] at hP'
  by_cases hkind : A.kind = .generic
  · rw [if_pos hkind, List.append_nil, hP] at hP'
    exact .inl ⟨hkind, (Prod.mk.inj (Option.some.inj hP')).1.symm⟩
  · rw [if_neg hkind] at hP'
    exact .inr ⟨hkind, later, earlier, hP, hP'⟩

end Names

section Meanings

variable {sameType : Decl → Decl → Bool} {P : Program} {A : Addition} {i : ℕ}
  {table table' : List Symbol} {symbols symbols' : List (Decl × Symbol)} {W : Surroundings}
  {b : Body} {o : Occurrence}

theorem lookup_preferred (hT : Distinct table) (h : b.Untouched W P (A.into P i) table A o) :
    lookup o.locals table (b.lookupFile (A.into P i)) o.name =
      lookup o.locals table (b.lookupFile P) o.name := by
  cases hproperty : b.isProperty with
  | false =>
      have hfile (Q : Program) : b.lookupFile Q = b.file := by
        rw [Body.lookupFile, hproperty]
        rfl
      rw [hfile, hfile]
  | true =>
      rcases h.file hproperty with hactive | hsingle
      · rw [Body.lookupFile, Body.lookupFile, hactive]
      · exact lookup_of_single hT hsingle

theorem any_of_filter {name : String}
    (h : table'.filter (·.name = name) = table.filter (·.name = name)) :
    table'.any (fun s ↦ s.name == name) = table.any fun s ↦ s.name == name := by
  have hany (l : List Symbol) : l.any (fun s ↦ s.name == name) =
      (l.filter (·.name = name)).any fun s ↦ s.name == name := by
    rw [List.any_filter]
    congr 1
    funext s
    by_cases hs : s.name = name <;> simp [hs]
  rw [hany table', h, ← hany table]

section Bound

variable {later earlier : List Decl}
  (h : bindAll sameType (later ++ earlier) = some (table, symbols))
  (h' : bindAll sameType (later ++ [A.decl] ++ earlier) = some (table', symbols'))
include h h'

/-- The names that a bound declaration leaves in a body. -/
theorem lookup_into (hkind : A.kind ≠ .generic)
    (hb : b.Untouched W P (A.into P i) table A o) :
    lookup o.locals table' (b.lookupFile (A.into P i)) o.name =
        lookup o.locals table (b.lookupFile P) o.name ∨
      ∃ s s', lookup o.locals table' (b.lookupFile (A.into P i)) o.name = .found s' ∧
        lookup o.locals table (b.lookupFile P) o.name = .found s ∧ entity s' = entity s := by
  rcases hb.name with hname | ⟨hgeneric, -⟩ | ⟨-, hlocal | ⟨hproperty, s, hs, hname, hfile⟩⟩
  · rw [lookup_of_filter (filter_grown h h' hname)]
    exact .inl (lookup_preferred (distinct_bindAll h) hb)
  · exact absurd hgeneric hkind
  · exact .inl (lookup_of_local hlocal)
  · by_cases hlocal : o.IsLocal
    · exact .inl (lookup_of_local hlocal)
    · right
      have hpreferred (Q : Program) : b.lookupFile Q = b.file := by
        rw [Body.lookupFile, hproperty]
        rfl
      have hscan (T : List Symbol) : lookup o.locals T b.file o.name =
          scanGlobal b.file o.name T none 0 := by
        have hnone : o.locals.flatten.find? (·.name == o.name) = none := by
          rw [List.find?_eq_none]
          exact fun l hl hlname ↦ hlocal ⟨l, hl, by simpa using hlname⟩
        rw [lookup, hnone]
      obtain ⟨s', hs', hentity, hname', hstays⟩ := exists_grown h h' hs
      refine ⟨s, s', ?_, ?_, hentity⟩
      · rw [hpreferred, hscan]
        apply (scan_found_iff (distinct_bindAll h') hs' (hname'.trans hname)).2
        rcases hstays with rfl | hforeign
        · exact .inl hfile
        · right
          intro t ht htname
          rcases (distinct_bindAll h').apart t ht s' hs'
            (htname.trans (hname'.trans hname).symm) with rfl | ⟨-, -, hnot⟩
          · rfl
          · rw [hforeign] at hnot
            cases hnot
      · rw [hpreferred, hscan]
        exact scan_of_file (distinct_bindAll h) hs hname hfile none 0

theorem any_into (hkind : A.kind ≠ .generic) (hb : b.Untouched W P (A.into P i) table A o) :
    (o.locals.flatten ++ table').any (fun s ↦ s.name == o.name) =
      (o.locals.flatten ++ table).any fun s ↦ s.name == o.name := by
  rw [List.any_append, List.any_append]
  rcases hb.name with hname | ⟨hgeneric, -⟩ | ⟨-, ⟨l, hl, hname⟩ | ⟨-, s, hs, hname, -⟩⟩
  · rw [any_of_filter (filter_grown h h' hname)]
  · exact absurd hgeneric hkind
  · have hany : o.locals.flatten.any (fun s ↦ s.name == o.name) = true :=
      List.any_eq_true.2 ⟨l, hl, by simpa using hname⟩
    rw [hany, Bool.true_or, Bool.true_or]
  · obtain ⟨s', hs', -, hname', -⟩ := exists_grown h h' hs
    have hany : table.any (fun s ↦ s.name == o.name) = true :=
      List.any_eq_true.2 ⟨s, hs, by simpa using hname⟩
    have hany' : table'.any (fun s ↦ s.name == o.name) = true :=
      List.any_eq_true.2 ⟨s', hs', by simpa using hname'.trans hname⟩
    rw [hany, hany']

end Bound

/-- An addition leaves the meaning of a name that it does not touch. -/
theorem meaning_into (hP : P.bindings sameType = some (table, symbols))
    (hP' : (A.into P i).bindings sameType = some (table', symbols'))
    (h : b.Untouched W P (A.into P i) table A o) :
    meaning W (A.into P i) table' b o = meaning W P table b o := by
  have hT : Distinct table := distinct_bindAll hP
  have htemplates := find?_templates_into (o := o) A P i
    (h.name.imp_right fun h ↦ h.imp_right And.left)
  have hpreferred := lookup_preferred hT h
  rw [meaning, meaning]
  congr 1
  rcases tables_into hP hP' with ⟨-, rfl⟩ | ⟨hkind, later, earlier, hdecls, hdecls'⟩
  · rw [checkId_congr htemplates (.inl hpreferred)]
  · have hqualified : qualified W table' o.name o.path = qualified W table o.name o.path := by
      apply qualified_congr
      intro labels n rest m hpath hm
      rw [find?_file_grown hdecls hdecls']
      rintro rfl
      have hspelled := h.spelled hkind
      constructor
      · rw [← Bool.not_eq_true]
        exact fun hforeign ↦ hspelled ⟨labels, rest, m, hpath, hm, .inl hforeign⟩
      · exact fun hfile ↦ hspelled ⟨labels, rest, m, hpath, hm, .inr hfile⟩
    rw [checkId_congr htemplates (lookup_into hdecls hdecls' hkind h),
      any_into hdecls hdecls' hkind h, hqualified]

end Meanings

/-! ## `Array.reserve` beside a program of the user -/

def mainDecl : Decl := ⟨"main", "main.tc", false⟩

/-- The functions and variables of a program that imports `std.collections`. -/
def userProgram : Program where
  functions := [mainDecl]
  globals := []
  templates := [⟨"Array", "collections.tc", false⟩, ⟨"Map", "collections.tc", false⟩]
  mainFile := "main.tc"

def userModules : Surroundings where
  modules := [("std.collections", "collections.tc")]
  typeFile := fun _ ↦ none

/-- `required <= capacity` in `Array.reserve`. -/
def reserve : Body where
  file := "collections.tc"
  isProperty := false
  members := some ["data", "length", "capacity", "create", "reserve", "push", "pop"]
  names := [⟨"required", [], false, false, [[⟨"required", "collections.tc", false⟩]]⟩,
    ⟨"capacity", [], false, false, [[⟨"required", "collections.tc", false⟩]]⟩]

end TinyCPlus.Compiler.ModuleLookup
