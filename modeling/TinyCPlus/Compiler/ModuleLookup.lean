import Mathlib.Data.List.Basic
import Mathlib.Data.List.Nodup

/-!
# Unqualified names (`lookup`, `bind`, `analyze`)

The declarations of all modules stand in one list of symbols.  `lookup` prefers the symbols
of one file: the file of the function under check, or `active_file` where no function is.
-/

namespace TinyCPlus.Compiler.ModuleLookup

/-! ## Symbols -/

/-- A function or variable at top level, with the file that it is written in. -/
structure Decl where
  name : String
  file : String
  isExtern : Bool
deriving DecidableEq

/-- A symbol is the node of its first declaration. -/
abbrev Symbol := Decl

/-- `bind` passes over a symbol of the same name in another file. -/
def passedOver (d : Decl) (s : Symbol) : Bool :=
  s.file != d.file && !d.isExtern && !s.isExtern && d.name != "main"

variable (sameType : Decl → Decl → Bool)

/-- `bind` in the global scope: the new list of symbols and the symbol of the declaration. -/
def bind (table : List Symbol) (d : Decl) : Option (List Symbol × Symbol) :=
  match table.find? (fun s ↦ s.name == d.name && !passedOver d s) with
  | none => some (d :: table, d)
  | some s => if d.isExtern && s.isExtern && sameType d s then some (table, s) else none

/-- The declarations one after the other: the list of symbols and the symbol of each. -/
def bindAll : List Decl → Option (List Symbol × List (Decl × Symbol))
  | [] => some ([], [])
  | d :: earlier =>
      (bindAll earlier).bind fun r ↦
        (bind sameType r.1 d).map fun b ↦ (b.1, (d, b.2) :: r.2)

inductive LookupResult where
  | found (s : Symbol)
  | undefined
  | ambiguous
deriving DecidableEq

/-- The loop of `lookup` over the global scope. -/
def scanGlobal (file name : String) : List Symbol → Option Symbol → ℕ → LookupResult
  | [], candidate, found =>
      if 1 < found then .ambiguous
      else match candidate with
        | some s => .found s
        | none => .undefined
  | v :: rest, candidate, found =>
      if v.name = name then
        if v.file = file then .found v else scanGlobal file name rest (some v) (found + 1)
      else scanGlobal file name rest candidate found

/-- `lookup`: the scopes inside the global one first, innermost first. -/
def lookup (locals : List (List Symbol)) (table : List Symbol) (file name : String) :
    LookupResult :=
  match locals.flatten.find? (·.name == name) with
  | some s => .found s
  | none => scanGlobal file name table none 0

/-! ## Programs -/

/-- A statement that declares variables at top level. -/
structure Global where
  file : String
  names : List (String × Bool)

def Global.decls (g : Global) : List Decl := g.names.map fun n ↦ ⟨n.1, g.file, n.2⟩

/-- A generic function or class. -/
structure Template where
  name : String
  file : String
  isFunction : Bool
deriving DecidableEq

/-- The top level of a program in its order, all modules together, and the file that is
compiled. -/
structure Program where
  functions : List Decl
  globals : List Global
  templates : List Template
  mainFile : String

/-- The bodies that `analyze` checks: functions and methods (async or not), initializers of
globals, computed properties, and lambdas inside any of them. -/
inductive Site (P : Program) where
  | function (file : String)
  | initializer (i : Fin P.globals.length)
  | property (file : String)
  | lambda (outer : Site P)

namespace Program

variable (P : Program)

/-- The declarations that are bound, latest first, once `n` globals are checked. -/
def declsBefore (n : ℕ) : List Decl :=
  ((P.globals.take n).flatMap Global.decls).reverse ++ P.functions.reverse

/-- All declarations bind. -/
def bindings : Option (List Symbol × List (Decl × Symbol)) :=
  bindAll sameType (P.declsBefore P.globals.length)

/-- `active_file` behind the globals: the file of the last one, else the file compiled. -/
def activeFile : String := (P.globals.getLast?.map Global.file).getD P.mainFile

end Program

namespace Site

variable {P : Program}

/-- The file that the body is written in. -/
def file : Site P → String
  | function f => f
  | initializer i => P.globals[i].file
  | property f => f
  | lambda outer => outer.file

/-- The file that `lookup` prefers. -/
def lookupFile : Site P → String
  | function f => f
  | initializer i => P.globals[i].file
  | property _ => P.activeFile
  | lambda outer => outer.file

/-- How many globals are checked before the body. -/
def checkedGlobals : Site P → ℕ
  | function _ => P.globals.length
  | initializer i => i
  | property _ => P.globals.length
  | lambda outer => outer.checkedGlobals

/-- The symbols that are there when the body is checked. -/
def symbols (site : Site P) : Option (List Symbol) :=
  (bindAll sameType (P.declsBefore site.checkedGlobals)).map Prod.fst

/-- `check_expr` of a name: what the name is in the body, below the local scopes. -/
def resolve (site : Site P) (locals : List (List Symbol)) (name : String) :
    Option LookupResult :=
  (site.symbols sameType).map fun table ↦ lookup locals table site.lookupFile name

inductive GenericResult where
  | ambiguous
  | instance (t : Template)
  | unknown
deriving DecidableEq

/-- `check_expr` of `name<…>`: the name is looked up first; the instance is made of the
first template of the program with the name. -/
def resolveGeneric (site : Site P) (locals : List (List Symbol)) (name : String) :
    Option GenericResult :=
  (site.resolve sameType locals name).map fun r ↦
    if r = .ambiguous then .ambiguous
    else match P.templates.find? (·.name == name) with
      | some t => .instance t
      | none => .unknown

end Site

/-! ## What binding keeps -/

/-- Two symbols of one name are of different files and not extern. -/
structure Distinct (table : List Symbol) : Prop where
  nodup : table.Nodup
  apart : ∀ s ∈ table, ∀ t ∈ table, s.name = t.name →
    s = t ∨ s.file ≠ t.file ∧ s.isExtern = false ∧ t.isExtern = false

/-- The symbol of a declaration is the declaration, or both are extern. -/
def SymbolOf (table : List Symbol) (d : Decl) (s : Symbol) : Prop :=
  s ∈ table ∧ s.name = d.name ∧ (s = d ∨ s.isExtern = true ∧ d.isExtern = true)

section Binding

variable {sameType} {table table' : List Symbol} {d : Decl} {s : Symbol}

theorem passedOver_iff : passedOver d s = true ↔
    s.file ≠ d.file ∧ d.isExtern = false ∧ s.isExtern = false ∧ d.name ≠ "main" := by
  simp only [passedOver, Bool.and_eq_true, bne_iff_ne, Bool.not_eq_true', and_assoc]

/-- A declaration is a new symbol, or an extern one that repeats another. -/
theorem bind_cases (h : bind sameType table d = some (table', s)) :
    (table' = d :: table ∧ s = d ∧
      ∀ t ∈ table, t.name = d.name →
        t.file ≠ d.file ∧ d.isExtern = false ∧ t.isExtern = false) ∨
    (table' = table ∧ s ∈ table ∧ s.name = d.name ∧ s.isExtern = true ∧ d.isExtern = true) := by
  unfold bind at h
  split at h
  · rename_i hnone
    cases h
    refine Or.inl ⟨rfl, rfl, fun t ht hname ↦ ?_⟩
    have hpassed := List.find?_eq_none.1 hnone t ht
    rw [beq_iff_eq.2 hname, Bool.true_and, Bool.not_eq_true, Bool.not_eq_false',
      passedOver_iff] at hpassed
    exact ⟨hpassed.1, hpassed.2.1, hpassed.2.2.1⟩
  · rename_i u hu
    split at h
    · rename_i hforeign
      cases h
      obtain ⟨⟨hd, hs⟩, -⟩ := by simpa only [Bool.and_eq_true] using hforeign
      have hname := List.find?_some hu
      rw [Bool.and_eq_true, beq_iff_eq] at hname
      exact Or.inr ⟨rfl, List.mem_of_find?_eq_some hu, hname.1, hs, hd⟩
    · cases h

theorem Distinct.bind (hT : Distinct table) (h : bind sameType table d = some (table', s)) :
    Distinct table' := by
  obtain ⟨rfl, -, hapart⟩ | ⟨rfl, -⟩ := bind_cases h
  · constructor
    · rw [List.nodup_cons]
      exact ⟨fun hd ↦ (hapart d hd rfl).1 rfl, hT.nodup⟩
    · intro t ht u hu hname
      rcases List.mem_cons.1 ht with rfl | htold
      · rcases List.mem_cons.1 hu with rfl | huold
        · exact Or.inl rfl
        · obtain ⟨hfile, hforeign⟩ := hapart u huold hname.symm
          exact Or.inr ⟨hfile.symm, hforeign⟩
      · rcases List.mem_cons.1 hu with rfl | huold
        · obtain ⟨hfile, hforeign⟩ := hapart t htold hname
          exact Or.inr ⟨hfile, hforeign.symm⟩
        · exact hT.apart t htold u huold hname
  · exact hT

theorem subset_bind (h : bind sameType table d = some (table', s)) : table ⊆ table' := by
  obtain ⟨rfl, -⟩ | ⟨rfl, -⟩ := bind_cases h
  · exact List.subset_cons_self _ _
  · exact List.Subset.refl _

theorem symbolOf_bind (h : bind sameType table d = some (table', s)) : SymbolOf table' d s := by
  obtain ⟨rfl, rfl, -⟩ | ⟨rfl, hs, hname, hforeign⟩ := bind_cases h
  · exact ⟨List.mem_cons_self, rfl, Or.inl rfl⟩
  · exact ⟨hs, hname, Or.inr hforeign⟩

end Binding

section BindAll

variable {sameType} {decls : List Decl} {table : List Symbol} {symbols : List (Decl × Symbol)}

theorem bindAll_cons {d : Decl} (h : bindAll sameType (d :: decls) = some (table, symbols)) :
    ∃ table' symbols' s, bindAll sameType decls = some (table', symbols') ∧
      bind sameType table' d = some (table, s) ∧ symbols = (d, s) :: symbols' := by
  obtain ⟨⟨table', symbols'⟩, hrest, hbind⟩ := Option.bind_eq_some_iff.1 h
  obtain ⟨⟨table'', s⟩, hb, heq⟩ := Option.map_eq_some_iff.1 hbind
  cases heq
  exact ⟨table', symbols', s, hrest, hb, rfl⟩

theorem distinct_bindAll (h : bindAll sameType decls = some (table, symbols)) :
    Distinct table := by
  induction decls generalizing table symbols with
  | nil =>
    cases h
    exact ⟨List.nodup_nil, fun s hs ↦ by cases hs⟩
  | cons d decls ih =>
    obtain ⟨table', symbols', s, hrest, hb, -⟩ := bindAll_cons h
    exact (ih hrest).bind hb

theorem symbolOf_bindAll (h : bindAll sameType decls = some (table, symbols)) :
    ∀ p ∈ symbols, SymbolOf table p.1 p.2 := by
  induction decls generalizing table symbols with
  | nil =>
    cases h
    intro p hp
    cases hp
  | cons d decls ih =>
    obtain ⟨table', symbols', s, hrest, hb, rfl⟩ := bindAll_cons h
    intro p hp
    rcases List.mem_cons.1 hp with rfl | hp
    · exact symbolOf_bind hb
    · obtain ⟨hmem, hsymbol⟩ := ih hrest p hp
      exact ⟨subset_bind hb hmem, hsymbol⟩

/-- What was bound before stays. -/
theorem bindAll_append {later : List Decl}
    (h : bindAll sameType (later ++ decls) = some (table, symbols)) :
    ∃ table' symbols', bindAll sameType decls = some (table', symbols') ∧ table' ⊆ table := by
  induction later generalizing table symbols with
  | nil => exact ⟨table, symbols, h, List.Subset.refl _⟩
  | cons d later ih =>
    obtain ⟨table₁, symbols₁, s, hrest, hb, -⟩ := bindAll_cons h
    obtain ⟨table', symbols', hdecls, hsub⟩ := ih hrest
    exact ⟨table', symbols', hdecls, List.Subset.trans hsub (subset_bind hb)⟩

end BindAll

/-! ## What the scan finds -/

section Scan

variable {file name : String} {table : List Symbol} {s : Symbol}

theorem scan_of_file (hT : Distinct table) (hs : s ∈ table) (hname : s.name = name)
    (hfile : s.file = file) : ∀ candidate found,
    scanGlobal file name table candidate found = .found s := by
  induction table with
  | nil => cases hs
  | cons v rest ih =>
    intro candidate found
    unfold scanGlobal
    by_cases hv : v.name = name
    · rw [if_pos hv]
      by_cases hvfile : v.file = file
      · rw [if_pos hvfile]
        rcases hT.apart v List.mem_cons_self s hs (hv.trans hname.symm) with rfl | ⟨hne, -⟩
        · rfl
        · exact absurd (hvfile.trans hfile.symm) hne
      · rw [if_neg hvfile]
        have hrest : s ∈ rest :=
          (List.mem_cons.1 hs).resolve_left fun heq ↦ hvfile (heq ▸ hfile)
        exact ih ⟨hT.nodup.of_cons, fun t ht u hu ↦ hT.apart t (List.mem_cons_of_mem v ht) u
          (List.mem_cons_of_mem v hu)⟩ hrest _ _
    · rw [if_neg hv]
      have hrest : s ∈ rest := (List.mem_cons.1 hs).resolve_left fun heq ↦ hv (heq ▸ hname)
      exact ih ⟨hT.nodup.of_cons, fun t ht u hu ↦ hT.apart t (List.mem_cons_of_mem v ht) u
        (List.mem_cons_of_mem v hu)⟩ hrest _ _

/-- Only the symbols of the name count. -/
theorem scan_filter (candidate : Option Symbol) (found : ℕ) :
    scanGlobal file name table candidate found =
      scanGlobal file name (table.filter fun t ↦ t.name = name) candidate found := by
  induction table generalizing candidate found with
  | nil => rfl
  | cons v rest ih =>
    by_cases hv : v.name = name
    · rw [List.filter_cons_of_pos (by simpa using hv)]
      simp only [scanGlobal, if_pos hv, ih]
    · rw [List.filter_cons_of_neg (by simpa using hv)]
      simp only [scanGlobal, if_neg hv, ih]

theorem scan_ambiguous (hT : ∀ t ∈ table, t.name = name ∧ t.file ≠ file) {found : ℕ}
    (candidate : Option Symbol) (hfound : 1 < found + table.length) :
    scanGlobal file name table candidate found = .ambiguous := by
  induction table generalizing candidate found with
  | nil => exact if_pos hfound
  | cons v rest ih =>
    obtain ⟨hv, hvfile⟩ := hT v List.mem_cons_self
    rw [scanGlobal, if_pos hv, if_neg hvfile]
    apply ih fun t ht ↦ hT t (List.mem_cons_of_mem v ht)
    rw [List.length_cons] at hfound
    omega

theorem mem_of_scan {candidate : Option Symbol} {found : ℕ}
    (h : scanGlobal file name table candidate found = .found s) : s ∈ table ∨ candidate = some s := by
  induction table generalizing candidate found with
  | nil =>
    unfold scanGlobal at h
    split at h
    · cases h
    · cases candidate with
      | none => cases h
      | some t =>
        cases h
        exact Or.inr rfl
  | cons v rest ih =>
    unfold scanGlobal at h
    split at h
    · split at h
      · cases h
        exact Or.inl List.mem_cons_self
      · rcases ih h with hs | hs
        · exact Or.inl (List.mem_cons_of_mem v hs)
        · cases hs
          exact Or.inl List.mem_cons_self
    · rcases ih h with hs | hs
      · exact Or.inl (List.mem_cons_of_mem v hs)
      · exact Or.inr hs

/-- A symbol is found where it is of the preferred file or the only one of its name. -/
theorem scan_found_iff (hT : Distinct table) (hs : s ∈ table) (hname : s.name = name) :
    scanGlobal file name table none 0 = .found s ↔
      s.file = file ∨ ∀ t ∈ table, t.name = name → t = s := by
  constructor
  · intro h
    by_contra hout
    push Not at hout
    obtain ⟨hfile, t, ht, htname, hts⟩ := hout
    by_cases hother : ∃ u ∈ table, u.name = name ∧ u.file = file
    · obtain ⟨u, hu, huname, hufile⟩ := hother
      rw [scan_of_file hT hu huname hufile] at h
      cases h
      exact hfile hufile
    · push Not at hother
      rw [scan_filter, scan_ambiguous] at h
      · cases h
      · intro u hu
        obtain ⟨hmem, huname⟩ := List.mem_filter.1 hu
        have huname : u.name = name := by simpa using huname
        exact ⟨huname, hother u hmem huname⟩
      · have hsmem : s ∈ table.filter fun t ↦ t.name = name := by simpa using ⟨hs, hname⟩
        have htmem : t ∈ table.filter fun t ↦ t.name = name := by simpa using ⟨ht, htname⟩
        rw [Nat.zero_add]
        by_contra hlength
        rcases hfilter : table.filter fun t ↦ t.name = name with _ | ⟨u, _ | ⟨w, rest⟩⟩
        · rw [hfilter] at hsmem
          cases hsmem
        · rw [hfilter, List.mem_singleton] at hsmem htmem
          exact hts (htmem.trans hsmem.symm)
        · rw [hfilter] at hlength
          simp only [List.length_cons] at hlength
          omega
  · rintro (hfile | halone)
    · exact scan_of_file hT hs hname hfile none 0
    · by_cases hfile : s.file = file
      · exact scan_of_file hT hs hname hfile none 0
      · have hfilter : (table.filter fun t ↦ t.name = name) = [s] := by
          have hnodup := hT.nodup.filter fun t ↦ t.name = name
          have hmem : s ∈ table.filter fun t ↦ t.name = name := by simpa using ⟨hs, hname⟩
          have hall : ∀ t ∈ table.filter fun t ↦ t.name = name, t = s := by
            intro t ht
            obtain ⟨htmem, htname⟩ := List.mem_filter.1 ht
            exact halone t htmem (by simpa using htname)
          rw [List.eq_replicate_of_mem hall] at hnodup hmem ⊢
          rcases hlength : (table.filter fun t ↦ t.name = name).length with _ | _ | n
          · rw [hlength] at hmem
            cases hmem
          · rw [hlength]
            rfl
          · rw [hlength] at hnodup
            exact absurd List.mem_cons_self (List.nodup_cons.1 hnodup).1
        rw [scan_filter, hfilter, scanGlobal, if_pos hname, if_neg hfile]
        rfl

end Scan

/-! ## What a name is in a body -/

section Sites

variable {sameType} {P : Program}

theorem declsBefore_append (P : Program) (n : ℕ) :
    ∃ later, P.declsBefore P.globals.length = later ++ P.declsBefore n := by
  refine ⟨((P.globals.drop n).flatMap Global.decls).reverse, ?_⟩
  have hsplit : P.globals.flatMap Global.decls =
      (P.globals.take n).flatMap Global.decls ++ (P.globals.drop n).flatMap Global.decls := by
    rw [← List.flatMap_append, List.take_append_drop]
  rw [Program.declsBefore, Program.declsBefore, List.take_length, hsplit, List.reverse_append,
    List.append_assoc]

/-- In a program whose declarations bind, every body sees a part of the symbols. -/
theorem symbols_of_bindings {table : List Symbol} {symbols : List (Decl × Symbol)}
    (h : P.bindings sameType = some (table, symbols)) (site : Site P) :
    ∃ seen, site.symbols sameType = some seen ∧ seen ⊆ table ∧ Distinct seen := by
  obtain ⟨later, hlater⟩ := declsBefore_append P site.checkedGlobals
  rw [Program.bindings, hlater] at h
  obtain ⟨seen, symbols', hseen, hsub⟩ := bindAll_append h
  refine ⟨seen, ?_, hsub, distinct_bindAll hseen⟩
  rw [Site.symbols, hseen]
  rfl

end Sites

/-! ## Two modules with a function of one name -/

def leftGet : Decl := ⟨"get", "left.tc", false⟩

def rightGet : Decl := ⟨"get", "right.tc", false⟩

/-- `get` in both modules; `right` declares a variable, and `left` too, behind it. -/
def twoModules : Program where
  functions := [leftGet, rightGet]
  globals := [⟨"left.tc", [("total", false)]⟩, ⟨"right.tc", [("count", false)]⟩]
  templates := []
  mainFile := "main.tc"

end TinyCPlus.Compiler.ModuleLookup
