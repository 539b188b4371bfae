import Mathlib.Data.Finset.Card
import TinyCPlus.Library.DepthFirst

/-!
# Loading the files of a program (`load_module`, `load_program`)

The top level of each file is spliced behind the files that it imports.  Files that were loaded
before are passed over, so import cycles end.
-/

namespace TinyCPlus.Compiler.Modules

open Library

abbrev Path := List Char

/-- A node at the top level of a file. -/
structure Item (δ : Type) where
  content : δ
  /-- The dotted name of an import. -/
  importName : Option (List Char)
  /-- `has_tasks` of the node. -/
  tasks : Bool
deriving DecidableEq

/-- The file system, with the lexer and the parser applied to each file. -/
structure Host (δ : Type) where
  /-- `canonical_path` -/
  canonical : Path → Option Path
  parse : Path → Option (List (Item δ))

inductive LoadError where
  | unresolved | unreadable | tooMany | preludeItself
  /-- The calls of `load_module` do not come to an end. -/
  | endless
deriving DecidableEq

variable {δ : Type} (host : Host δ) (root : Path)

/-! ## Paths -/

def isSeparator (c : Char) : Bool := c == '/' || c == '\\'

/-- The directory of a path, without the separator. -/
def directory (path : Path) : Path :=
  ((path.reverse.dropWhile fun c ↦ !isSeparator c).drop 1).reverse

def importPath (path : Path) (name : List Char) : Path :=
  let relative := name.map fun c ↦ if c = '.' then '/' else c
  if "std/".toList <+: relative then root ++ '/' :: relative ++ ".tc".toList
  else if directory path ≠ [] then directory path ++ '/' :: relative ++ ".tc".toList
  else relative ++ ".tc".toList

def preludePath : Path := root ++ "/std/prelude.tc".toList

def concurrentPath : Path := root ++ "/std/concurrent.tc".toList

/-! ## Loading -/

/-- The loop over the imports of a file. -/
def importAll
    (load : List Path → Path → Except LoadError (List Path × Option (List (Path × Item δ)))) :
    List Path → List Path → Except LoadError (List Path × List (Path × Item δ))
  | [], loaded => return (loaded, [])
  | spelling :: rest, loaded => do
      let (loaded, dep) ← load loaded spelling
      let (loaded, combined) ← importAll load rest loaded
      return (loaded, dep.getD [] ++ combined)

/-- `load_module`, with so many calls inside each other: the files loaded, latest first, and the
nodes with their file, unless the file was loaded before. -/
def loadModule :
    ℕ → List Path → Path → Except LoadError (List Path × Option (List (Path × Item δ)))
  | 0, _, _ => throw .endless
  | fuel + 1, loaded, spelling =>
      match host.canonical spelling with
      | none => throw .unresolved
      | some path =>
          if path ∈ loaded then return (loaded, none)
          else if 256 ≤ loaded.length then throw .tooMany
          else
            match host.parse path with
            | none => throw .unreadable
            | some items => do
                let imports := (items.filterMap Item.importName).map (importPath root path)
                let (loaded, combined) ←
                  importAll (loadModule fuel) imports (path :: loaded)
                return (loaded, some (combined ++ items.map fun item ↦ (path, item)))

/-- `load_program`: the nodes of the program. -/
def loadProgram (fuel : ℕ) (path : Path) : Except LoadError (List (Path × Item δ)) := do
  let (loaded, base) ← loadModule host root fuel [] (preludePath root)
  let (loaded, user) ← loadModule host root fuel loaded path
  match user with
  | none => throw .preludeItself
  | some user =>
      if user.any fun x ↦ x.2.tasks then do
        let (_, concurrent) ← loadModule host root fuel loaded (concurrentPath root)
        return base.getD [] ++ concurrent.getD [] ++ user
      else return base.getD [] ++ user

/-! ## Import graphs -/

def items (p : Path) : List (Item δ) := (host.parse p).getD []

/-- The files that a file imports. -/
def next (p : Path) : List Path :=
  ((items host p).filterMap Item.importName).filterMap fun name ↦
    host.canonical (importPath root p name)

/-- So many files at most, with all that they import. -/
structure ImportGraph (files : Finset Path) : Prop where
  small : files.card ≤ 256
  parsed : ∀ p ∈ files, (host.parse p).isSome = true
  imported : ∀ p ∈ files, ∀ item ∈ items host p, ∀ name, item.importName = some name →
    ∃ q ∈ files, host.canonical (importPath root p name) = some q

/-- The nodes of a file, as they stand in the program. -/
def chunk (p : Path) : List (Path × Item δ) := (items host p).map fun item ↦ (p, item)

/-! ## Runs of the loader -/

section Runs

variable {host root} {files : Finset Path}

theorem card_of_subset {loaded : List Path} (hnodup : loaded.Nodup)
    (hsubset : ∀ x ∈ loaded, x ∈ files) : loaded.length ≤ files.card := by
  rw [← List.toFinset_card_of_nodup hnodup]
  exact Finset.card_le_card fun x hx ↦ hsubset x (List.mem_toFinset.mp hx)

theorem nodup_of_visit {loaded todo loaded' order : List Path}
    (h : Visit (next host root) loaded todo loaded' order) (hnodup : loaded.Nodup) :
    loaded'.Nodup := by
  induction h with
  | nil seen => exact hnodup
  | known _ _ ih => exact ih hnodup
  | fresh ha _ _ ih₁ ih₂ => exact ih₂ (ih₁ (List.nodup_cons.mpr ⟨ha, hnodup⟩))

/-- What a call leaves: a visit of the file, and its nodes in the order of the visit. -/
structure Loads (host : Host δ) (root : Path) (files : Finset Path) (loaded : List Path)
    (todo loaded' order : List Path) : Prop where
  visit : Visit (next host root) loaded todo loaded' order
  subset : ∀ x ∈ loaded', x ∈ files

theorem Loads.length_le {loaded todo loaded' order : List Path}
    (h : Loads host root files loaded todo loaded' order) : loaded.length ≤ loaded'.length := by
  have := h.visit
  clear h
  induction this with
  | nil seen => exact Nat.le_refl _
  | known _ _ ih => exact ih
  | fresh _ _ _ ih₁ ih₂ =>
      simp only [List.length_cons] at ih₁
      omega

/-- Nothing is visited, and no nodes are spliced, where a file was loaded before. -/
theorem getD_of_known {loaded loaded' order : List Path} {p : Path}
    (h : Visit (next host root) loaded [p] loaded' order) :
    (if p ∈ loaded then none else some (order.flatMap (chunk host))).getD [] =
      order.flatMap (chunk host) := by
  split_ifs with hknown
  · cases h with
    | known _ hvisit =>
        cases hvisit
        rfl
    | fresh hfresh _ _ => exact absurd hknown hfresh
  · rfl

/-- The loop over the imports, where the calls in it are visits. -/
theorem importAll_loads
    (load : List Path → Path → Except LoadError (List Path × Option (List (Path × Item δ))))
    (bound : ℕ)
    (hload : ∀ (loaded : List Path) (spelling p : Path), bound ≤ loaded.length →
      loaded.Nodup → (∀ x ∈ loaded, x ∈ files) → host.canonical spelling = some p → p ∈ files →
      ∃ loaded' order, load loaded spelling =
        .ok (loaded', if p ∈ loaded then none else some (order.flatMap (chunk host))) ∧
        Loads host root files loaded [p] loaded' order)
    (spellings : List Path) (hfound : ∀ s ∈ spellings, ∃ q ∈ files, host.canonical s = some q)
    (loaded : List Path) (hbound : bound ≤ loaded.length) (hnodup : loaded.Nodup)
    (hsubset : ∀ x ∈ loaded, x ∈ files) :
    ∃ loaded' order, importAll load spellings loaded =
      .ok (loaded', order.flatMap (chunk host)) ∧
      Loads host root files loaded (spellings.filterMap host.canonical) loaded' order := by
  induction spellings generalizing loaded with
  | nil => exact ⟨loaded, [], rfl, .nil loaded, hsubset⟩
  | cons spelling rest ih =>
      obtain ⟨q, hq, hcanonical⟩ := hfound spelling List.mem_cons_self
      obtain ⟨loaded₁, o₁, hrun, hloads⟩ :=
        hload loaded spelling q hbound hnodup hsubset hcanonical hq
      obtain ⟨loaded₂, o₂, hrest, hloads'⟩ :=
        ih (fun s hs ↦ hfound s (List.mem_cons_of_mem spelling hs)) loaded₁
          (hbound.trans hloads.length_le) (nodup_of_visit hloads.visit hnodup) hloads.subset
      have hdep := getD_of_known hloads.visit
      refine ⟨loaded₂, o₁ ++ o₂, ?_, ?_, hloads'.subset⟩
      · rw [importAll, hrun]
        simp only [Bind.bind, Except.bind, hrest, hdep, pure, Except.pure, List.flatMap_append]
      · rw [List.filterMap_cons_some hcanonical]
        exact hloads.visit.append hloads'.visit

/-- With more turns than there are files left, a call loads what can be reached. -/
theorem loadModule_loads (hgraph : ImportGraph host root files) (fuel : ℕ)
    (loaded : List Path) (spelling p : Path) (hfuel : files.card < fuel + loaded.length)
    (hnodup : loaded.Nodup) (hsubset : ∀ x ∈ loaded, x ∈ files)
    (hcanonical : host.canonical spelling = some p) (hp : p ∈ files) :
    ∃ loaded' order, loadModule host root fuel loaded spelling =
      .ok (loaded', if p ∈ loaded then none else some (order.flatMap (chunk host))) ∧
      Loads host root files loaded [p] loaded' order := by
  induction fuel generalizing loaded spelling p with
  | zero =>
      have := card_of_subset hnodup hsubset
      omega
  | succ fuel ih =>
      rw [loadModule, hcanonical]
      by_cases hknown : p ∈ loaded
      · refine ⟨loaded, [], ?_, .known hknown (.nil loaded), hsubset⟩
        simp only [if_pos hknown]
        rfl
      · have hnodup' : (p :: loaded).Nodup := List.nodup_cons.mpr ⟨hknown, hnodup⟩
        have hsubset' : ∀ x ∈ p :: loaded, x ∈ files := by
          intro x hx
          rcases List.mem_cons.mp hx with rfl | hx
          · exact hp
          · exact hsubset x hx
        have hcard := card_of_subset hnodup' hsubset'
        have hsmall := hgraph.small
        have hlimit : ¬256 ≤ loaded.length := by
          rw [List.length_cons] at hcard
          omega
        obtain ⟨parsed, hparsed⟩ := Option.isSome_iff_exists.mp (hgraph.parsed p hp)
        have hitems : items host p = parsed := by
          rw [items, hparsed]
          rfl
        have hfound : ∀ s ∈ ((parsed.filterMap Item.importName).map (importPath root p)),
            ∃ q ∈ files, host.canonical s = some q := by
          intro s hs
          obtain ⟨name, hname, rfl⟩ := List.mem_map.mp hs
          obtain ⟨item, hitem, hname⟩ := List.mem_filterMap.mp hname
          exact hgraph.imported p hp item (hitems ▸ hitem) name hname
        obtain ⟨loaded', order, hrun, hloads⟩ := importAll_loads (loadModule host root fuel)
          (loaded.length + 1)
          (fun loaded' s q hlength ↦ ih loaded' s q (by omega)) _ hfound (p :: loaded)
          (by simp) hnodup' hsubset'
        have hnext : ((parsed.filterMap Item.importName).map (importPath root p)).filterMap
            host.canonical = next host root p := by
          rw [next, hitems, List.filterMap_map]
          rfl
        rw [hnext] at hloads
        refine ⟨loaded', order ++ [p], ?_, ?_, hloads.subset⟩
        · simp only [if_neg hknown, if_neg hlimit, hparsed, Bind.bind, Except.bind, hrun, pure,
            Except.pure, List.flatMap_append, List.flatMap_singleton, chunk, hitems]
        · exact .fresh hknown hloads.visit (.nil loaded')

end Runs

/-! ## Programs -/

/-- The files of a program: `files` holds the prelude and the main file and all that they import,
and `std.concurrent` where it is loaded for the tasks of the program. -/
structure Program (host : Host δ) (root path : Path) where
  files : Finset Path
  graph : ImportGraph host root files
  prelude : Path
  prelude_eq : host.canonical (preludePath root) = some prelude
  prelude_mem : prelude ∈ files
  main : Path
  main_eq : host.canonical path = some main
  main_mem : main ∈ files
  concurrent : Path
  concurrent_eq : (∃ p, Reaches (next host root) main p ∧ ¬Reaches (next host root) prelude p ∧
    ∃ item ∈ items host p, item.tasks = true) →
      host.canonical (concurrentPath root) = some concurrent ∧ concurrent ∈ files

namespace Program

variable {host : Host δ} {root path : Path} (program : Program host root path)

/-- A file that is loaded for the main file has tasks. -/
def UsesTasks : Prop :=
  ∃ p, Reaches (next host root) program.main p ∧ ¬Reaches (next host root) program.prelude p ∧
    ∃ item ∈ items host p, item.tasks = true

/-- The files of the program. -/
def Includes (p : Path) : Prop :=
  Reaches (next host root) program.prelude p ∨ Reaches (next host root) program.main p ∨
    (program.UsesTasks ∧ Reaches (next host root) program.concurrent p)

/-- Each file stands in the body once, in one piece and in its order, and behind the files that it
imports unless it is on a cycle with them. -/
structure Arranged (body : List (Path × Item δ)) : Prop where
  included : ∀ x ∈ body, program.Includes x.1
  once : ∀ p, program.Includes p → body.filter (fun x ↦ x.1 = p) = chunk host p
  contiguous : ∀ p, program.Includes p → chunk host p <:+: body
  behind : ∀ p, program.Includes p → ∀ q ∈ next host root p, ¬Reaches (next host root) q p →
    ∀ pre x post, body = pre ++ x :: post → x.1 = p → ∀ y ∈ post, y.1 ≠ q

/-- `load_program` comes to an end, with an arranged body unless the main file is loaded for the
prelude. -/
def LoadsArranged (fuel : ℕ) : Prop :=
  (loadProgram host root fuel path = .error .preludeItself ∧
    Reaches (next host root) program.prelude program.main) ∨
  ∃ body, loadProgram host root fuel path = .ok body ∧ program.Arranged body

/-! ## Bodies in the order of a visit -/

theorem mem_chunk {p : Path} {x : Path × Item δ} (hx : x ∈ chunk host p) : x.1 = p := by
  obtain ⟨item, -, rfl⟩ := List.mem_map.mp hx
  rfl

theorem mem_body {order : List Path} {x : Path × Item δ}
    (hx : x ∈ order.flatMap (chunk host)) : x.1 ∈ order := by
  obtain ⟨p, hp, hx⟩ := List.mem_flatMap.mp hx
  exact mem_chunk hx ▸ hp

theorem filter_body {order : List Path} (hnodup : order.Nodup) {p : Path} (hp : p ∈ order) :
    (order.flatMap (chunk host)).filter (fun x ↦ x.1 = p) = chunk host p := by
  have hnone : ∀ order : List Path, p ∉ order →
      (order.flatMap (chunk host)).filter (fun x ↦ decide (x.1 = p)) = [] := by
    intro order hp
    rw [List.filter_eq_nil_iff]
    intro x hx heq
    exact hp (of_decide_eq_true heq ▸ mem_body hx)
  have hall : (chunk host p).filter (fun x ↦ decide (x.1 = p)) = chunk host p := by
    rw [List.filter_eq_self]
    intro x hx
    exact decide_eq_true (mem_chunk hx)
  obtain ⟨before, after, rfl⟩ := List.append_of_mem hp
  rw [List.nodup_append, List.nodup_cons] at hnodup
  obtain ⟨-, ⟨hafter, -⟩, hbefore⟩ := hnodup
  have hbefore' : p ∉ before := fun hmem ↦ hbefore p hmem p List.mem_cons_self rfl
  rw [List.flatMap_append, List.flatMap_cons, List.filter_append, List.filter_append, hall,
    hnone before hbefore', hnone after hafter]
  simp

theorem contiguous_body {order : List Path} {p : Path} (hp : p ∈ order) :
    chunk host p <:+: order.flatMap (chunk host) := by
  obtain ⟨before, after, rfl⟩ := List.append_of_mem hp
  exact ⟨before.flatMap (chunk host), after.flatMap (chunk host), by simp⟩

/-- The nodes of a file that stands before another. -/
theorem not_mem_of_before {order : List Path} (hnodup : order.Nodup) {q p : Path}
    (h : Before q p order) {pre post : List (Path × Item δ)} {x : Path × Item δ}
    (hbody : order.flatMap (chunk host) = pre ++ x :: post) (hx : x.1 = p) :
    ∀ y ∈ post, y.1 ≠ q := by
  obtain ⟨before, after, rfl, hq⟩ := h
  rw [List.nodup_append] at hnodup
  obtain ⟨-, hafter, hdisjoint⟩ := hnodup
  intro y hy heq
  have hsplit : (before ++ p :: after).flatMap (chunk host) =
      before.flatMap (chunk host) ++ (p :: after).flatMap (chunk host) := List.flatMap_append
  rw [hsplit] at hbody
  rcases List.append_eq_append_iff.mp hbody with ⟨middle, -, hpost⟩ | ⟨middle, hpre, hpost⟩
  · have hy' : y ∈ (p :: after).flatMap (chunk host) := by
      rw [hpost]
      exact List.mem_append_right middle (List.mem_cons_of_mem x hy)
    exact hdisjoint q hq y.1 (mem_body hy') heq.symm
  · cases middle with
    | nil =>
        have hy' : y ∈ (p :: after).flatMap (chunk host) := by
          rw [← List.nil_append ((p :: after).flatMap (chunk host)), ← hpost]
          exact List.mem_cons_of_mem x hy
        exact hdisjoint q hq y.1 (mem_body hy') heq.symm
    | cons z middle =>
        have hz : x = z := (List.cons.inj hpost).1
        have hmem : z ∈ before.flatMap (chunk host) := by
          rw [hpre]
          exact List.mem_append_right pre List.mem_cons_self
        apply hdisjoint z.1 (mem_body hmem) p List.mem_cons_self
        rw [← hz, hx]

theorem arranged_of_order {order : List Path} (hnodup : order.Nodup)
    (hmem : ∀ p, p ∈ order ↔ program.Includes p)
    (hbehind : ∀ p ∈ order, ∀ q ∈ next host root p, ¬Reaches (next host root) q p →
      Before q p order ∨ items host q = []) :
    program.Arranged (order.flatMap (chunk host)) := by
  constructor
  · intro x hx
    exact (hmem x.1).mp (mem_body hx)
  · intro p hp
    exact filter_body hnodup ((hmem p).mpr hp)
  · intro p hp
    exact contiguous_body ((hmem p).mpr hp)
  · intro p hp q hq hcycle pre x post hbody hx y hy heq
    rcases hbehind p ((hmem p).mpr hp) q hq hcycle with hbefore | hempty
    · exact not_mem_of_before hnodup hbefore hbody hx y hy heq
    · have hy' : y ∈ order.flatMap (chunk host) := by
        rw [hbody]
        exact List.mem_append_right pre (List.mem_cons_of_mem x hy)
      obtain ⟨p', -, hchunk⟩ := List.mem_flatMap.mp hy'
      have hp' : q = p' := heq ▸ mem_chunk hchunk
      rw [← hp', chunk, hempty] at hchunk
      cases hchunk

/-! ## Runs of `load_program` -/

/-- The visits of a run: `o₁` is loaded for the prelude, `o₂` for the main file. -/
structure Visits (l₁ l₂ o₁ o₂ : List Path) : Prop where
  prelude : Visit (next host root) [] [program.prelude] l₁ o₁
  main : Visit (next host root) l₁ [program.main] l₂ o₂

section Visits

variable {program} {l₁ l₂ o₁ o₂ : List Path} (h : program.Visits l₁ l₂ o₁ o₂)

include h

theorem Visits.closed₁ : Visit.Closed (next host root) l₁ := h.prelude.closed (by simp [Visit.Closed])

theorem Visits.closed₂ : Visit.Closed (next host root) l₂ := h.main.closed h.closed₁

theorem Visits.mem₁ (p : Path) : p ∈ o₁ ↔ Reaches (next host root) program.prelude p := by
  rw [h.prelude.mem_order_iff (by simp [Visit.Closed])]
  simp

theorem Visits.mem_l₁ (p : Path) : p ∈ l₁ ↔ Reaches (next host root) program.prelude p := by
  rw [h.prelude.mem_seen_iff, h.mem₁]
  simp

theorem Visits.mem₂ (p : Path) : p ∈ o₂ ↔
    ¬Reaches (next host root) program.prelude p ∧ Reaches (next host root) program.main p := by
  rw [h.main.mem_order_iff h.closed₁, h.mem_l₁]
  simp

theorem Visits.mem_l₂ (p : Path) : p ∈ l₂ ↔
    Reaches (next host root) program.prelude p ∨ Reaches (next host root) program.main p := by
  rw [h.main.mem_seen_iff, h.mem_l₁, h.mem₂]
  tauto

theorem Visits.usesTasks_iff : ((o₂.flatMap (chunk host)).any fun x ↦ x.2.tasks) = true ↔
    program.UsesTasks := by
  rw [List.any_eq_true]
  constructor
  · rintro ⟨x, hx, htasks⟩
    obtain ⟨p, hp, hx⟩ := List.mem_flatMap.mp hx
    obtain ⟨item, hitem, rfl⟩ := List.mem_map.mp hx
    obtain ⟨hprelude, hmain⟩ := (h.mem₂ p).mp hp
    exact ⟨p, hmain, hprelude, item, hitem, htasks⟩
  · rintro ⟨p, hmain, hprelude, item, hitem, htasks⟩
    exact ⟨(p, item), List.mem_flatMap.mpr
      ⟨p, (h.mem₂ p).mpr ⟨hprelude, hmain⟩, List.mem_map_of_mem hitem⟩, htasks⟩

end Visits

/-- What a run of `load_program` can do. -/
theorem loadProgram_cases (fuel : ℕ) (hfuel : 256 < fuel) :
    (Reaches (next host root) program.prelude program.main ∧
      loadProgram host root fuel path = .error .preludeItself) ∨
    ∃ l₁ l₂ o₁ o₂, program.Visits l₁ l₂ o₁ o₂ ∧
      ((program.UsesTasks ∧ ∃ l₃ o₃, Visit (next host root) l₂ [program.concurrent] l₃ o₃ ∧
          loadProgram host root fuel path = .ok ((o₁ ++ o₃ ++ o₂).flatMap (chunk host))) ∨
        (¬program.UsesTasks ∧
          loadProgram host root fuel path = .ok ((o₁ ++ o₂).flatMap (chunk host)))) := by
  have hsmall := program.graph.small
  obtain ⟨l₁, o₁, hrun₁, hloads₁⟩ := loadModule_loads program.graph fuel [] (preludePath root)
    program.prelude (by simp; omega) List.nodup_nil (by simp) program.prelude_eq
    program.prelude_mem
  have hnodup₁ := nodup_of_visit hloads₁.visit List.nodup_nil
  obtain ⟨l₂, o₂, hrun₂, hloads₂⟩ := loadModule_loads program.graph fuel l₁ path program.main
    (by omega) hnodup₁ hloads₁.subset program.main_eq program.main_mem
  have hvisits : program.Visits l₁ l₂ o₁ o₂ := ⟨hloads₁.visit, hloads₂.visit⟩
  by_cases hknown : program.main ∈ l₁
  · refine .inl ⟨(hvisits.mem_l₁ _).mp hknown, ?_⟩
    rw [if_pos hknown] at hrun₂
    simp only [loadProgram, hrun₁, Bind.bind, Except.bind, hrun₂]
    rfl
  · refine .inr ⟨l₁, l₂, o₁, o₂, hvisits, ?_⟩
    rw [if_neg hknown] at hrun₂
    have hbase : (if program.prelude ∈ ([] : List Path) then none
        else some (o₁.flatMap (chunk host))) = some (o₁.flatMap (chunk host)) := by simp
    by_cases htasks : program.UsesTasks
    · left
      refine ⟨htasks, ?_⟩
      obtain ⟨hcanonical, hmem⟩ := program.concurrent_eq htasks
      obtain ⟨l₃, o₃, hrun₃, hloads₃⟩ := loadModule_loads program.graph fuel l₂
        (concurrentPath root) program.concurrent (by omega)
        (nodup_of_visit hloads₂.visit hnodup₁) hloads₂.subset hcanonical hmem
      have hdep := getD_of_known hloads₃.visit
      refine ⟨l₃, o₃, hloads₃.visit, ?_⟩
      simp only [loadProgram, hrun₁, Bind.bind, Except.bind, hrun₂, hbase,
        hvisits.usesTasks_iff.mpr htasks, if_true, hrun₃, hdep, pure, Except.pure,
        Option.getD_some, List.flatMap_append]
    · right
      refine ⟨htasks, ?_⟩
      have hany : ((o₂.flatMap (chunk host)).any fun x ↦ x.2.tasks) = false := by
        rw [Bool.eq_false_iff]
        exact fun h ↦ htasks (hvisits.usesTasks_iff.mp h)
      simp only [loadProgram, hrun₁, Bind.bind, Except.bind, hrun₂, hbase, hany,
        Bool.false_eq_true, if_false, pure, Except.pure, Option.getD_some, List.flatMap_append]

/-! ## The order of the files -/

/-- Where `std.concurrent` is loaded last, a file that it brings imports one of the main file's,
which stand behind it. -/
def ImportsBehind : Prop :=
  program.UsesTasks ∧ ∃ p q, Reaches (next host root) program.concurrent p ∧
    ¬Reaches (next host root) program.prelude p ∧ ¬Reaches (next host root) program.main p ∧
    q ∈ next host root p ∧ Reaches (next host root) program.main q ∧
    ¬Reaches (next host root) program.prelude q ∧ items host q ≠ []

section Order

variable {program} {l₁ l₂ l₃ o₁ o₂ o₃ : List Path} (h : program.Visits l₁ l₂ o₁ o₂)

include h

theorem Visits.arranged_of_noTasks (htasks : ¬program.UsesTasks) :
    program.Arranged ((o₁ ++ o₂).flatMap (chunk host)) := by
  have hall := h.prelude.append h.main
  apply program.arranged_of_order hall.order_nodup.1
  · intro p
    rw [List.mem_append, h.mem₁, h.mem₂, Includes]
    tauto
  · intro p hp q hq hcycle
    have hmem : q ∈ o₁ ++ o₂ :=
      ((hall.mem_seen_iff q).mp (hall.next_subset p hp q hq)).resolve_left (by simp)
    exact .inl ((hall.before_or_reaches p hp q hq hmem).resolve_right hcycle)

theorem Visits.mem₃ (h₃ : Visit (next host root) l₂ [program.concurrent] l₃ o₃) (p : Path) :
    p ∈ o₃ ↔ (¬Reaches (next host root) program.prelude p ∧
      ¬Reaches (next host root) program.main p) ∧
        Reaches (next host root) program.concurrent p := by
  rw [h₃.mem_order_iff h.closed₂, h.mem_l₂]
  simp

theorem Visits.nodup₃ (h₃ : Visit (next host root) l₂ [program.concurrent] l₃ o₃) :
    (o₁ ++ o₃ ++ o₂).Nodup := by
  have hmem₃ := h.mem₃ h₃
  rw [List.nodup_append, List.nodup_append]
  refine ⟨⟨h.prelude.order_nodup.1, h₃.order_nodup.1, ?_⟩, h.main.order_nodup.1, ?_⟩
  · rintro p hp q hq rfl
    exact ((hmem₃ p).mp hq).1.1 ((h.mem₁ p).mp hp)
  · rintro p hp q hq rfl
    obtain ⟨hprelude, hmain⟩ := (h.mem₂ p).mp hq
    rcases List.mem_append.mp hp with hp | hp
    · exact hprelude ((h.mem₁ p).mp hp)
    · exact ((hmem₃ p).mp hp).1.2 hmain

theorem Visits.arranged_of_tasks (htasks : program.UsesTasks)
    (h₃ : Visit (next host root) l₂ [program.concurrent] l₃ o₃)
    (hbehind : ¬program.ImportsBehind) :
    program.Arranged ((o₁ ++ o₃ ++ o₂).flatMap (chunk host)) := by
  have hmem₃ := h.mem₃ h₃
  apply program.arranged_of_order (h.nodup₃ h₃)
  · intro p
    rw [List.mem_append, List.mem_append, h.mem₁, h.mem₂, hmem₃, Includes]
    tauto
  · intro p hp q hq hcycle
    rcases List.mem_append.mp hp with hp | hp
    · rcases List.mem_append.mp hp with hp | hp
      · have hmem : q ∈ o₁ :=
          ((h.prelude.mem_seen_iff q).mp (h.prelude.next_subset p hp q hq)).resolve_left
            (by simp)
        have hbefore := (h.prelude.before_or_reaches p hp q hq hmem).resolve_right hcycle
        exact .inl ((hbefore.append_right o₃).append_right o₂)
      · obtain ⟨⟨hprelude, hmain⟩, hconcurrent⟩ := (hmem₃ p).mp hp
        rcases (h₃.mem_seen_iff q).mp (h₃.next_subset p hp q hq) with hq₂ | hq₃
        · by_cases hq₁ : Reaches (next host root) program.prelude q
          · exact .inl ((before_of_mem ((h.mem₁ q).mpr hq₁) hp).append_right o₂)
          · -- the file that is imported stands behind, so it has to be empty
            have hq₂ := ((h.mem_l₂ q).mp hq₂).resolve_left hq₁
            by_contra hnot
            exact hbehind ⟨htasks, p, q, hconcurrent, hprelude, hmain, hq, hq₂, hq₁,
              fun hempty ↦ hnot (.inr hempty)⟩
        · have hbefore := (h₃.before_or_reaches p hp q hq hq₃).resolve_right hcycle
          exact .inl ((hbefore.append_left o₁).append_right o₂)
    · rcases (h.main.mem_seen_iff q).mp (h.main.next_subset p hp q hq) with hq₁ | hq₂
      · have hq₁ := (h.mem₁ q).mpr ((h.mem_l₁ q).mp hq₁)
        exact .inl (before_of_mem (List.mem_append_left o₃ hq₁) hp)
      · have hbefore := (h.main.before_or_reaches p hp q hq hq₂).resolve_right hcycle
        exact .inl (hbefore.append_left (o₁ ++ o₃))

theorem Visits.not_arranged (htasks : program.UsesTasks)
    (h₃ : Visit (next host root) l₂ [program.concurrent] l₃ o₃)
    (hbehind : program.ImportsBehind) :
    ¬program.Arranged ((o₁ ++ o₃ ++ o₂).flatMap (chunk host)) := by
  intro harranged
  obtain ⟨-, p, q, hconcurrent, hprelude, hmain, hq, hqmain, hqprelude, hitems⟩ := hbehind
  have hp : p ∈ o₃ := (h.mem₃ h₃ p).mpr ⟨⟨hprelude, hmain⟩, hconcurrent⟩
  have hq₂ : q ∈ o₂ := (h.mem₂ q).mpr ⟨hqprelude, hqmain⟩
  have hcycle : ¬Reaches (next host root) q p := fun hreach ↦ hmain (hqmain.trans hreach)
  -- the node of the import is one of the file's nodes
  obtain ⟨x, hx⟩ : ∃ x, x ∈ chunk host p := by
    obtain ⟨name, hname, -⟩ := List.mem_filterMap.mp hq
    obtain ⟨item, hitem, -⟩ := List.mem_filterMap.mp hname
    exact ⟨(p, item), List.mem_map_of_mem hitem⟩
  obtain ⟨item, hitem⟩ := List.exists_mem_of_ne_nil _ hitems
  have hy : (q, item) ∈ o₂.flatMap (chunk host) :=
    List.mem_flatMap.mpr ⟨q, hq₂, List.mem_map_of_mem hitem⟩
  have hx' : x ∈ (o₁ ++ o₃).flatMap (chunk host) :=
    List.mem_flatMap.mpr ⟨p, List.mem_append_right o₁ hp, hx⟩
  obtain ⟨pre, post, hsplit⟩ := List.append_of_mem hx'
  have hbody : (o₁ ++ o₃ ++ o₂).flatMap (chunk host) =
      pre ++ x :: (post ++ o₂.flatMap (chunk host)) := by
    rw [List.flatMap_append, hsplit]
    simp
  exact harranged.behind p (.inr (.inr ⟨htasks, hconcurrent⟩)) q hq hcycle pre x _ hbody
    (mem_chunk hx) (q, item) (List.mem_append_right post hy) rfl

end Order

/-- The program is loaded in order except where `std.concurrent` brings a file that imports one of
the main file's. -/
theorem loadsArranged_iff (fuel : ℕ) (hfuel : 256 < fuel) :
    program.LoadsArranged fuel ↔ ¬program.ImportsBehind := by
  rcases program.loadProgram_cases fuel hfuel with
    ⟨hreach, hrun⟩ | ⟨l₁, l₂, o₁, o₂, hvisits, ⟨htasks, l₃, o₃, h₃, hrun⟩ | ⟨htasks, hrun⟩⟩
  · apply iff_of_true
    · exact .inl ⟨hrun, hreach⟩
    · -- all that the main file imports is then loaded for the prelude
      rintro ⟨-, -, q, -, -, -, -, hmain, hprelude, -⟩
      exact hprelude (hreach.trans hmain)
  · constructor
    · rintro (⟨herror, -⟩ | ⟨body, hbody, harranged⟩) hbehind
      · rw [hrun] at herror
        cases herror
      · rw [hrun] at hbody
        cases hbody
        exact hvisits.not_arranged htasks h₃ hbehind harranged
    · intro hbehind
      exact .inr ⟨_, hrun, hvisits.arranged_of_tasks htasks h₃ hbehind⟩
  · apply iff_of_true
    · exact .inr ⟨_, hrun, hvisits.arranged_of_noTasks htasks⟩
    · exact fun hbehind ↦ htasks hbehind.1

end Program

/-! ## A program with tasks and arrays -/

def importItem (name : String) : Item Unit := ⟨(), some name.toList, false⟩

/-- The main file has tasks and imports a file that `std.concurrent` imports too. -/
def taskFiles : List (Path × List (Item Unit)) :=
  [("std/prelude.tc".toList, [⟨(), none, false⟩]),
    ("main.tc".toList, [importItem "std.collections", ⟨(), none, true⟩]),
    ("std/concurrent.tc".toList, [importItem "std.collections", ⟨(), none, false⟩]),
    ("std/collections.tc".toList, [⟨(), none, false⟩])]

/-- Paths are taken from the directory of the compiler, which is `.`. -/
def taskHost : Host Unit where
  canonical path := some (if "./".toList <+: path then path.drop 2 else path)
  parse path := taskFiles.lookup path

def taskProgram : Program taskHost ".".toList "main.tc".toList where
  files := (taskFiles.map Prod.fst).toFinset
  graph := by
    have himported : ∀ p ∈ (taskFiles.map Prod.fst).toFinset, ∀ item ∈ items taskHost p,
        ∀ name ∈ item.importName, ∃ q ∈ (taskFiles.map Prod.fst).toFinset,
          taskHost.canonical (importPath ".".toList p name) = some q := by decide +kernel
    refine ⟨by decide +kernel, by decide +kernel, ?_⟩
    intro p hp item hitem name hname
    exact himported p hp item hitem name hname
  prelude := "std/prelude.tc".toList
  prelude_eq := by decide +kernel
  prelude_mem := by decide +kernel
  main := "main.tc".toList
  main_eq := by decide +kernel
  main_mem := by decide +kernel
  concurrent := "std/concurrent.tc".toList
  concurrent_eq _ := by decide +kernel

theorem loadsArranged_iff_tasks :
    taskProgram.LoadsArranged 257 ↔ ¬taskProgram.ImportsBehind :=
  taskProgram.loadsArranged_iff 257 (by omega)

/-- Nothing can be reached from a file without imports but itself. -/
theorem eq_of_reaches {δ : Type} {host : Host δ} {root p q : Path} (hnext : next host root p = [])
    (h : Reaches (next host root) p q) : q = p := by
  rcases Relation.ReflTransGen.cases_head h with heq | ⟨r, hr, -⟩
  · exact heq.symm
  · rw [hnext] at hr
    cases hr

/-- The nodes of `std.concurrent` stand before those of `std.collections`, which it imports. -/
theorem taskProgram_not_arranged : ¬taskProgram.LoadsArranged 257 := by
  have hcollections : next taskHost ".".toList "std/collections.tc".toList = [] := by
    decide +kernel
  have hprelude : next taskHost ".".toList "std/prelude.tc".toList = [] := by decide +kernel
  have htasks : taskProgram.UsesTasks := by
    refine ⟨"main.tc".toList, .refl, ?_, ⟨(), none, true⟩, by decide +kernel, rfl⟩
    intro h
    exact absurd (eq_of_reaches hprelude h) (by decide +kernel)
  have hcycle : ¬Reaches (next taskHost ".".toList) "std/collections.tc".toList
      "std/concurrent.tc".toList := by
    intro h
    exact absurd (eq_of_reaches hcollections h) (by decide +kernel)
  have hrun : loadProgram taskHost ".".toList 257 "main.tc".toList =
      .ok ((["std/prelude.tc".toList, "std/concurrent.tc".toList, "std/collections.tc".toList,
        "main.tc".toList]).flatMap (chunk taskHost)) := by
    rfl
  rintro (⟨herror, -⟩ | ⟨body, hbody, harranged⟩)
  · rw [hrun] at herror
    cases herror
  · rw [hrun] at hbody
    cases hbody
    exact harranged.behind "std/concurrent.tc".toList (.inr (.inr ⟨htasks, .refl⟩))
      "std/collections.tc".toList (by decide +kernel) hcycle
      (chunk taskHost "std/prelude.tc".toList ++
        [("std/concurrent.tc".toList, importItem "std.collections")])
      ("std/concurrent.tc".toList, ⟨(), none, false⟩)
      ((["std/collections.tc".toList, "main.tc".toList]).flatMap (chunk taskHost)) rfl rfl
      ("std/collections.tc".toList, ⟨(), none, false⟩) List.mem_cons_self rfl

end TinyCPlus.Compiler.Modules
