import TinyCPlus.Compiler.TypeMaking

/-!
# Calls on the type table

The functions of `types.c` search one list by different keys.  The keys of an entry and of its
`const` copy overlap, and so do those of two generic types with one name; in a run without such a
meeting every function gives the type that it is asked for, and the same entry again.
-/

namespace TinyCPlus.Compiler

open TypeTable TypeEntry

/-! ## Equal types -/

namespace TypeEntry

/-- The entries agree in what `type_equal` compares of them, the entries inside apart. -/
structure SameHead (x y : TypeEntry) : Prop where
  kind : x.kind = y.kind
  qualified : x.qualified = y.qualified
  name : y.kind = .named → x.name = y.name
  count : y.kind = .pointer ∨ y.kind = .array ∨ y.kind = .slice → x.count = y.count
  base : y.IsFunction → x.base.isSome = y.base.isSome

theorem SameHead.refl (x : TypeEntry) : SameHead x x :=
  ⟨rfl, rfl, fun _ ↦ rfl, fun _ ↦ rfl, fun _ ↦ rfl⟩

theorem SameHead.symm {x y : TypeEntry} (h : SameHead x y) : SameHead y x where
  kind := h.kind.symm
  qualified := h.qualified.symm
  name hx := (h.name (h.kind ▸ hx)).symm
  count hx := (h.count (h.kind ▸ hx)).symm
  base hx := (h.base (by rwa [IsFunction, ← h.kind])).symm

theorem SameHead.trans {x y z : TypeEntry} (h : SameHead x y) (h' : SameHead y z) :
    SameHead x z where
  kind := h.kind.trans h'.kind
  qualified := h.qualified.trans h'.qualified
  name hz := (h.name (h'.kind.trans hz)).trans (h'.name hz)
  count hz := (h.count (h'.kind ▸ hz)).trans (h'.count hz)
  base hz := (h.base (by rwa [IsFunction, h'.kind])).trans (h'.base hz)

end TypeEntry

/-- Two entries are the same type, by their forms and the entries inside. -/
inductive Same (s : TypeTable) : ℕ → ℕ → Prop where
  | intro {p q : ℕ} {x y : TypeEntry} (hx : s.entries[p]? = some x) (hy : s.entries[q]? = some y)
      (hhead : SameHead x y) (hparts : List.Forall₂ (Same s) x.pointers y.pointers) : Same s p q

theorem entryEqual_iff {eq : ℕ → ℕ → Option Bool} {x y : TypeEntry}
    (hx : x.kind = .tuple → x.base = none) (hy : y.kind = .tuple → y.base = none)
    (henum : y.kind ≠ .enum) :
    entryEqual eq x y = some true ↔
      SameHead x y ∧ List.Forall₂ (fun p q ↦ eq p q = some true) x.pointers y.pointers := by
  constructor
  · intro h
    obtain ⟨hkind, hqualified, hnamed, hderived, hboth⟩ := entryEqual_cases h
    refine ⟨⟨hkind, hqualified, fun h ↦ (hnamed h).1, fun h ↦ (hderived h).1, fun h ↦ ?_⟩,
      (entryEqual_eq_true h).2.2.2⟩
    exact isSome_of_baseEqual (hboth (.inr h)).1
  · rintro ⟨⟨hkind, hqualified, hname, hcount, hbase⟩, hparts⟩
    have hfunction : y.IsFunction →
        List.Forall₂ (fun p q ↦ eq p q = some true) (x.base.toList ++ x.items)
          (y.base.toList ++ y.items) →
        baseEqual eq x.base y.base = some true ∧ itemsEqual eq x.items y.items = some true := by
      intro hy hparts
      rw [baseEqual_eq_true, itemsEqual_eq_true]
      have hsome := hbase hy
      cases hxb : x.base with
      | none =>
          rw [hxb] at hsome hparts
          have hyb : y.base = none := by simpa using hsome.symm
          rw [hyb] at hparts ⊢
          exact ⟨.nil, hparts⟩
      | some a =>
          rw [hxb] at hsome hparts
          obtain ⟨b, hyb⟩ := Option.isSome_iff_exists.mp hsome.symm
          rw [hyb] at hparts ⊢
          obtain ⟨hab, hitems⟩ := List.forall₂_cons.mp hparts
          exact ⟨.cons hab .nil, hitems⟩
    have hhead : ¬(x.kind ≠ y.kind ∨ x.qualified ≠ y.qualified) := by
      push Not
      exact ⟨hkind, hqualified⟩
    simp only [entryEqual, if_neg hhead]
    simp only [pointers, hkind] at hparts ⊢
    cases hy' : y.kind with
    | primitive k => rfl
    | enum => exact absurd hy' henum
    | named =>
        simp only [hy'] at hparts ⊢
        rw [if_pos (hname hy')]
        exact itemsEqual_eq_true.mpr hparts
    | pointer =>
        simp only [hy'] at hparts ⊢
        rw [if_pos (hcount (.inl hy'))]
        exact baseEqual_eq_true.mpr hparts
    | array =>
        simp only [hy'] at hparts ⊢
        rw [if_pos (hcount (.inr (.inl hy')))]
        exact baseEqual_eq_true.mpr hparts
    | slice =>
        simp only [hy'] at hparts ⊢
        rw [if_pos (hcount (.inr (.inr hy')))]
        exact baseEqual_eq_true.mpr hparts
    | tuple =>
        simp only [hy'] at hparts ⊢
        rw [hx (hkind.trans hy'), hy hy', itemsEqual_eq_true.mpr hparts]
        rfl
    | func =>
        simp only [hy'] at hparts ⊢
        obtain ⟨hb, hi⟩ := hfunction (.inl hy') hparts
        rw [hb, hi]
        rfl
    | closure =>
        simp only [hy'] at hparts ⊢
        obtain ⟨hb, hi⟩ := hfunction (.inr hy') hparts
        rw [hb, hi]
        rfl

theorem forall₂_symm {α : Type} {R S : α → α → Prop} {xs ys : List α}
    (h : List.Forall₂ R xs ys) (himp : ∀ x ∈ xs, ∀ y ∈ ys, R x y → S y x) :
    List.Forall₂ S ys xs := by
  induction h with
  | nil => exact .nil
  | cons hxy _ ih =>
      refine .cons (himp _ List.mem_cons_self _ List.mem_cons_self hxy) (ih fun x hx y hy ↦ ?_)
      exact himp x (List.mem_cons_of_mem _ hx) y (List.mem_cons_of_mem _ hy)

section

variable {s s' : TypeTable}

theorem Same.lt {p q : ℕ} (h : Same s p q) : p < s.entries.length ∧ q < s.entries.length := by
  obtain ⟨hx, hy, -, -⟩ := h
  exact ⟨(List.getElem?_eq_some_iff.mp hx).1, (List.getElem?_eq_some_iff.mp hy).1⟩

namespace Acyclic

variable (h : Acyclic s)
include h

theorem same_refl {p : ℕ} (hp : p < s.entries.length) : Same s p p := by
  induction p using Nat.strong_induction_on with
  | _ p ih =>
      have hx := List.getElem?_eq_getElem hp
      refine .intro hx hx (.refl _) (List.forall₂_same.mpr fun q hq ↦ ?_)
      exact ih q (h.below hx q hq) (h.pointers_lt hx q hq)

theorem same_symm {p q : ℕ} (hpq : Same s p q) : Same s q p := by
  induction p using Nat.strong_induction_on generalizing q with
  | _ p ih =>
      obtain ⟨hx, hy, hhead, hparts⟩ := hpq
      refine .intro hy hx hhead.symm (forall₂_symm hparts fun a ha b _ hab ↦ ?_)
      exact ih a (h.below hx a ha) hab

theorem same_trans {p q r : ℕ} (hpq : Same s p q) (hqr : Same s q r) : Same s p r := by
  induction p using Nat.strong_induction_on generalizing q r with
  | _ p ih =>
      obtain ⟨hx, hy, hhead, hparts⟩ := hpq
      obtain ⟨hy', hz, hhead', hparts'⟩ := hqr
      rw [hy] at hy'
      obtain rfl := Option.some.inj hy'
      refine .intro hx hz (hhead.trans hhead') ?_
      refine forall₂_zip (forall₂_symm hparts fun a _ b _ hab ↦ hab) hparts' ?_
      intro b _ a ha c hab hbc
      exact ih a (h.below hx a ha) hab hbc

theorem sames_symm {ps qs : List ℕ} (hpq : List.Forall₂ (Same s) ps qs) :
    List.Forall₂ (Same s) qs ps :=
  forall₂_symm hpq fun _ _ _ _ ↦ h.same_symm

theorem sames_trans {ps qs rs : List ℕ} (hpq : List.Forall₂ (Same s) ps qs)
    (hqr : List.Forall₂ (Same s) qs rs) : List.Forall₂ (Same s) ps rs :=
  forall₂_zip (h.sames_symm hpq) hqr fun _ _ _ _ _ hqp hqr ↦ h.same_trans (h.same_symm hqp) hqr

end Acyclic

theorem Same.mono (h : Acyclic s) (hs : s.entries <+: s'.entries) {p q : ℕ} (hpq : Same s p q) :
    Same s' p q := by
  obtain ⟨es, hes⟩ := hs
  induction p using Nat.strong_induction_on generalizing q with
  | _ p ih =>
      obtain ⟨hp, hq⟩ := hpq.lt
      obtain ⟨hx, hy, hhead, hparts⟩ := hpq
      refine .intro ?_ ?_ hhead (forall₂_of_mem hparts fun a ha b _ hab ↦ ?_)
      · rw [← hes, List.getElem?_append_left hp, hx]
      · rw [← hes, List.getElem?_append_left hq, hy]
      · exact ih a (h.below hx a ha) hab

theorem Same.old (h : Acyclic s) (hs : s.entries <+: s'.entries) {p q : ℕ} (hpq : Same s' p q)
    (hp : p < s.entries.length) (hq : q < s.entries.length) : Same s p q := by
  obtain ⟨es, hes⟩ := hs
  induction p using Nat.strong_induction_on generalizing q with
  | _ p ih =>
      obtain ⟨hx, hy, hhead, hparts⟩ := hpq
      rw [← hes, List.getElem?_append_left hp] at hx
      rw [← hes, List.getElem?_append_left hq] at hy
      refine .intro hx hy hhead (forall₂_of_mem hparts fun a ha b hb hab ↦ ?_)
      exact ih a (h.below hx a ha) hab (h.pointers_lt hx a ha) (h.pointers_lt hy b hb)

end

/-! ## Tables in which every key has one entry -/

def constName (name : List Char) : List Char := "const ".toList ++ name

/-- A search for the one entry can find the other. -/
def Twin (s : TypeTable) (x y : TypeEntry) : Prop :=
  x.kind = y.kind ∧ x.qualified = y.qualified ∧
    if x.qualified then x.base = y.base ∧ x.name = y.name
    else
      match x.kind with
      | .pointer | .array | .slice => x.base = y.base ∧ x.count = y.count
      | .tuple => List.Forall₂ (Same s) x.items y.items
      | .named => x.name = y.name ∧ List.Forall₂ (Same s) x.items y.items
      | .primitive _ => x.name = "size_t".toList ∧ y.name = "size_t".toList
      | .func | .closure | .enum => False

/-- What the searches rely on. -/
structure Keyed (s : TypeTable) : Prop where
  acyclic : Acyclic s
  items : ∀ {p : ℕ} {e : TypeEntry}, s.entries[p]? = some e → ∀ q ∈ e.items, q < p
  plain : ∀ e ∈ s.entries, e.kind ≠ .enum
  const : ∀ e ∈ s.entries, e.qualified = true → ' ' ∈ e.name
  builtin : ∀ {k : Primitive} {p : ℕ}, s.builtin k = some p →
    ∃ e, s.entries[p]? = some e ∧ e.kind = .primitive k ∧ e.qualified = false
  distinct : ∀ {p q : ℕ} {x y : TypeEntry}, s.entries[p]? = some x → s.entries[q]? = some y →
    Twin s x y → p = q

theorem keyed_empty : Keyed TypeTable.empty where
  acyclic := clean_empty.acyclic
  items h := by cases h
  plain _ h := by cases h
  const _ h := by cases h
  builtin h := by cases h
  distinct h := by cases h

section

variable {s s' : TypeTable}

theorem Twin.symm (h : Acyclic s) {x y : TypeEntry} (hxy : Twin s x y) : Twin s y x := by
  obtain ⟨hkind, hqualified, hxy⟩ := hxy
  refine ⟨hkind.symm, hqualified.symm, ?_⟩
  rw [← hqualified, ← hkind]
  split at hxy
  · rw [if_pos ‹_›]
    exact ⟨hxy.1.symm, hxy.2.symm⟩
  · rw [if_neg ‹_›]
    cases hx : x.kind with
    | primitive k =>
        simp only [hx] at hxy
        exact hxy.symm
    | named =>
        simp only [hx] at hxy
        exact ⟨hxy.1.symm, h.sames_symm hxy.2⟩
    | tuple =>
        simp only [hx] at hxy
        exact h.sames_symm hxy
    | pointer | array | slice =>
        simp only [hx] at hxy
        exact ⟨hxy.1.symm, hxy.2.symm⟩
    | enum | func | closure => simp only [hx] at hxy

/-- A table with one more entry, whose key is new. -/
theorem Keyed.of_append {e : TypeEntry} (h : Keyed s) (hs : s'.entries = s.entries ++ [e])
    (hitems : ∀ q ∈ e.pointers ++ e.items, q < s.entries.length)
    (htuple : e.kind = .tuple → e.base = none) (hplain : e.kind ≠ .enum)
    (hconst : e.qualified = true → ' ' ∈ e.name)
    (hbuiltin : ∀ {k : Primitive} {p : ℕ}, s'.builtin k = some p →
      s.builtin k = some p ∨
        p = s.entries.length ∧ e.kind = .primitive k ∧ e.qualified = false)
    (hdistinct : ∀ {q : ℕ} {y : TypeEntry}, s.entries[q]? = some y → ¬Twin s y e) :
    Keyed s' := by
  have hold : s.entries <+: s'.entries := ⟨[e], hs.symm⟩
  have hcases : ∀ {q : ℕ} {y : TypeEntry}, s'.entries[q]? = some y →
      s.entries[q]? = some y ∨ q = s.entries.length ∧ y = e := by
    intro q y hy
    rw [hs] at hy
    exact getElem?_append_singleton.mp hy
  have hmem : ∀ y ∈ s'.entries, y ∈ s.entries ∨ y = e := by
    intro y hy
    rwa [hs, List.mem_append, List.mem_singleton] at hy
  have hacyclic : Acyclic s' := by
    refine ⟨fun {q y} hy r hr ↦ ?_, fun y hy hkind ↦ ?_⟩
    · rcases hcases hy with hy | ⟨rfl, rfl⟩
      · exact h.acyclic.below hy r hr
      · exact hitems r (List.mem_append_left _ hr)
    · rcases hmem y hy with hy | rfl
      · exact h.acyclic.tuple y hy hkind
      · exact htuple hkind
  have hbelow : ∀ {q : ℕ} {y : TypeEntry}, s'.entries[q]? = some y → ∀ r ∈ y.items, r < q := by
    intro q y hy r hr
    rcases hcases hy with hy | ⟨rfl, rfl⟩
    · exact h.items hy r hr
    · exact hitems r (List.mem_append_right _ hr)
  -- keys that meet in the longer table meet in the table before
  have htwin : ∀ {p q : ℕ} {x y : TypeEntry}, s'.entries[p]? = some x → s'.entries[q]? = some y →
      p ≤ s.entries.length → q ≤ s.entries.length → Twin s' x y → Twin s x y := by
    intro p q x y hx hy hp hq hxy
    have hsames : List.Forall₂ (Same s') x.items y.items →
        List.Forall₂ (Same s) x.items y.items := by
      intro hxy
      refine forall₂_of_mem hxy fun a ha b hb hab ↦ hab.old h.acyclic hold ?_ ?_
      · exact (hbelow hx a ha).trans_le hp
      · exact (hbelow hy b hb).trans_le hq
    obtain ⟨hkind, hqualified, hxy⟩ := hxy
    refine ⟨hkind, hqualified, ?_⟩
    split at hxy
    · rwa [if_pos ‹_›]
    · rw [if_neg ‹_›]
      cases hx : x.kind with
      | named =>
          simp only [hx] at hxy
          exact ⟨hxy.1, hsames hxy.2⟩
      | tuple =>
          simp only [hx] at hxy
          exact hsames hxy
      | primitive k | pointer | array | slice =>
          simp only [hx] at hxy
          exact hxy
      | enum | func | closure => simp only [hx] at hxy
  refine ⟨hacyclic, hbelow, fun y hy ↦ ?_, fun y hy hqualified ↦ ?_, fun {k p} hk ↦ ?_,
    fun {p q x y} hx hy hxy ↦ ?_⟩
  · rcases hmem y hy with hy | rfl
    · exact h.plain y hy
    · exact hplain
  · rcases hmem y hy with hy | rfl
    · exact h.const y hy hqualified
    · exact hconst hqualified
  · rw [hs]
    rcases hbuiltin hk with hk | ⟨rfl, hkind⟩
    · obtain ⟨y, hy, hkind⟩ := h.builtin hk
      exact ⟨y, getElem?_append_singleton.mpr (.inl hy), hkind⟩
    · exact ⟨e, getElem?_append_singleton.mpr (.inr ⟨rfl, rfl⟩), hkind⟩
  · have hle : ∀ {q : ℕ} {y : TypeEntry}, s'.entries[q]? = some y → q ≤ s.entries.length := by
      intro q y hy
      have hlt := (List.getElem?_eq_some_iff.mp hy).1
      rw [hs, List.length_append, List.length_singleton] at hlt
      omega
    have hxy := htwin hx hy (hle hx) (hle hy) hxy
    rcases hcases hx with hx | ⟨rfl, rfl⟩
    · rcases hcases hy with hy | ⟨rfl, rfl⟩
      · exact h.distinct hx hy hxy
      · exact absurd hxy (hdistinct hx)
    · rcases hcases hy with hy | ⟨rfl, rfl⟩
      · exact absurd (hxy.symm h.acyclic) (hdistinct hy)
      · rfl

end

/-! ## Calls -/

/-- A call of a function of `types.c`; `function` is what `parse_type` does for a function type. -/
inductive TypeCall where
  | primitive (k : Primitive)
  | named (name : List Char)
  | derive (kind : TypeKind) (base count : ℕ)
  | tuple (items : List ℕ)
  | generic (name : List Char) (items : List ℕ)
  | const (base : ℕ)
  | function (closure : Bool) (params : List ℕ) (result : ℕ)
deriving DecidableEq

namespace TypeCall

def exec : TypeCall → TypeM ℕ
  | .primitive k => modifyGet (typePrimitive k)
  | .named name => modifyGet (typeNamed name)
  | .derive kind base count => modifyGet (typeDerive kind base count)
  | .tuple items => typeTuple items
  | .generic name items => typeGeneric name items
  | .const base => typeConst base
  | .function closure params result => typeFunction closure params result

/-- The arguments are types of the table and names as the lexer makes them. -/
def Valid (s : TypeTable) : TypeCall → Prop
  | .primitive _ => True
  | .named name => ' ' ∉ name
  | .derive kind base _ =>
      (kind = .pointer ∨ kind = .array ∨ kind = .slice) ∧ base < s.entries.length
  | .tuple items => ∀ p ∈ items, p < s.entries.length
  | .generic name items => ' ' ∉ name ∧ ∀ p ∈ items, p < s.entries.length
  | .const base => base < s.entries.length
  | .function _ params result => ∀ p ∈ result :: params, p < s.entries.length

/-- The call does not meet an entry that an other call has made with an overlapping key. -/
def Undisturbed (c : TypeCall) (s : TypeTable) : Prop :=
  match c with
  | .derive kind base count => ∀ e ∈ s.entries, e.qualified = true →
      ¬(e.kind = kind ∧ e.base = some base ∧ e.count = count)
  | .generic _ items => items ≠ []
  | .const base => ∀ t, s.entries[base]? = some t → t.qualified = false → ∀ e ∈ s.entries,
      e.qualified = true → e.kind = t.kind → e.base = t.base → e.name = constName t.name →
        e.count = t.count ∧ itemsEqual s.typeEqual e.items t.items = some true
  | .function _ params _ => ∀ e ∈ s.entries, e.IsGenericFunction →
      itemsEqual s.typeEqual e.items params ≠ some true
  | _ => True

/-- The entry is the type that the call asks for. -/
def Gives (s : TypeTable) (p : ℕ) : TypeCall → Prop
  | .primitive k => ∃ e, s.entries[p]? = some e ∧ e.qualified = false ∧ e.kind = .primitive k
  | .named name => ∃ e, s.entries[p]? = some e ∧ e.qualified = false ∧ e.Forms (.named name)
  | .derive kind base count => ∃ e, s.entries[p]? = some e ∧ e.qualified = false ∧
      e.kind = kind ∧ e.base = some base ∧ e.count = count
  | .tuple items => ∃ e, s.entries[p]? = some e ∧ e.qualified = false ∧ e.kind = .tuple ∧
      e.base = none ∧ itemsEqual s.typeEqual e.items items = some true
  | .generic name items => ∃ e, s.entries[p]? = some e ∧ e.qualified = false ∧
      e.kind = .named ∧ e.name = name ∧ itemsEqual s.typeEqual e.items items = some true
  | .const base => ∃ e t, s.entries[p]? = some e ∧ s.entries[base]? = some t ∧
      e.qualified = true ∧ e.kind = t.kind ∧ e.base = t.base ∧ e.count = t.count ∧
        itemsEqual s.typeEqual e.items t.items = some true
  | .function closure params result => ∃ e, s.entries[p]? = some e ∧ e.qualified = false ∧
      e.kind = (if closure then .closure else .func) ∧ e.base = some result ∧ e.items = params

/-- The calls are of one function with equal arguments.  Lists of types are equal when
`type_equal` says so of their types.  Every function type that is read has an entry of its own. -/
def Alike (s : TypeTable) : TypeCall → TypeCall → Prop
  | .tuple xs, .tuple ys => itemsEqual s.typeEqual xs ys = some true
  | .generic n xs, .generic m ys => n = m ∧ itemsEqual s.typeEqual xs ys = some true
  | .function _ _ _, .function _ _ _ => False
  | c, c' => c = c'

/-- The tables that runs reach whose calls all meet a condition, with the calls and what they
gave. -/
inductive Reaches (condition : TypeCall → TypeTable → Prop) :
    List (TypeCall × ℕ) → TypeTable → Prop where
  | start : Reaches condition [] TypeTable.empty
  | call {history : List (TypeCall × ℕ)} {s s' : TypeTable} {c : TypeCall} {p : ℕ}
      (h : Reaches condition history s) (hvalid : c.Valid s) (hcondition : condition c s)
      (hexec : c.exec s = some (p, s')) : Reaches condition (history ++ [(c, p)]) s'

/-- The next call gives what it is asked for, and what an equal call before it gave. -/
def Lawful (history : List (TypeCall × ℕ)) (s : TypeTable) (c : TypeCall) : Prop :=
  ∃ p s', c.exec s = some (p, s') ∧ c.Gives s' p ∧
    ∀ c' q, (c', q) ∈ history → c.Alike s' c' → p = q

end TypeCall

end TinyCPlus.Compiler
