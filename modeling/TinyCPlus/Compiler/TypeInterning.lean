import TinyCPlus.Compiler.TypeTexts

/-!
# What the type table stands for

An entry of the table shows a type when it has its form and the entries inside show its parts.
Every entry goes on to show its type except where a function type is made out of an entry that a
generic class `Function` has already.
-/

namespace TinyCPlus.Compiler

open TypeTable

/-! ## Entries and types -/

/-- The primitive that a name stands for. -/
def primitiveNamed (name : List Char) : Option Primitive :=
  match lookup names name with
  | some k => some k
  | none =>
      if name = "size_t".toList then some .u64
      else
        match lookup aliases name with
        | some k => some k
        | none => if name = "var".toList then some .auto else none

namespace TypeEntry

/-- The entries inside, in the order of the parts of a type. -/
def pointers (e : TypeEntry) : List ℕ :=
  match e.kind with
  | .pointer | .array | .slice => e.base.toList
  | .tuple | .named => e.items
  | .func | .closure => e.base.toList ++ e.items
  | .primitive _ | .enum => []

/-- The entry has the outermost form of the type. -/
def Forms (e : TypeEntry) : TypeExpr → Prop
  | .named name =>
      match primitiveNamed name with
      | some k => e.kind = .primitive k
      | none => e.kind = .named ∧ e.items = [] ∧ e.name = name
  | .generic name _ => e.kind = .named ∧ e.items ≠ [] ∧ e.name = name
  | .function closure _ _ => e.kind = (if closure then .closure else .func) ∧ e.base.isSome
  | .tuple _ => e.kind = .tuple ∧ e.base = none
  | .slice _ => e.kind = .slice ∧ e.count = 0
  | .pointer _ => e.kind = .pointer ∧ e.count = 0
  | .array _ count => e.kind = .array ∧ e.count = count
  | .const _ => False

def Matches (e : TypeEntry) (t : TypeExpr) : Prop := e.qualified = false ∧ e.Forms t

/-- The entry of a function type. -/
def IsFunction (e : TypeEntry) : Prop := e.kind = .func ∨ e.kind = .closure

/-- The entry of a generic class `Function`. -/
def IsGenericFunction (e : TypeEntry) : Prop :=
  e.kind = .named ∧ e.items ≠ [] ∧ e.name = "Function".toList

end TypeEntry

open TypeEntry

/-- An entry of the table shows a type. -/
inductive Shows (s : TypeTable) : TypeExpr → ℕ → Prop where
  | intro {t : TypeExpr} {p : ℕ} {e : TypeEntry} (he : s.entries[p]? = some e)
      (hform : e.Matches t) (hparts : List.Forall₂ (Shows s) t.parts e.pointers) : Shows s t p

/-- A name with its second names gone, which have no entry of their own. -/
def resolvedName (name : List Char) : List Char :=
  match primitiveNamed name with
  | some k => primitiveName k
  | none => name

/-- A type with the names of its primitive types resolved. -/
def TypeExpr.resolved : TypeExpr → TypeExpr
  | .named name => .named (resolvedName name)
  | .generic name items => .generic name (resolvedAll items)
  | .function closure params result => .function closure (resolvedAll params) result.resolved
  | .tuple items => .tuple (resolvedAll items)
  | .slice t => .slice t.resolved
  | .const t => .const t.resolved
  | .pointer t => .pointer t.resolved
  | .array t count => .array t.resolved count
where
  resolvedAll : List TypeExpr → List TypeExpr
  | [] => []
  | t :: ts => t.resolved :: resolvedAll ts

/-- Somewhere in the type the table has a function type in the place of a generic class. -/
inductive Wrong (s : TypeTable) : TypeExpr → ℕ → Prop where
  | changed {name : List Char} {items : List TypeExpr} {p : ℕ} {e : TypeEntry}
      (he : s.entries[p]? = some e) (hfunction : e.IsFunction) : Wrong s (.generic name items) p
  | part {t u : TypeExpr} {p q i : ℕ} {e : TypeEntry} (he : s.entries[p]? = some e)
      (hform : e.Forms t) (hu : t.parts[i]? = some u) (hq : e.pointers[i]? = some q)
      (h : Wrong s u q) : Wrong s t p

/-- Both tables have the entries of the first, but for those of classes `Function`. -/
def Evolves (s s' : TypeTable) : Prop :=
  ∀ (p : ℕ) (e : TypeEntry), s.entries[p]? = some e →
    ∃ e' : TypeEntry, s'.entries[p]? = some e' ∧ (e' = e ∨ (e.IsGenericFunction ∧ e'.IsFunction))

/-! ## Lists side by side -/

section

variable {α β γ : Type} {R R' : α → β → Prop}

theorem forall₂_of_mem {xs : List α} {ys : List β} (h : List.Forall₂ R xs ys)
    (himp : ∀ x ∈ xs, ∀ y ∈ ys, R x y → R' x y) : List.Forall₂ R' xs ys := by
  induction h with
  | nil => exact .nil
  | cons hxy _ ih =>
      refine .cons (himp _ List.mem_cons_self _ List.mem_cons_self hxy) (ih fun x hx y hy ↦ ?_)
      exact himp x (List.mem_cons_of_mem _ hx) y (List.mem_cons_of_mem _ hy)

theorem forall₂_left {S : α → γ → Prop} {Q : γ → β → Prop} {xs : List α} {ys : List β}
    {zs : List γ} (h : List.Forall₂ R xs ys) (hzs : List.Forall₂ Q zs ys)
    (himp : ∀ x ∈ xs, ∀ z y, Q z y → R x y → S x z) : List.Forall₂ S xs zs := by
  induction h generalizing zs with
  | nil =>
      cases hzs
      exact .nil
  | cons hxy _ ih =>
      cases hzs with
      | cons hzy hzs =>
          refine .cons (himp _ List.mem_cons_self _ _ hzy hxy) (ih hzs fun x hx ↦ ?_)
          exact himp x (List.mem_cons_of_mem _ hx)

end

/-! ## One entry, one type -/

namespace TypeExpr

open resolved (resolvedAll)

theorem resolvedAll_eq (ts : List TypeExpr) : resolvedAll ts = ts.map resolved := by
  induction ts with
  | nil => rfl
  | cons t ts ih => rw [resolvedAll, ih, List.map_cons]

theorem primitiveNamed_primitiveName (k : Primitive) : primitiveNamed (primitiveName k) = some k := by
  cases k <;> decide

theorem primitiveNamed_resolvedName (name : List Char) :
    primitiveNamed (resolvedName name) = primitiveNamed name := by
  unfold resolvedName
  cases hname : primitiveNamed name with
  | some k => exact primitiveNamed_primitiveName k
  | none => exact hname

theorem resolvedName_eq_iff {n m : List Char} :
    resolvedName n = resolvedName m ↔
      primitiveNamed n = primitiveNamed m ∧ (primitiveNamed n = none → n = m) := by
  constructor
  · intro h
    have heq : primitiveNamed n = primitiveNamed m := by
      rw [← primitiveNamed_resolvedName n, h, primitiveNamed_resolvedName]
    refine ⟨heq, fun hnone ↦ ?_⟩
    simpa [resolvedName, ← heq, hnone] using h
  · rintro ⟨heq, hname⟩
    unfold resolvedName
    cases hn : primitiveNamed n with
    | some k => simp [← heq, hn]
    | none => simpa [← heq, hn] using hname hn

/-- Types that are the same up to the names of primitives have the same form. -/
theorem same_of_resolved {t u : TypeExpr} (h : t.resolved = u.resolved) :
    (∀ e : TypeEntry, e.Matches t → e.Matches u) ∧
      t.parts.map resolved = u.parts.map resolved := by
  cases t with
  | named n =>
      cases u with
      | named m =>
          simp only [resolved, named.injEq] at h
          obtain ⟨heq, hname⟩ := resolvedName_eq_iff.mp h
          refine ⟨fun e he ↦ ⟨he.1, ?_⟩, rfl⟩
          have hform := he.2
          simp only [Forms, ← heq] at hform ⊢
          cases hn : primitiveNamed n with
          | some k => simpa [hn] using hform
          | none => simpa [hn, ← hname hn] using hform
      | _ => simp [resolved] at h
  | generic name items =>
      cases u with
      | generic name' items' =>
          simp only [resolved, resolvedAll_eq, generic.injEq] at h
          obtain ⟨rfl, hitems⟩ := h
          exact ⟨fun e he ↦ he, hitems⟩
      | _ => simp [resolved] at h
  | function closure params result =>
      cases u with
      | function closure' params' result' =>
          simp only [resolved, resolvedAll_eq, function.injEq] at h
          obtain ⟨rfl, hparams, hresult⟩ := h
          exact ⟨fun e he ↦ he, by simp [parts, hparams, hresult]⟩
      | _ => simp [resolved] at h
  | tuple items =>
      cases u with
      | tuple items' =>
          simp only [resolved, resolvedAll_eq, tuple.injEq] at h
          exact ⟨fun e he ↦ he, h⟩
      | _ => simp [resolved] at h
  | slice t =>
      cases u with
      | slice u =>
          simp only [resolved, slice.injEq] at h
          exact ⟨fun e he ↦ he, by simp [parts, h]⟩
      | _ => simp [resolved] at h
  | const t =>
      cases u with
      | const u =>
          simp only [resolved, const.injEq] at h
          exact ⟨fun e he ↦ he.2.elim, by simp [parts, h]⟩
      | _ => simp [resolved] at h
  | pointer t =>
      cases u with
      | pointer u =>
          simp only [resolved, pointer.injEq] at h
          exact ⟨fun e he ↦ he, by simp [parts, h]⟩
      | _ => simp [resolved] at h
  | array t count =>
      cases u with
      | array u count' =>
          simp only [resolved, array.injEq] at h
          obtain ⟨ht, rfl⟩ := h
          exact ⟨fun e he ↦ he, by simp [parts, ht]⟩
      | _ => simp [resolved] at h

end TypeExpr

namespace TypeEntry

/-- Which constructor of a type an entry stands for. -/
def former (e : TypeEntry) : ℕ :=
  match e.kind with
  | .primitive _ => 0
  | .named => if e.items = [] then 0 else 1
  | .func | .closure => 2
  | .tuple => 3
  | .slice => 4
  | .enum => 5
  | .pointer => 6
  | .array => 7

variable {e : TypeEntry} {t u : TypeExpr}

theorem Matches.former_eq (h : e.Matches t) : e.former = t.ctorIdx := by
  obtain ⟨-, hform⟩ := h
  unfold former
  cases t with
  | named name =>
      simp only [Forms] at hform
      cases hname : primitiveNamed name with
      | some k =>
          rw [hname] at hform
          rw [hform]
          rfl
      | none =>
          rw [hname] at hform
          rw [hform.1, hform.2.1]
          rfl
  | generic name items =>
      rw [hform.1]
      exact if_neg hform.2.1
  | function closure params result =>
      rw [hform.1]
      cases closure <;> rfl
  | const t => exact hform.elim
  | _ =>
      rw [hform.1]
      rfl

/-- The form of an entry and the types of its parts tell the type. -/
theorem Matches.resolved_eq (ht : e.Matches t) (hu : e.Matches u)
    (hparts : t.parts.map TypeExpr.resolved = u.parts.map TypeExpr.resolved) :
    t.resolved = u.resolved := by
  have hformer : t.ctorIdx = u.ctorIdx := ht.former_eq.symm.trans hu.former_eq
  obtain ⟨-, ht⟩ := ht
  obtain ⟨-, hu⟩ := hu
  cases t with
  | named n =>
      cases u with
      | named m =>
          simp only [TypeExpr.resolved, TypeExpr.named.injEq, TypeExpr.resolvedName_eq_iff]
          simp only [Forms] at ht hu
          cases hn : primitiveNamed n with
          | some k =>
              rw [hn] at ht
              cases hm : primitiveNamed m with
              | some k' =>
                  rw [hm, ht] at hu
                  simpa using hu
              | none =>
                  rw [hm, ht] at hu
                  cases hu.1
          | none =>
              rw [hn] at ht
              cases hm : primitiveNamed m with
              | some k' =>
                  rw [hm, ht.1] at hu
                  cases hu
              | none =>
                  rw [hm] at hu
                  exact ⟨rfl, fun _ ↦ ht.2.2.symm.trans hu.2.2⟩
      | _ => cases hformer
  | generic name items =>
      cases u with
      | generic name' items' =>
          obtain rfl : name = name' := ht.2.2.symm.trans hu.2.2
          simpa [TypeExpr.resolved, TypeExpr.resolvedAll_eq, TypeExpr.parts] using hparts
      | _ => cases hformer
  | function closure params result =>
      cases u with
      | function closure' params' result' =>
          have hkind := ht.1.symm.trans hu.1
          obtain rfl : closure = closure' := by
            cases closure <;> cases closure' <;> first | rfl | cases hkind
          simp only [TypeExpr.parts, List.map_cons, List.cons.injEq] at hparts
          simp [TypeExpr.resolved, TypeExpr.resolvedAll_eq, hparts]
      | _ => cases hformer
  | tuple items =>
      cases u with
      | tuple items' => simpa [TypeExpr.resolved, TypeExpr.resolvedAll_eq, TypeExpr.parts] using hparts
      | _ => cases hformer
  | slice t =>
      cases u with
      | slice u => simpa [TypeExpr.resolved, TypeExpr.parts] using hparts
      | _ => cases hformer
  | const t => exact ht.elim
  | pointer t =>
      cases u with
      | pointer u => simpa [TypeExpr.resolved, TypeExpr.parts] using hparts
      | _ => cases hformer
  | array t count =>
      cases u with
      | array u count' =>
          obtain rfl : count = count' := ht.2.symm.trans hu.2
          simpa [TypeExpr.resolved, TypeExpr.parts] using hparts
      | _ => cases hformer

end TypeEntry

section

variable {s : TypeTable} {t u : TypeExpr} {p : ℕ}

theorem Shows.resolved_eq (ht : Shows s t p) (hu : Shows s u p) : t.resolved = u.resolved := by
  induction t using TypeExpr.parts_induction generalizing u p with
  | _ t ih =>
      obtain ⟨he, htform, htparts⟩ := ht
      obtain ⟨he', huform, huparts⟩ := hu
      rw [he] at he'
      obtain rfl := Option.some.inj he'
      refine htform.resolved_eq huform (List.ext_getElem ?_ fun i hi hi' ↦ ?_)
      · simp [htparts.length_eq, huparts.length_eq]
      · rw [List.length_map] at hi hi'
        have hip := htparts.length_eq ▸ hi
        rw [List.getElem_map, List.getElem_map]
        exact ih _ (List.getElem_mem hi) (htparts.get hi hip) (huparts.get hi' hip)

theorem Shows.of_resolved (h : t.resolved = u.resolved) (ht : Shows s t p) : Shows s u p := by
  induction t using TypeExpr.parts_induction generalizing u p with
  | _ t ih =>
      obtain ⟨he, hform, hparts⟩ := ht
      obtain ⟨hforms, hresolved⟩ := TypeExpr.same_of_resolved h
      have hlength : t.parts.length = u.parts.length := by
        simpa using congrArg List.length hresolved
      refine .intro he (hforms _ hform) (List.forall₂_iff_get.mpr ⟨?_, fun i hi hi' ↦ ?_⟩)
      · rw [← hlength, hparts.length_eq]
      · have hit := hlength.symm ▸ hi
        refine ih _ (List.getElem_mem hit) ?_ (hparts.get hit hi')
        have hget := List.getElem_of_eq hresolved (i := i) (by simpa using hit)
        simpa using hget

theorem forall₂_resolved {ts us : List TypeExpr} {ps : List ℕ}
    (h : List.Forall₂ (Shows s) ts ps) :
    ts.map TypeExpr.resolved = us.map TypeExpr.resolved ↔ List.Forall₂ (Shows s) us ps := by
  induction h generalizing us with
  | nil => cases us <;> simp
  | cons ht _ ih =>
      cases us with
      | nil => simp
      | cons u us =>
          rw [List.map_cons, List.map_cons, List.cons.injEq, List.forall₂_cons, ih]
          exact and_congr_left fun _ ↦ ⟨fun h ↦ ht.of_resolved h, fun h ↦ ht.resolved_eq h⟩

end

/-! ## What does not come right again -/

section

variable {s s' : TypeTable} {t : TypeExpr} {p : ℕ}

theorem Wrong.not_shows (h : Wrong s t p) : ¬Shows s t p := by
  induction h with
  | changed he hfunction =>
      rintro ⟨he', hform, -⟩
      rw [he] at he'
      obtain rfl := Option.some.inj he'
      have hkind := hform.2.1
      rcases hfunction with h | h
      · rw [h] at hkind
        cases hkind
      · rw [h] at hkind
        cases hkind
  | part he hform hu hq _ ih =>
      rintro ⟨he', -, hparts⟩
      rw [he] at he'
      obtain rfl := Option.some.inj he'
      obtain ⟨hi, rfl⟩ := List.getElem?_eq_some_iff.mp hu
      obtain ⟨hi', rfl⟩ := List.getElem?_eq_some_iff.mp hq
      exact ih (hparts.get hi hi')

theorem Evolves.refl (s : TypeTable) : Evolves s s := fun _ e he ↦ ⟨e, he, .inl rfl⟩

theorem Evolves.trans {s'' : TypeTable} (h : Evolves s s') (h' : Evolves s' s'') :
    Evolves s s'' := by
  intro p e he
  obtain ⟨e', he', hchange⟩ := h p e he
  obtain ⟨e'', he'', hchange'⟩ := h' p e' he'
  refine ⟨e'', he'', ?_⟩
  rcases hchange with rfl | ⟨hgeneric, hfunction⟩
  · exact hchange'
  · rcases hchange' with rfl | ⟨⟨hkind, -⟩, -⟩
    · exact .inr ⟨hgeneric, hfunction⟩
    · rcases hfunction with h | h
      · rw [h] at hkind
        cases hkind
      · rw [h] at hkind
        cases hkind

theorem Evolves.of_initial (h : s.entries <+: s'.entries) : Evolves s s' := by
  intro p e he
  obtain ⟨es, hes⟩ := h
  obtain ⟨hp, -⟩ := List.getElem?_eq_some_iff.mp he
  exact ⟨e, by rw [← hes, List.getElem?_append_left hp, he], .inl rfl⟩

/-- An entry that is not a named type has the parts of a generic type only if it is one. -/
theorem TypeEntry.Forms.generic {e : TypeEntry} (hform : e.Forms t) (hgeneric : e.IsGenericFunction)
    (hparts : t.parts ≠ []) : ∃ name items, t = .generic name items := by
  obtain ⟨hkind, -, -⟩ := hgeneric
  cases t with
  | named name => exact absurd rfl hparts
  | generic name items => exact ⟨name, items, rfl⟩
  | function closure params result =>
      have hk := hform.1
      rw [hkind] at hk
      cases closure <;> cases hk
  | tuple items => cases hkind.symm.trans hform.1
  | slice t => cases hkind.symm.trans hform.1
  | const t => exact hform.elim
  | pointer t => cases hkind.symm.trans hform.1
  | array t count => cases hkind.symm.trans hform.1

theorem Wrong.evolves (h : Wrong s t p) (hs : Evolves s s') : Wrong s' t p := by
  induction h with
  | changed he hfunction =>
      obtain ⟨e', he', rfl | ⟨⟨hkind, -⟩, -⟩⟩ := hs _ _ he
      · exact .changed he' hfunction
      · rcases hfunction with h | h
        · rw [h] at hkind
          cases hkind
        · rw [h] at hkind
          cases hkind
  | part he hform hu hq _ ih =>
      obtain ⟨e', he', rfl | ⟨hgeneric, hfunction⟩⟩ := hs _ _ he
      · exact .part he' hform hu hq ih
      · obtain ⟨name, items, rfl⟩ := hform.generic hgeneric fun hnil ↦ by
          rw [hnil] at hu
          cases hu
        exact .changed he' hfunction

end

/-! ## `type_equal` -/

theorem itemsEqual_eq_true {eq : ℕ → ℕ → Option Bool} {xs ys : List ℕ} :
    itemsEqual eq xs ys = some true ↔ List.Forall₂ (fun x y ↦ eq x y = some true) xs ys := by
  induction xs generalizing ys with
  | nil => cases ys <;> simp [itemsEqual]
  | cons x xs ih =>
      cases ys with
      | nil => simp [itemsEqual]
      | cons y ys =>
          rw [itemsEqual, List.forall₂_cons, ← ih]
          cases hxy : eq x y with
          | none => simp
          | some b => cases b <;> simp

theorem baseEqual_eq_true {eq : ℕ → ℕ → Option Bool} {a b : Option ℕ} :
    baseEqual eq a b = some true ↔
      List.Forall₂ (fun x y ↦ eq x y = some true) a.toList b.toList := by
  cases a <;> cases b <;> simp [baseEqual]

/-- The form of an entry lies in its kind and in what `type_equal` compares for this kind. -/
theorem TypeEntry.Forms.of_eq {x y : TypeEntry} {t : TypeExpr} (hform : y.Forms t)
    (hkind : x.kind = y.kind)
    (hnamed : y.kind = .named → x.name = y.name ∧ (x.items = [] ↔ y.items = []))
    (hcount : y.kind = .pointer ∨ y.kind = .array ∨ y.kind = .slice → x.count = y.count)
    (hbase : y.kind = .tuple ∨ y.IsFunction → x.base.isSome = y.base.isSome) : x.Forms t := by
  cases t with
  | named name =>
      simp only [Forms] at hform ⊢
      cases hname : primitiveNamed name with
      | some k =>
          rw [hname] at hform
          exact hkind.trans hform
      | none =>
          rw [hname] at hform
          obtain ⟨hk, hitems, hname⟩ := hform
          obtain ⟨hn, hi⟩ := hnamed hk
          exact ⟨hkind.trans hk, hi.mpr hitems, hn.trans hname⟩
  | generic name items =>
      obtain ⟨hk, hitems, hname⟩ := hform
      obtain ⟨hn, hi⟩ := hnamed hk
      exact ⟨hkind.trans hk, mt hi.mp hitems, hn.trans hname⟩
  | function closure params result =>
      obtain ⟨hk, hb⟩ := hform
      refine ⟨hkind.trans hk, ?_⟩
      rw [hbase (.inr ?_)]
      · exact hb
      · cases closure
        · exact .inl hk
        · exact .inr hk
  | tuple items =>
      obtain ⟨hk, hb⟩ := hform
      have hsome := hbase (.inl hk)
      rw [hb] at hsome
      exact ⟨hkind.trans hk, by simpa using hsome⟩
  | slice t => exact ⟨hkind.trans hform.1, (hcount (.inr (.inr hform.1))).trans hform.2⟩
  | const t => exact hform.elim
  | pointer t => exact ⟨hkind.trans hform.1, (hcount (.inl hform.1)).trans hform.2⟩
  | array t count => exact ⟨hkind.trans hform.1, (hcount (.inr (.inl hform.1))).trans hform.2⟩

theorem isSome_of_baseEqual {eq : ℕ → ℕ → Option Bool} {a b : Option ℕ}
    (h : baseEqual eq a b = some true) : a.isSome = b.isSome := by
  cases a <;> cases b <;> simp_all [baseEqual]

/-- The comparison of two entries, by what it compares. -/
theorem entryEqual_cases {eq : ℕ → ℕ → Option Bool} {x y : TypeEntry}
    (h : entryEqual eq x y = some true) :
    x.kind = y.kind ∧ x.qualified = y.qualified ∧
      (y.kind = .named → x.name = y.name ∧ itemsEqual eq x.items y.items = some true) ∧
      (y.kind = .pointer ∨ y.kind = .array ∨ y.kind = .slice →
        x.count = y.count ∧ baseEqual eq x.base y.base = some true) ∧
      (y.kind = .tuple ∨ y.IsFunction →
        baseEqual eq x.base y.base = some true ∧ itemsEqual eq x.items y.items = some true) := by
  have hboth : ∀ {a b : Option Bool}, (do if ← a then b else some false) = some true →
      a = some true ∧ b = some true := by
    rintro (_ | _ | _) b h
    · cases h
    · cases h
    · exact ⟨rfl, h⟩
  unfold entryEqual at h
  split at h
  · cases h
  · rename_i hhead
    push Not at hhead
    obtain ⟨hkind, hqualified⟩ := hhead
    refine ⟨hkind, hqualified, fun hy ↦ ?_, fun hy ↦ ?_, fun hy ↦ ?_⟩
    · simp only [hkind, hy] at h
      split at h
      · rename_i hname
        exact ⟨hname, h⟩
      · cases h
    · rcases hy with hy | hy | hy
      all_goals
        simp only [hkind, hy] at h
        split at h
        · rename_i hcount
          exact ⟨hcount, h⟩
        · cases h
    · rcases hy with hy | hy | hy
      all_goals
        simp only [hkind, hy] at h
        exact hboth h

/-- Entries that count as equal have the same form and equal entries inside. -/
theorem entryEqual_eq_true {eq : ℕ → ℕ → Option Bool} {x y : TypeEntry}
    (h : entryEqual eq x y = some true) :
    x.kind = y.kind ∧ x.qualified = y.qualified ∧ (∀ t, y.Forms t → x.Forms t) ∧
      List.Forall₂ (fun p q ↦ eq p q = some true) x.pointers y.pointers := by
  obtain ⟨hkind, hqualified, hnamed, hderived, hboth⟩ := entryEqual_cases h
  refine ⟨hkind, hqualified, fun t ht ↦ ht.of_eq hkind (fun hy ↦ ?_) (fun hy ↦ (hderived hy).1)
    fun hy ↦ isSome_of_baseEqual (hboth hy).1, ?_⟩
  · obtain ⟨hname, hitems⟩ := hnamed hy
    have hlength := (itemsEqual_eq_true.mp hitems).length_eq
    refine ⟨hname, ?_⟩
    rw [← List.length_eq_zero_iff, hlength, List.length_eq_zero_iff]
  · unfold pointers
    rw [hkind]
    cases hy : y.kind with
    | primitive k => exact .nil
    | enum => exact .nil
    | named => exact itemsEqual_eq_true.mp (hnamed hy).2
    | pointer => exact baseEqual_eq_true.mp (hderived (.inl hy)).2
    | array => exact baseEqual_eq_true.mp (hderived (.inr (.inl hy))).2
    | slice => exact baseEqual_eq_true.mp (hderived (.inr (.inr hy))).2
    | tuple => exact itemsEqual_eq_true.mp (hboth (.inl hy)).2
    | func =>
      obtain ⟨hbase, hitems⟩ := hboth (.inr (.inl hy))
      exact List.rel_append (baseEqual_eq_true.mp hbase) (itemsEqual_eq_true.mp hitems)
    | closure =>
      obtain ⟨hbase, hitems⟩ := hboth (.inr (.inr hy))
      exact List.rel_append (baseEqual_eq_true.mp hbase) (itemsEqual_eq_true.mp hitems)

section

variable {s : TypeTable} {fuel a b : ℕ}

/-- Types that count as equal are one entry or two with the same form and equal entries inside. -/
theorem equalFuel_eq_true (h : s.equalFuel fuel a b = some true) :
    a = b ∨ ∃ f x y, s.entries[a]? = some x ∧ s.entries[b]? = some y ∧ x.kind = y.kind ∧
      x.qualified = y.qualified ∧ (∀ t, y.Forms t → x.Forms t) ∧
        List.Forall₂ (fun p q ↦ s.equalFuel f p q = some true) x.pointers y.pointers := by
  cases fuel with
  | zero => cases h
  | succ f =>
      rw [equalFuel] at h
      split at h
      · rename_i hab
        exact .inl hab
      · cases hx : s.entries[a]? with
        | none => simp [hx] at h
        | some x =>
          cases hy : s.entries[b]? with
          | none => simp [hx, hy] at h
          | some y =>
            simp only [hx, hy, Option.bind_eq_bind, Option.bind_some] at h
            exact .inr ⟨f, x, y, rfl, rfl, entryEqual_eq_true h⟩

/-- Types that count as equal show the same types. -/
theorem Shows.of_equal {t : TypeExpr} (h : s.equalFuel fuel a b = some true)
    (hb : Shows s t b) : Shows s t a := by
  induction t using TypeExpr.parts_induction generalizing fuel a b with
  | _ t ih =>
      rcases equalFuel_eq_true h with rfl | ⟨f, x, y, hx, hy, -, hplain, hform, hpointers⟩
      · exact hb
      · obtain ⟨he, hmatches, hparts⟩ := hb
        rw [hy] at he
        obtain rfl := Option.some.inj he
        exact .intro hx ⟨hplain.trans hmatches.1, hform t hmatches.2⟩
          (forall₂_left hparts hpointers fun u hu p q hpq hq ↦ ih u hu hpq hq)

theorem Wrong.of_equal {t : TypeExpr} (h : s.equalFuel fuel a b = some true)
    (hb : Wrong s t b) : Wrong s t a := by
  induction hb generalizing fuel a with
  | @changed name items p e he hfunction =>
      rcases equalFuel_eq_true h with rfl | ⟨f, x, y, hx, hy, hkind, -, -, -⟩
      · exact .changed he hfunction
      · rw [he] at hy
        obtain rfl := Option.some.inj hy
        refine .changed hx ?_
        rwa [IsFunction, hkind]
  | @part t u p q i e he hform hu hq _ ih =>
      rcases equalFuel_eq_true h with rfl | ⟨f, x, y, hx, hy, -, -, hforms, hpointers⟩
      · exact .part he hform hu hq ‹_›
      · rw [he] at hy
        obtain rfl := Option.some.inj hy
        obtain ⟨hi, rfl⟩ := List.getElem?_eq_some_iff.mp hq
        have hi' : i < x.pointers.length := hpointers.length_eq ▸ hi
        exact .part hx (hforms t hform) hu (List.getElem?_eq_getElem hi')
          (ih (hpointers.get hi' hi))

end

/-! ## Tables without a wrong entry -/

/-- The entries inside an entry are older. -/
structure Acyclic (s : TypeTable) : Prop where
  below : ∀ {p : ℕ} {e : TypeEntry}, s.entries[p]? = some e → ∀ q ∈ e.pointers, q < p
  tuple : ∀ e ∈ s.entries, e.kind = .tuple → e.base = none

/-- No entry of the table has been changed into another type. -/
structure Clean (s : TypeTable) : Prop where
  /-- The entries inside an entry are older. -/
  below : ∀ {p : ℕ} {e : TypeEntry}, s.entries[p]? = some e → ∀ q ∈ e.pointers, q < p
  plain : ∀ e ∈ s.entries, e.qualified = false ∧ e.kind ≠ .enum ∧ (e.kind = .tuple → e.base = none)
  builtin : ∀ {k : Primitive} {p : ℕ}, s.builtin k = some p →
    ∃ e, s.entries[p]? = some e ∧ e.kind = .primitive k
  /-- A generic type with its items has one entry. -/
  distinct : ∀ {p q : ℕ} {x y : TypeEntry}, s.entries[p]? = some x → s.entries[q]? = some y →
    x.kind = .named → y.kind = .named → x.items ≠ [] → x.name = y.name →
      ∀ ts, List.Forall₂ (Shows s) ts x.items → List.Forall₂ (Shows s) ts y.items → p = q

theorem Clean.acyclic {s : TypeTable} (h : Clean s) : Acyclic s where
  below := h.below
  tuple e he := (h.plain e he).2.2

theorem clean_empty : Clean TypeTable.empty where
  below h := by cases h
  plain _ h := by cases h
  builtin h := by cases h
  distinct h := by cases h

theorem Shows.lt {s : TypeTable} {t : TypeExpr} {p : ℕ} (h : Shows s t p) :
    p < s.entries.length := by
  obtain ⟨he, -, -⟩ := h
  exact (List.getElem?_eq_some_iff.mp he).1

theorem Shows.mono {s s' : TypeTable} (hs : s.entries <+: s'.entries) {t : TypeExpr} {p : ℕ}
    (h : Shows s t p) : Shows s' t p := by
  induction t using TypeExpr.parts_induction generalizing p with
  | _ t ih =>
      obtain ⟨he, hform, hparts⟩ := h
      obtain ⟨es, hes⟩ := hs
      obtain ⟨hp, -⟩ := List.getElem?_eq_some_iff.mp he
      refine .intro (by rw [← hes, List.getElem?_append_left hp, he]) hform ?_
      exact forall₂_of_mem hparts fun u hu q _ hq ↦ ih u hu hq

/-- What an old entry of a longer table shows is shown by the table before. -/
theorem Shows.old {s s' : TypeTable} (hclean : Clean s) (hs : s.entries <+: s'.entries)
    {t : TypeExpr} {p : ℕ} (h : Shows s' t p) (hp : p < s.entries.length) : Shows s t p := by
  induction t using TypeExpr.parts_induction generalizing p with
  | _ t ih =>
      obtain ⟨he, hform, hparts⟩ := h
      obtain ⟨es, hes⟩ := hs
      rw [← hes, List.getElem?_append_left hp] at he
      refine .intro he hform (forall₂_of_mem hparts fun u hu q hq hshows ↦ ih u hu hshows ?_)
      exact (hclean.below he q hq).trans hp

theorem Acyclic.pointers_lt {s : TypeTable} (h : Acyclic s) {p : ℕ} {e : TypeEntry}
    (he : s.entries[p]? = some e) : ∀ q ∈ e.pointers, q < s.entries.length := fun q hq ↦
  (h.below he q hq).trans (List.getElem?_eq_some_iff.mp he).1

theorem itemsEqual_isSome {eq : ℕ → ℕ → Option Bool} {xs ys : List ℕ}
    (h : ∀ x ∈ xs, ∀ y ∈ ys, (eq x y).isSome = true) : (itemsEqual eq xs ys).isSome = true := by
  induction xs generalizing ys with
  | nil => cases ys <;> rfl
  | cons x xs ih =>
      cases ys with
      | nil => rfl
      | cons y ys =>
          obtain ⟨b, hb⟩ := Option.isSome_iff_exists.mp
            (h x List.mem_cons_self y List.mem_cons_self)
          have hrest := ih fun x hx y hy ↦
            h x (List.mem_cons_of_mem _ hx) y (List.mem_cons_of_mem _ hy)
          rw [itemsEqual, hb]
          cases b
          · rfl
          · exact hrest

theorem baseEqual_isSome {eq : ℕ → ℕ → Option Bool} {a b : Option ℕ}
    (h : ∀ x ∈ a.toList, ∀ y ∈ b.toList, (eq x y).isSome = true) :
    (baseEqual eq a b).isSome = true := by
  cases a with
  | none => cases b <;> rfl
  | some x =>
      cases b with
      | none => rfl
      | some y => exact h x (by simp) y (by simp)

theorem entryEqual_isSome {eq : ℕ → ℕ → Option Bool} {x y : TypeEntry}
    (hbase : x.kind = .tuple → x.base = none)
    (h : ∀ p ∈ x.pointers, ∀ q ∈ y.pointers, (eq p q).isSome = true) :
    (entryEqual eq x y).isSome = true := by
  have hboth : ∀ {a b : Option Bool}, a.isSome = true → b.isSome = true →
      ((do if ← a then b else some false) : Option Bool).isSome = true := by
    rintro (_ | _ | _) b ha hb
    · cases ha
    · rfl
    · exact hb
  unfold entryEqual
  split
  · rfl
  · rename_i hhead
    push Not at hhead
    have hkind := hhead.1
    unfold pointers at h
    rw [hkind] at h ⊢
    cases hy : y.kind with
    | primitive k => rfl
    | enum => rfl
    | named =>
      simp only [hy] at h ⊢
      split
      · exact itemsEqual_isSome h
      · rfl
    | pointer =>
      simp only [hy] at h ⊢
      split
      · exact baseEqual_isSome h
      · rfl
    | array =>
      simp only [hy] at h ⊢
      split
      · exact baseEqual_isSome h
      · rfl
    | slice =>
      simp only [hy] at h ⊢
      split
      · exact baseEqual_isSome h
      · rfl
    | tuple =>
      simp only [hy] at h ⊢
      refine hboth ?_ (itemsEqual_isSome h)
      rw [hbase (hkind.trans hy)]
      exact baseEqual_isSome (by simp)
    | func =>
      simp only [hy] at h ⊢
      refine hboth (baseEqual_isSome fun p hp q hq ↦ ?_) (itemsEqual_isSome fun p hp q hq ↦ ?_)
      · exact h p (List.mem_append_left _ hp) q (List.mem_append_left _ hq)
      · exact h p (List.mem_append_right _ hp) q (List.mem_append_right _ hq)
    | closure =>
      simp only [hy] at h ⊢
      refine hboth (baseEqual_isSome fun p hp q hq ↦ ?_) (itemsEqual_isSome fun p hp q hq ↦ ?_)
      · exact h p (List.mem_append_left _ hp) q (List.mem_append_left _ hq)
      · exact h p (List.mem_append_right _ hp) q (List.mem_append_right _ hq)

namespace Acyclic

variable {s : TypeTable} (h : Acyclic s)
include h

/-- `type_equal` returns. -/
theorem equalFuel_isSome {fuel a b : ℕ} (ha : a < fuel) (hal : a < s.entries.length)
    (hb : b < s.entries.length) : (s.equalFuel fuel a b).isSome = true := by
  induction fuel generalizing a b with
  | zero => omega
  | succ fuel ih =>
      rw [equalFuel]
      split
      · rfl
      · have hx := List.getElem?_eq_getElem hal
        have hy := List.getElem?_eq_getElem hb
        simp only [hx, hy, Option.bind_eq_bind, Option.bind_some]
        refine entryEqual_isSome (h.tuple _ (List.getElem_mem hal)) fun p hp q hq ↦ ?_
        have hpa := h.below hx p hp
        exact ih (by omega) (by omega) (h.pointers_lt hy q hq)

theorem typeEqual_isSome {a b : ℕ} (ha : a < s.entries.length) (hb : b < s.entries.length) :
    (s.typeEqual a b).isSome = true :=
  h.equalFuel_isSome (by nlinarith) ha hb

end Acyclic

/-- Entries of one form with equal entries inside count as equal. -/
theorem entryEqual_of_matches {eq : ℕ → ℕ → Option Bool} {x y : TypeEntry} {t : TypeExpr}
    (hx : x.Matches t) (hy : y.Matches t)
    (h : List.Forall₂ (fun p q ↦ eq p q = some true) x.pointers y.pointers) :
    entryEqual eq x y = some true := by
  obtain ⟨hxplain, hxform⟩ := hx
  obtain ⟨hyplain, hyform⟩ := hy
  unfold pointers at h
  cases t with
  | named name =>
      simp only [Forms] at hxform hyform
      cases hname : primitiveNamed name with
      | some k =>
          rw [hname] at hxform hyform
          simp [entryEqual, hxplain, hyplain, hxform, hyform]
      | none =>
          rw [hname] at hxform hyform
          simp [entryEqual, hxplain, hyplain, hxform, hyform, itemsEqual]
  | generic name items =>
      simp only [hxform.1, hyform.1] at h
      simp [entryEqual, hxplain, hyplain, hxform.1, hyform.1, hxform.2.2, hyform.2.2,
        itemsEqual_eq_true.mpr h]
  | function closure params result =>
      obtain ⟨hxkind, hxbase⟩ := hxform
      obtain ⟨hykind, hybase⟩ := hyform
      obtain ⟨a, ha⟩ := Option.isSome_iff_exists.mp hxbase
      obtain ⟨b, hb⟩ := Option.isSome_iff_exists.mp hybase
      have hparts : eq a b = some true ∧ itemsEqual eq x.items y.items = some true := by
        rw [itemsEqual_eq_true]
        cases closure <;> simpa [hxkind, hykind, ha, hb] using h
      cases closure <;>
        simp [entryEqual, hxplain, hyplain, hxkind, hykind, ha, hb, baseEqual, hparts]
  | tuple items =>
      simp only [hxform.1, hyform.1] at h
      simp [entryEqual, hxplain, hyplain, hxform.1, hyform.1, hxform.2, hyform.2, baseEqual,
        itemsEqual_eq_true.mpr h]
  | slice t =>
      simp only [hxform.1, hyform.1] at h
      simp [entryEqual, hxplain, hyplain, hxform.1, hyform.1, hxform.2, hyform.2,
        baseEqual_eq_true.mpr h]
  | const t => exact hxform.elim
  | pointer t =>
      simp only [hxform.1, hyform.1] at h
      simp [entryEqual, hxplain, hyplain, hxform.1, hyform.1, hxform.2, hyform.2,
        baseEqual_eq_true.mpr h]
  | array t count =>
      simp only [hxform.1, hyform.1] at h
      simp [entryEqual, hxplain, hyplain, hxform.1, hyform.1, hxform.2, hyform.2,
        baseEqual_eq_true.mpr h]

theorem forall₂_zip {α β γ : Type} {R : α → β → Prop} {S : α → γ → Prop} {Q : β → γ → Prop}
    {xs : List α} {ys : List β} {zs : List γ} (h : List.Forall₂ R xs ys)
    (h' : List.Forall₂ S xs zs) (himp : ∀ x ∈ xs, ∀ y ∈ ys, ∀ z, R x y → S x z → Q y z) :
    List.Forall₂ Q ys zs := by
  induction h generalizing zs with
  | nil =>
      cases h'
      exact .nil
  | cons hxy _ ih =>
      cases h' with
      | cons hxz h' =>
          refine .cons (himp _ List.mem_cons_self _ List.mem_cons_self _ hxy hxz)
            (ih h' fun x hx y hy ↦ ?_)
          exact himp x (List.mem_cons_of_mem _ hx) y (List.mem_cons_of_mem _ hy)

namespace Clean

variable {s : TypeTable} (h : Clean s)
include h

/-- Two entries that show one type count as equal. -/
theorem equalFuel_of_shows {t : TypeExpr} {fuel a b : ℕ} (hfuel : a < fuel) (ha : Shows s t a)
    (hb : Shows s t b) : s.equalFuel fuel a b = some true := by
  induction t using TypeExpr.parts_induction generalizing fuel a b with
  | _ t ih =>
      obtain ⟨hx, hxform, hxparts⟩ := ha
      obtain ⟨hy, hyform, hyparts⟩ := hb
      obtain ⟨fuel, rfl⟩ : ∃ f, fuel = f + 1 := ⟨fuel - 1, by omega⟩
      rw [equalFuel]
      split
      · rfl
      · simp only [hx, hy, Option.bind_eq_bind, Option.bind_some]
        refine entryEqual_of_matches hxform hyform (forall₂_zip hxparts hyparts ?_)
        intro u hu p hp q hup huq
        have hpa := h.below hx p hp
        exact ih u hu (by omega) hup huq

theorem typeEqual_of_shows {t : TypeExpr} {a b : ℕ} (ha : Shows s t a) (hb : Shows s t b) :
    s.typeEqual a b = some true := by
  have hlt := ha.lt
  exact h.equalFuel_of_shows (by nlinarith) ha hb

end Clean

end TinyCPlus.Compiler
