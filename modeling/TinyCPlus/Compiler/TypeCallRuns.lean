import TinyCPlus.Compiler.TypeCalls

/-!
# Runs of calls on the type table

Every call that meets no entry under an overlapping key finds its own entry or appends it, and what
a call has given once answers it for ever.
-/

namespace TinyCPlus.Compiler

open TypeTable TypeEntry

/-! ## Steps -/

/-- The table has grown and still has one entry for every key. -/
structure Extends (s s' : TypeTable) : Prop where
  older : s.entries <+: s'.entries
  builtin : ∀ {k : Primitive} {p : ℕ}, s.builtin k = some p → s'.builtin k = some p
  keyed : Keyed s'

section

variable {s s' s'' : TypeTable}

theorem Extends.refl (h : Keyed s) : Extends s s := ⟨List.prefix_refl _, id, h⟩

theorem Extends.trans (h : Extends s s') (h' : Extends s' s'') : Extends s s'' :=
  ⟨h.older.trans h'.older, fun hk ↦ h'.builtin (h.builtin hk), h'.keyed⟩

theorem Extends.get (h : Extends s s') {p : ℕ} {e : TypeEntry} (he : s.entries[p]? = some e) :
    s'.entries[p]? = some e := by
  obtain ⟨es, hes⟩ := h.older
  rw [← hes, List.getElem?_append_left (List.getElem?_eq_some_iff.mp he).1, he]

theorem add_extends {e : TypeEntry} (h : Keyed s)
    (hitems : ∀ q ∈ e.pointers ++ e.items, q < s.entries.length)
    (htuple : e.kind = .tuple → e.base = none) (hplain : e.kind ≠ .enum)
    (hconst : e.qualified = true → ' ' ∈ e.name)
    (hdistinct : ∀ {q : ℕ} {y : TypeEntry}, s.entries[q]? = some y →
      ¬Twin s y { e with id := s.nextId + 1 }) : Extends s (s.add e).2 where
  older := List.prefix_append _ _
  builtin hk := hk
  keyed := .of_append (e := { e with id := s.nextId + 1 }) h rfl hitems htuple hplain hconst .inl
    hdistinct

/-! ### Primitive and named types -/

theorem primitiveName_ne_size (k : Primitive) : primitiveName k ≠ "size_t".toList := by
  cases k <;> decide

theorem typePrimitive_extends (h : Keyed s) (k : Primitive) :
    Extends s (typePrimitive k s).2 ∧
      (typePrimitive k s).2.builtin k = some (typePrimitive k s).1 := by
  unfold typePrimitive
  cases hk : s.builtin k with
  | some p => exact ⟨.refl h, hk⟩
  | none =>
      refine ⟨⟨List.prefix_append _ _, fun {j p} hj ↦ ?_, ?_⟩, Function.update_self _ _ _⟩
      · have hjk : j ≠ k := by
          rintro rfl
          rw [hk] at hj
          cases hj
        exact (Function.update_of_ne hjk _ _).trans hj
      · refine .of_append h rfl (by simp [blank, pointers]) (by simp [blank]) (by simp [blank])
          (by simp [blank]) (fun {j p} hj ↦ ?_) fun {q y} _ hy ↦ ?_
        · by_cases hjk : j = k
          · subst hjk
            have hp : Function.update s.builtin j (some s.entries.length) j = some p := hj
            rw [Function.update_self] at hp
            exact .inr ⟨(Option.some.inj hp).symm, rfl, rfl⟩
          · exact .inl ((Function.update_of_ne hjk _ _).symm.trans hj)
        · obtain ⟨hkind, hqualified, hy⟩ := hy
          have hkind : y.kind = .primitive k := hkind
          have hqualified : y.qualified = false := hqualified
          simp only [hqualified, hkind] at hy
          exact primitiveName_ne_size k hy.2

/-- What `typePrimitive` adds has the name of the primitive type. -/
theorem typePrimitive_entries (k : Primitive) {q : ℕ} {y : TypeEntry}
    (hy : (typePrimitive k s).2.entries[q]? = some y) :
    s.entries[q]? = some y ∨ y.name = primitiveName k := by
  unfold typePrimitive at hy
  cases hk : s.builtin k with
  | some p =>
      simp only [hk] at hy
      exact .inl hy
  | none =>
      simp only [hk] at hy
      rcases getElem?_append_singleton.mp hy with hy | ⟨-, rfl⟩
      · exact .inl hy
      · exact .inr rfl

/-- The entry of a name without blanks is no `const` type. -/
theorem Keyed.unqualified (h : Keyed s) {p : ℕ} {e : TypeEntry} (he : s.entries[p]? = some e)
    (hname : ' ' ∉ e.name) : e.qualified = false := by
  rw [Bool.eq_false_iff]
  exact fun hqualified ↦ hname (h.const e (List.mem_of_getElem? he) hqualified)

theorem typeSize_extends (h : Keyed s) : Extends s (typeSize s).2 ∧ ∃ e,
    (typeSize s).2.entries[(typeSize s).1]? = some e ∧ e.qualified = false ∧
      e.kind = .primitive .u64 ∧ e.name = "size_t".toList := by
  unfold typeSize
  cases hfind : s.find fun t ↦ t.kind = .primitive .u64 && t.name = "size_t".toList with
  | some p =>
      obtain ⟨e, he, htest⟩ := find_some hfind
      simp only [Bool.and_eq_true, decide_eq_true_eq] at htest
      exact ⟨.refl h, e, he, h.unqualified he (by rw [htest.2]; decide), htest⟩
  | none =>
      obtain ⟨hextends, hbuiltin⟩ := typePrimitive_extends h .u64
      have hentries := fun q y ↦ typePrimitive_entries (s := s) .u64 (q := q) (y := y)
      generalize typePrimitive .u64 s = r at hextends hbuiltin hentries
      obtain ⟨base, s₁⟩ := r
      obtain ⟨e, he, hkind, hplain⟩ := hextends.keyed.builtin hbuiltin
      simp only [List.getD_eq_getElem?_getD, he, Option.getD_some]
      refine ⟨⟨hextends.older.trans (List.prefix_append _ _), hextends.builtin, ?_⟩,
        { e with name := "size_t".toList }, List.getElem?_concat_length, hplain, hkind, rfl⟩
      refine .of_append hextends.keyed rfl ?_ ?_ ?_ ?_ .inl fun {q y} hy htwin ↦ ?_
      · intro q hq
        rcases List.mem_append.mp hq with hq | hq
        · exact hextends.keyed.acyclic.pointers_lt he q hq
        · exact (hextends.keyed.items he q hq).trans (List.getElem?_eq_some_iff.mp he).1
      · intro htuple
        cases hkind.symm.trans htuple
      · rw [hkind]
        decide
      · intro hqualified
        cases hplain.symm.trans hqualified
      · -- neither an old entry nor the new `u64` has this name
        obtain ⟨hykind, hyplain, htwin⟩ := htwin
        have hykind : y.kind = .primitive .u64 := hykind.trans hkind
        have hyplain : y.qualified = false := hyplain.trans hplain
        simp only [hyplain, hykind] at htwin
        rcases hentries q y hy with hold | hname
        · have htest := find_none hfind hold
          simp [hykind, htwin.1] at htest
        · exact primitiveName_ne_size .u64 (hname.symm.trans htwin.1)

/-- What a name stands for: a primitive type, the view of `u64`, or a class. -/
def NameGives (s : TypeTable) (p : ℕ) (name : List Char) : Prop :=
  if name = "size_t".toList then
    ∃ e, s.entries[p]? = some e ∧ e.qualified = false ∧ e.kind = .primitive .u64 ∧ e.name = name
  else
    match primitiveNamed name with
    | some k => s.builtin k = some p
    | none => ∃ e, s.entries[p]? = some e ∧ e.qualified = false ∧ e.kind = .named ∧
        e.items = [] ∧ e.name = name

theorem typeNamed_extends (h : Keyed s) {name : List Char} (hname : ' ' ∉ name) :
    Extends s (typeNamed name s).2 ∧ NameGives (typeNamed name s).2 (typeNamed name s).1 name := by
  unfold NameGives
  by_cases hsize : name = "size_t".toList
  · subst hsize
    rw [if_pos rfl]
    exact typeSize_extends h
  · rw [if_neg hsize]
    cases hlookup : lookup names name with
    | some k =>
        simp only [typeNamed, primitiveNamed, hlookup]
        exact typePrimitive_extends h k
    | none =>
        cases halias : lookup aliases name with
        | some k =>
            simp only [typeNamed, primitiveNamed, hlookup, if_neg hsize, halias]
            exact typePrimitive_extends h k
        | none =>
            by_cases hvar : name = "var".toList
            · simp only [typeNamed, primitiveNamed, hlookup, if_neg hsize, halias, if_pos hvar]
              exact typePrimitive_extends h .auto
            · simp only [typeNamed, primitiveNamed, hlookup, if_neg hsize, halias, if_neg hvar]
              cases hfind : s.find fun t ↦
                  (t.kind = .named || t.kind = .enum) && t.items = [] && t.name = name with
              | some p =>
                  obtain ⟨e, he, htest⟩ := find_some hfind
                  simp only [Bool.and_eq_true, Bool.or_eq_true, decide_eq_true_eq] at htest
                  obtain ⟨⟨hkind, hitems⟩, rfl⟩ := htest
                  exact ⟨.refl h, e, he, h.unqualified he hname,
                    hkind.resolve_right (h.plain e (List.mem_of_getElem? he)), hitems, rfl⟩
              | none =>
                  refine ⟨add_extends h (by simp [blank, pointers]) (by simp [blank])
                    (by simp [blank]) (by simp [blank]) fun {q y} hy htwin ↦ ?_,
                    _, getElem?_add _, rfl, rfl, rfl, rfl⟩
                  obtain ⟨hkind, hplain, htwin⟩ := htwin
                  have hkind : y.kind = .named := hkind
                  have hplain : y.qualified = false := hplain
                  simp only [hplain, hkind] at htwin
                  obtain ⟨hname, hitems⟩ := htwin
                  have htest := find_none hfind hy
                  have hempty : y.items = [] := by simpa [blank] using hitems
                  have hyname : y.name = name := hname
                  simp [hkind, hempty, hyname] at htest

/-! ### `type_equal` where every key has one entry -/

theorem Keyed.entryEqual_iff (h : Keyed s) {eq : ℕ → ℕ → Option Bool} {p q : ℕ}
    {x y : TypeEntry} (hx : s.entries[p]? = some x) (hy : s.entries[q]? = some y) :
    entryEqual eq x y = some true ↔
      SameHead x y ∧ List.Forall₂ (fun p q ↦ eq p q = some true) x.pointers y.pointers :=
  Compiler.entryEqual_iff (h.acyclic.tuple x (List.mem_of_getElem? hx))
    (h.acyclic.tuple y (List.mem_of_getElem? hy)) (h.plain y (List.mem_of_getElem? hy))

theorem Keyed.same_of_equalFuel (h : Keyed s) {fuel a b : ℕ} (ha : a < s.entries.length)
    (hb : b < s.entries.length) (hequal : s.equalFuel fuel a b = some true) : Same s a b := by
  induction fuel generalizing a b with
  | zero => cases hequal
  | succ fuel ih =>
      rw [equalFuel] at hequal
      split at hequal
      · rename_i hab
        exact hab ▸ h.acyclic.same_refl ha
      · have hx := List.getElem?_eq_getElem ha
        have hy := List.getElem?_eq_getElem hb
        simp only [hx, hy, Option.bind_eq_bind, Option.bind_some] at hequal
        obtain ⟨hhead, hparts⟩ := (h.entryEqual_iff hx hy).mp hequal
        refine .intro hx hy hhead (forall₂_of_mem hparts fun p hp q hq hpq ↦ ?_)
        exact ih (h.acyclic.pointers_lt hx p hp) (h.acyclic.pointers_lt hy q hq) hpq

theorem Keyed.equalFuel_of_same (h : Keyed s) {fuel a b : ℕ} (ha : a < fuel) (hab : Same s a b) :
    s.equalFuel fuel a b = some true := by
  induction fuel generalizing a b with
  | zero => omega
  | succ fuel ih =>
      obtain ⟨hx, hy, hhead, hparts⟩ := hab
      rw [equalFuel]
      split
      · rfl
      · simp only [hx, hy, Option.bind_eq_bind, Option.bind_some]
        refine (h.entryEqual_iff hx hy).mpr ⟨hhead, forall₂_of_mem hparts fun p hp q _ hpq ↦ ?_⟩
        have hpa := h.acyclic.below hx p hp
        exact ih (by omega) hpq

theorem Keyed.typeEqual_of_same (h : Keyed s) {a b : ℕ} (hab : Same s a b) :
    s.typeEqual a b = some true := by
  have hlt := hab.lt.1
  exact h.equalFuel_of_same (by nlinarith) hab

theorem Keyed.itemsEqual_of_same (h : Keyed s) {ps qs : List ℕ}
    (hsame : List.Forall₂ (Same s) ps qs) : itemsEqual s.typeEqual ps qs = some true :=
  itemsEqual_eq_true.mpr (hsame.imp fun _ _ ↦ h.typeEqual_of_same)

theorem Keyed.same_of_itemsEqual (h : Keyed s) {ps qs : List ℕ}
    (hps : ∀ p ∈ ps, p < s.entries.length) (hqs : ∀ q ∈ qs, q < s.entries.length)
    (hequal : itemsEqual s.typeEqual ps qs = some true) : List.Forall₂ (Same s) ps qs :=
  forall₂_of_mem (itemsEqual_eq_true.mp hequal) fun p hp q hq hpq ↦
    h.same_of_equalFuel (hps p hp) (hqs q hq) hpq

theorem Keyed.items_lt (h : Keyed s) {p : ℕ} {e : TypeEntry} (he : s.entries[p]? = some e) :
    ∀ q ∈ e.items, q < s.entries.length := fun q hq ↦
  (h.items he q hq).trans (List.getElem?_eq_some_iff.mp he).1

/-! ### Types with parts -/

theorem typeDerive_extends (h : Keyed s) {kind : TypeKind} {base count : ℕ}
    (hkind : kind = .pointer ∨ kind = .array ∨ kind = .slice) (hbase : base < s.entries.length)
    (hfree : ∀ e ∈ s.entries, e.qualified = true →
      ¬(e.kind = kind ∧ e.base = some base ∧ e.count = count)) :
    Extends s (typeDerive kind base count s).2 ∧ ∃ e,
      (typeDerive kind base count s).2.entries[(typeDerive kind base count s).1]? = some e ∧
        e.qualified = false ∧ e.kind = kind ∧ e.base = some base ∧ e.count = count := by
  rcases typeDerive_cases kind base count s with ⟨hs, e, he, hparts⟩ | ⟨⟨name, hadd⟩, hothers⟩
  · rw [hs]
    refine ⟨.refl h, e, he, ?_, hparts⟩
    rw [Bool.eq_false_iff]
    exact fun hqualified ↦ hfree e (List.mem_of_getElem? he) hqualified hparts
  · rw [hadd]
    refine ⟨add_extends h ?_ ?_ ?_ (by simp) fun {q y} hy htwin ↦ ?_, _, getElem?_add _, rfl, rfl,
      rfl, rfl⟩
    · rcases hkind with rfl | rfl | rfl <;> simpa [pointers] using hbase
    · rcases hkind with rfl | rfl | rfl <;> simp
    · rcases hkind with rfl | rfl | rfl <;> simp
    · obtain ⟨hykind, hyplain, htwin⟩ := htwin
      have hykind : y.kind = kind := hykind
      have hyplain : y.qualified = false := hyplain
      refine hothers q y hy ⟨hykind, ?_⟩
      simp only [hyplain, hykind] at htwin
      rcases hkind with rfl | rfl | rfl <;> exact htwin

theorem typeTuple_extends (h : Keyed s) {items : List ℕ}
    (hitems : ∀ q ∈ items, q < s.entries.length) :
    ∃ p s', typeTuple items s = some (p, s') ∧ Extends s s' ∧ ∃ e, s'.entries[p]? = some e ∧
      e.qualified = false ∧ e.kind = .tuple ∧ e.base = none ∧
        List.Forall₂ (Same s') e.items items := by
  obtain ⟨p, s', hs'⟩ := typeTuple_isSome h.acyclic hitems
  refine ⟨p, s', hs', ?_⟩
  have hequal : ∀ {q : ℕ} {e : TypeEntry}, s.entries[q]? = some e →
      (entryEqual s.typeEqual e ⟨.tuple, [], none, items, 0, false, 0⟩ = some true ↔
        e.kind = .tuple ∧ e.qualified = false ∧ List.Forall₂ (Same s) e.items items) := by
    intro q e he
    have htuple := h.acyclic.tuple e (List.mem_of_getElem? he)
    rw [Compiler.entryEqual_iff htuple (fun _ ↦ rfl) (by simp)]
    constructor
    · rintro ⟨hhead, hparts⟩
      have hkind : e.kind = .tuple := hhead.kind
      refine ⟨hkind, hhead.qualified, ?_⟩
      simp only [pointers, hkind] at hparts
      exact h.same_of_itemsEqual (h.items_lt he) hitems (itemsEqual_eq_true.mpr hparts)
    · rintro ⟨hkind, hplain, hsame⟩
      refine ⟨⟨hkind, hplain, by simp, by simp, by simp [IsFunction]⟩, ?_⟩
      simp only [pointers, hkind]
      exact hsame.imp fun _ _ ↦ h.typeEqual_of_same
  rcases typeTuple_cases hs' with ⟨rfl, e, he, hfound⟩ | ⟨⟨name, hadd⟩, hothers⟩
  · obtain ⟨hkind, hplain, hsame⟩ := (hequal he).mp hfound
    have hbase := h.acyclic.tuple e (List.mem_of_getElem? he) hkind
    exact ⟨.refl h, e, he, hplain, hkind, hbase, hsame⟩
  · obtain ⟨rfl, rfl⟩ := Prod.ext_iff.mp hadd
    have hextends : Extends s (s.add ⟨.tuple, name, none, items, 0, false, 0⟩).2 := by
      refine add_extends h ?_ (by simp) (by simp) (by simp) fun {q y} hy htwin ↦ ?_
      · simpa [pointers] using hitems
      · obtain ⟨hykind, hyplain, htwin⟩ := htwin
        have hykind : y.kind = .tuple := hykind
        have hyplain : y.qualified = false := hyplain
        simp only [hyplain, hykind] at htwin
        have hfound := (hequal hy).mpr ⟨hykind, hyplain, htwin⟩
        rw [hothers q y hy] at hfound
        cases hfound
    refine ⟨hextends, _, getElem?_add _, rfl, rfl, rfl, List.forall₂_same.mpr fun q hq ↦ ?_⟩
    exact (h.acyclic.same_refl (hitems q hq)).mono h.acyclic hextends.older

theorem typeGeneric_extends (h : Keyed s) {name : List Char} {items : List ℕ}
    (hname : ' ' ∉ name) (hitems : ∀ q ∈ items, q < s.entries.length) (hne : items ≠ []) :
    ∃ p s', typeGeneric name items s = some (p, s') ∧ Extends s s' ∧ ∃ e,
      s'.entries[p]? = some e ∧ e.qualified = false ∧ e.kind = .named ∧ e.name = name ∧
        List.Forall₂ (Same s') e.items items := by
  obtain ⟨p, s', hs'⟩ := typeGeneric_isSome h.acyclic hitems name
  refine ⟨p, s', hs', ?_⟩
  rcases typeGeneric_cases hs' with ⟨rfl, e, he, hkind, -, rfl, hequal⟩ | ⟨hadd, hothers⟩
  · exact ⟨.refl h, e, he, h.unqualified he hname, hkind, rfl,
      h.same_of_itemsEqual (h.items_lt he) hitems hequal⟩
  · obtain ⟨rfl, rfl⟩ := Prod.ext_iff.mp hadd
    have hextends : Extends s (s.add { blank .named name with items }).2 := by
      refine add_extends h ?_ (by simp [blank]) (by simp [blank]) (by simp [blank])
        fun {q y} hy htwin ↦ ?_
      · simpa [pointers, blank] using hitems
      · obtain ⟨hykind, hyplain, htwin⟩ := htwin
        have hykind : y.kind = .named := hykind
        have hyplain : y.qualified = false := hyplain
        simp only [hyplain, hykind] at htwin
        obtain ⟨hyname, hsame⟩ := htwin
        have hsame : List.Forall₂ (Same s) y.items items := hsame
        have hyne : y.items ≠ [] := by
          rw [← List.length_pos_iff, hsame.length_eq]
          exact List.length_pos_iff.mpr hne
        have hequal := h.itemsEqual_of_same hsame
        rw [hothers q y hy hykind hyne hyname] at hequal
        cases hequal
    refine ⟨hextends, _, getElem?_add _, rfl, rfl, rfl, List.forall₂_same.mpr fun q hq ↦ ?_⟩
    exact (h.acyclic.same_refl (hitems q hq)).mono h.acyclic hextends.older

/-- The `const` copy of an entry. -/
def IsConstOf (s : TypeTable) (e t : TypeEntry) : Prop :=
  e.qualified = true ∧ e.kind = t.kind ∧ e.base = t.base ∧ e.name = constName t.name ∧
    e.count = t.count ∧ List.Forall₂ (Same s) e.items t.items

theorem typeConst_extends (h : Keyed s) {base : ℕ} {t : TypeEntry}
    (ht : s.entries[base]? = some t)
    (hfree : t.qualified = false → ∀ e ∈ s.entries, e.qualified = true → e.kind = t.kind →
      e.base = t.base → e.name = constName t.name →
        e.count = t.count ∧ itemsEqual s.typeEqual e.items t.items = some true) :
    ∃ p s', typeConst base s = some (p, s') ∧ Extends s s' ∧
      if t.qualified then p = base else ∃ e, s'.entries[p]? = some e ∧ IsConstOf s' e t := by
  simp only [typeConst, ht, Option.bind_eq_bind, Option.bind_some]
  cases hplain : t.qualified with
  | true => exact ⟨base, s, rfl, .refl h, rfl⟩
  | false =>
      simp only [Bool.false_eq_true, if_false]
      cases hfind : s.find fun u ↦
          u.qualified && u.kind = t.kind && u.base = t.base && u.name = "const ".toList ++ t.name with
      | some q =>
          obtain ⟨e, he, htest⟩ := find_some hfind
          simp only [Bool.and_eq_true, decide_eq_true_eq] at htest
          obtain ⟨⟨⟨hqualified, hkind⟩, hbase⟩, hname⟩ := htest
          obtain ⟨hcount, hequal⟩ :=
            hfree hplain e (List.mem_of_getElem? he) hqualified hkind hbase hname
          exact ⟨q, s, rfl, .refl h, e, he, hqualified, hkind, hbase, hname, hcount,
            h.same_of_itemsEqual (h.items_lt he) (h.items_lt ht) hequal⟩
      | none =>
          have hextends : Extends s
              (s.add { t with qualified := true, name := "const ".toList ++ t.name }).2 := by
            refine add_extends h ?_ ?_ ?_ ?_ fun {q y} hy htwin ↦ ?_
            · intro q hq
              rcases List.mem_append.mp hq with hq | hq
              · exact h.acyclic.pointers_lt ht q hq
              · exact h.items_lt ht q hq
            · exact h.acyclic.tuple t (List.mem_of_getElem? ht)
            · exact h.plain t (List.mem_of_getElem? ht)
            · exact fun _ ↦ List.mem_append_left _ (by decide)
            · obtain ⟨hkind, hqualified, htwin⟩ := htwin
              have hkind : y.kind = t.kind := hkind
              have hqualified : y.qualified = true := hqualified
              rw [hqualified, if_pos rfl] at htwin
              have hbase : y.base = t.base := htwin.1
              have hname : y.name = "const ".toList ++ t.name := htwin.2
              have htest := find_none hfind hy
              rw [hkind, hqualified, hbase, hname] at htest
              simp at htest
          refine ⟨_, _, rfl, hextends, _, getElem?_add _, rfl, rfl, rfl, rfl, rfl, ?_⟩
          refine List.forall₂_same.mpr fun q hq ↦ ?_
          exact (h.acyclic.same_refl (h.items_lt ht q hq)).mono h.acyclic hextends.older

theorem typeFunction_extends (h : Keyed s) {closure : Bool} {params : List ℕ} {result : ℕ}
    (hparts : ∀ q ∈ result :: params, q < s.entries.length)
    (hfree : ∀ e ∈ s.entries, e.IsGenericFunction →
      itemsEqual s.typeEqual e.items params ≠ some true) :
    ∃ p s', typeFunction closure params result s = some (p, s') ∧ Extends s s' ∧ ∃ e,
      s'.entries[p]? = some e ∧ e.qualified = false ∧
        e.kind = (if closure then .closure else .func) ∧ e.base = some result ∧
          e.items = params := by
  obtain ⟨hresult, hparams⟩ := List.forall_mem_cons.mp hparts
  obtain ⟨p, s₁, hs₁⟩ := typeGeneric_isSome h.acyclic hparams "Function".toList
  refine ⟨p, _, by rw [typeFunction, hs₁]; rfl, ?_⟩
  rcases typeGeneric_cases hs₁ with ⟨-, e, he, hkind, hne, hname, hequal⟩ | ⟨hadd, -⟩
  · exact absurd hequal (hfree e (List.mem_of_getElem? he) ⟨hkind, hne, hname⟩)
  · obtain ⟨rfl, rfl⟩ := Prod.ext_iff.mp hadd
    have hentries : ((s.add { blank .named "Function".toList with items := params }).2.entries.modify
        s.entries.length fun t : TypeEntry ↦
          { t with kind := if closure then .closure else .func, base := some result }) =
        s.entries ++ [TypeEntry.toFunction closure result
          { blank .named "Function".toList with items := params, id := s.nextId + 1 }] := by
      simp only [add, List.modify_eq_set_getElem?, List.getElem?_concat_length]
      simp [TypeEntry.toFunction]
    refine ⟨⟨⟨_, hentries.symm⟩, id, ?_⟩, _, (congrArg (·[s.entries.length]?) hentries).trans
      List.getElem?_concat_length, rfl, rfl, rfl, rfl⟩
    · refine .of_append h hentries ?_ ?_ ?_ ?_ .inl fun {q y} _ htwin ↦ ?_
      · intro q hq
        refine hparts q ?_
        have hq : q ∈ (result :: params) ++ params := by
          cases closure <;> exact hq
        rcases List.mem_append.mp hq with hq | hq
        · exact hq
        · exact List.mem_cons_of_mem _ hq
      · cases closure <;> simp [TypeEntry.toFunction]
      · cases closure <;> simp [TypeEntry.toFunction]
      · simp [TypeEntry.toFunction, blank]
      · obtain ⟨hkind, hqualified, htwin⟩ := htwin
        have hqualified : y.qualified = false := hqualified
        rw [hqualified, if_neg Bool.false_ne_true] at htwin
        cases closure with
        | true =>
            have hkind : y.kind = .closure := hkind
            rw [hkind] at htwin
            exact htwin
        | false =>
            have hkind : y.kind = .func := hkind
            rw [hkind] at htwin
            exact htwin

end

/-! ## Runs -/

namespace TypeCall

/-- `Gives`, by what the later searches find. -/
def Answers (s : TypeTable) (p : ℕ) : TypeCall → Prop
  | .primitive k => s.builtin k = some p
  | .named name => NameGives s p name
  | .tuple items => ∃ e, s.entries[p]? = some e ∧ e.qualified = false ∧ e.kind = .tuple ∧
      e.base = none ∧ List.Forall₂ (Same s) e.items items
  | .generic name items => ∃ e, s.entries[p]? = some e ∧ e.qualified = false ∧
      e.kind = .named ∧ e.name = name ∧ List.Forall₂ (Same s) e.items items
  | .const base => ∃ t, s.entries[base]? = some t ∧
      if t.qualified then p = base else ∃ e, s.entries[p]? = some e ∧ IsConstOf s e t
  | c => c.Gives s p

section

variable {s s' : TypeTable} {c c' : TypeCall} {p q : ℕ}

/-- Every call in its own place returns, keeps the entries and gives what it is asked for. -/
theorem exec_extends (h : Keyed s) (hvalid : c.Valid s) (hfree : c.Undisturbed s) :
    ∃ p s', c.exec s = some (p, s') ∧ Extends s s' ∧ c.Answers s' p := by
  cases c with
  | primitive k => exact ⟨_, _, rfl, typePrimitive_extends h k⟩
  | named name => exact ⟨_, _, rfl, typeNamed_extends h hvalid⟩
  | derive kind base count => exact ⟨_, _, rfl, typeDerive_extends h hvalid.1 hvalid.2 hfree⟩
  | tuple items => exact typeTuple_extends h hvalid
  | generic name items => exact typeGeneric_extends h hvalid.1 hvalid.2 hfree
  | const base =>
      have ht := List.getElem?_eq_getElem (show base < s.entries.length from hvalid)
      obtain ⟨p, s', hexec, hextends, hanswer⟩ := typeConst_extends h ht (hfree _ ht)
      exact ⟨p, s', hexec, hextends, _, hextends.get ht, hanswer⟩
  | function closure params result => exact typeFunction_extends h hvalid hfree

theorem Valid.extends (h : c.Valid s) (hs : Extends s s') : c.Valid s' := by
  have hle : s.entries.length ≤ s'.entries.length := hs.older.length_le
  cases c with
  | primitive k => trivial
  | named name => exact h
  | derive kind base count => exact ⟨h.1, h.2.trans_le hle⟩
  | tuple items => exact fun q hq ↦ (h q hq).trans_le hle
  | generic name items => exact ⟨h.1, fun q hq ↦ (h.2 q hq).trans_le hle⟩
  | const base => exact Nat.lt_of_lt_of_le h hle
  | function closure params result => exact fun q hq ↦ (h q hq).trans_le hle

/-- What a call has given stays. -/
theorem Answers.extends (h : c.Answers s p) (hkeyed : Keyed s) (hs : Extends s s') :
    c.Answers s' p := by
  have hsame : ∀ {ps qs : List ℕ}, List.Forall₂ (Same s) ps qs → List.Forall₂ (Same s') ps qs :=
    fun h ↦ h.imp fun _ _ ↦ Same.mono hkeyed.acyclic hs.older
  cases c with
  | primitive k => exact hs.builtin h
  | named name =>
      simp only [Answers, NameGives] at h ⊢
      split at h
      · rw [if_pos ‹_›]
        obtain ⟨e, he, hrest⟩ := h
        exact ⟨e, hs.get he, hrest⟩
      · rw [if_neg ‹_›]
        cases hname : primitiveNamed name with
        | some k =>
            simp only [hname] at h
            exact hs.builtin h
        | none =>
            simp only [hname] at h
            obtain ⟨e, he, hrest⟩ := h
            exact ⟨e, hs.get he, hrest⟩
  | derive kind base count =>
      obtain ⟨e, he, hrest⟩ := h
      exact ⟨e, hs.get he, hrest⟩
  | tuple items =>
      obtain ⟨e, he, hplain, hkind, hbase, hitems⟩ := h
      exact ⟨e, hs.get he, hplain, hkind, hbase, hsame hitems⟩
  | generic name items =>
      obtain ⟨e, he, hplain, hkind, hname, hitems⟩ := h
      exact ⟨e, hs.get he, hplain, hkind, hname, hsame hitems⟩
  | const base =>
      obtain ⟨t, ht, h⟩ := h
      refine ⟨t, hs.get ht, ?_⟩
      split at h
      · rwa [if_pos ‹_›]
      · rw [if_neg ‹_›]
        obtain ⟨e, he, hqualified, hkind, hbase, hname, hcount, hitems⟩ := h
        exact ⟨e, hs.get he, hqualified, hkind, hbase, hname, hcount, hsame hitems⟩
  | function closure params result =>
      obtain ⟨e, he, hrest⟩ := h
      exact ⟨e, hs.get he, hrest⟩

/-- Entries of tuples and of generic types with equal items meet. -/
theorem same_items (hkeyed : Keyed s) {e e' : TypeEntry} {xs ys : List ℕ}
    (hx : List.Forall₂ (Same s) e.items xs) (hy : List.Forall₂ (Same s) e'.items ys)
    (hequal : itemsEqual s.typeEqual xs ys = some true) :
    List.Forall₂ (Same s) e.items e'.items := by
  have hlt : ∀ {ps qs : List ℕ}, List.Forall₂ (Same s) ps qs → ∀ q ∈ qs, q < s.entries.length := by
    intro ps qs h q hq
    obtain ⟨i, hi, rfl⟩ := List.mem_iff_getElem.mp hq
    exact (h.get (h.length_eq ▸ hi) hi).lt.2
  have hxy := hkeyed.same_of_itemsEqual (hlt hx) (hlt hy) hequal
  exact hkeyed.acyclic.sames_trans (hkeyed.acyclic.sames_trans hx hxy)
    (hkeyed.acyclic.sames_symm hy)

/-- Equal calls are answered by one entry. -/
theorem Answers.unique (hkeyed : Keyed s) (hp : c.Answers s p) (hq : c'.Answers s q)
    (hvalid : c.Valid s) (halike : c.Alike s c') : p = q := by
  have hderived : ∀ {k : TypeKind}, k = .pointer ∨ k = .array ∨ k = .slice →
      ∀ {x y : TypeEntry}, s.entries[p]? = some x → s.entries[q]? = some y →
        x.qualified = false → y.qualified = false → x.kind = k → y.kind = k →
          x.base = y.base → x.count = y.count → p = q := by
    intro k hk x y hx hy hxplain hyplain hxkind hykind hbase hcount
    refine hkeyed.distinct hx hy ⟨hxkind.trans hykind.symm, hxplain.trans hyplain.symm, ?_⟩
    rw [hxplain, if_neg Bool.false_ne_true, hxkind]
    rcases hk with rfl | rfl | rfl <;> exact ⟨hbase, hcount⟩
  unfold Alike at halike
  split at halike
  · obtain ⟨x, hx, hxplain, hxkind, -, hxitems⟩ := hp
    obtain ⟨y, hy, hyplain, hykind, -, hyitems⟩ := hq
    refine hkeyed.distinct hx hy ⟨hxkind.trans hykind.symm, hxplain.trans hyplain.symm, ?_⟩
    rw [hxplain, if_neg Bool.false_ne_true, hxkind]
    exact same_items hkeyed hxitems hyitems halike
  · obtain ⟨x, hx, hxplain, hxkind, rfl, hxitems⟩ := hp
    obtain ⟨y, hy, hyplain, hykind, rfl, hyitems⟩ := hq
    refine hkeyed.distinct hx hy ⟨hxkind.trans hykind.symm, hxplain.trans hyplain.symm, ?_⟩
    rw [hxplain, if_neg Bool.false_ne_true, hxkind]
    exact ⟨halike.1, same_items hkeyed hxitems hyitems halike.2⟩
  · exact halike.elim
  · rename_i htuple hgeneric hfunction
    subst halike
    cases c with
    | primitive k => exact Option.some.inj (Eq.trans (Eq.symm hp) hq)
    | named name =>
        simp only [Answers, NameGives] at hp hq
        split at hp
        · rename_i hname
          rw [if_pos hname] at hq
          obtain ⟨x, hx, hxplain, hxkind, hxname⟩ := hp
          obtain ⟨y, hy, hyplain, hykind, hyname⟩ := hq
          refine hkeyed.distinct hx hy ⟨hxkind.trans hykind.symm, hxplain.trans hyplain.symm, ?_⟩
          rw [hxplain, if_neg Bool.false_ne_true, hxkind]
          exact ⟨hxname.trans hname, hyname.trans hname⟩
        · rw [if_neg ‹_›] at hq
          cases hname : primitiveNamed name with
          | some k =>
              simp only [hname] at hp hq
              exact Option.some.inj (hp.symm.trans hq)
          | none =>
              simp only [hname] at hp hq
              obtain ⟨x, hx, hxplain, hxkind, hxitems, hxname⟩ := hp
              obtain ⟨y, hy, hyplain, hykind, hyitems, hyname⟩ := hq
              refine hkeyed.distinct hx hy
                ⟨hxkind.trans hykind.symm, hxplain.trans hyplain.symm, ?_⟩
              rw [hxplain, if_neg Bool.false_ne_true, hxkind]
              refine ⟨hxname.trans hyname.symm, ?_⟩
              rw [hxitems, hyitems]
              exact .nil
    | derive kind base count =>
        obtain ⟨x, hx, hxplain, hxkind, hxbase, hxcount⟩ := hp
        obtain ⟨y, hy, hyplain, hykind, hybase, hycount⟩ := hq
        exact hderived hvalid.1 hx hy hxplain hyplain hxkind hykind (hxbase.trans hybase.symm)
          (hxcount.trans hycount.symm)
    | tuple items => exact (htuple _ _ rfl rfl).elim
    | generic name items => exact (hgeneric _ _ _ _ rfl rfl).elim
    | const base =>
        obtain ⟨t, ht, hp⟩ := hp
        obtain ⟨t', ht', hq⟩ := hq
        obtain rfl := Option.some.inj (ht.symm.trans ht')
        split at hp
        · rw [if_pos ‹_›] at hq
          exact hp.trans hq.symm
        · rw [if_neg ‹_›] at hq
          obtain ⟨x, hx, hxconst, hxkind, hxbase, hxname, -⟩ := hp
          obtain ⟨y, hy, hyconst, hykind, hybase, hyname, -⟩ := hq
          refine hkeyed.distinct hx hy
            ⟨hxkind.trans hykind.symm, hxconst.trans hyconst.symm, ?_⟩
          rw [if_pos hxconst]
          exact ⟨hxbase.trans hybase.symm, hxname.trans hyname.symm⟩
    | function closure params result => exact (hfunction _ _ _ _ _ _ rfl rfl).elim

theorem Answers.gives (hkeyed : Keyed s) (h : c.Answers s p) : c.Gives s p := by
  have hprimitive : ∀ {k : Primitive}, s.builtin k = some p →
      ∃ e, s.entries[p]? = some e ∧ e.qualified = false ∧ e.kind = .primitive k := by
    intro k hk
    obtain ⟨e, he, hkind, hplain⟩ := hkeyed.builtin hk
    exact ⟨e, he, hplain, hkind⟩
  cases c with
  | primitive k => exact hprimitive h
  | named name =>
      simp only [Answers, NameGives] at h
      simp only [Gives, Forms]
      split at h
      · rename_i hname
        have hu64 : primitiveNamed name = some .u64 := by
          rw [hname]
          decide
        obtain ⟨e, he, hplain, hkind, -⟩ := h
        simp only [hu64]
        exact ⟨e, he, hplain, hkind⟩
      · cases hname : primitiveNamed name with
        | some k =>
            simp only [hname] at h ⊢
            exact hprimitive h
        | none =>
            simp only [hname] at h ⊢
            exact h
  | derive kind base count => exact h
  | tuple items =>
      obtain ⟨e, he, hplain, hkind, hbase, hitems⟩ := h
      exact ⟨e, he, hplain, hkind, hbase, hkeyed.itemsEqual_of_same hitems⟩
  | generic name items =>
      obtain ⟨e, he, hplain, hkind, hname, hitems⟩ := h
      exact ⟨e, he, hplain, hkind, hname, hkeyed.itemsEqual_of_same hitems⟩
  | const base =>
      obtain ⟨t, ht, h⟩ := h
      split at h
      · rename_i hqualified
        subst h
        refine ⟨t, t, ht, ht, hqualified, rfl, rfl, rfl, hkeyed.itemsEqual_of_same ?_⟩
        exact List.forall₂_same.mpr fun q hq ↦
          hkeyed.acyclic.same_refl (hkeyed.items_lt ht q hq)
      · obtain ⟨e, he, hqualified, hkind, hbase, -, hcount, hitems⟩ := h
        exact ⟨e, t, he, ht, hqualified, hkind, hbase, hcount, hkeyed.itemsEqual_of_same hitems⟩
  | function closure params result => exact h

/-- In a table that undisturbed calls have reached every key has one entry, and what the calls gave
still answers them. -/
theorem Reaches.keyed {history : List (TypeCall × ℕ)} (h : Reaches Undisturbed history s) :
    Keyed s ∧ ∀ x ∈ history, x.1.Answers s x.2 := by
  induction h with
  | start => exact ⟨keyed_empty, by simp⟩
  | @call history s s' c p _ hvalid hfree hexec ih =>
      obtain ⟨hkeyed, hanswers⟩ := ih
      obtain ⟨p', s'', hexec', hextends, hanswer⟩ := exec_extends hkeyed hvalid hfree
      obtain ⟨rfl, rfl⟩ := Prod.ext_iff.mp (Option.some.inj (hexec.symm.trans hexec'))
      refine ⟨hextends.keyed, fun x hx ↦ ?_⟩
      rcases List.mem_append.mp hx with hx | hx
      · exact (hanswers x hx).extends hkeyed hextends
      · rw [List.mem_singleton.mp hx]
        exact hanswer

/-- In a run of calls that meet no entry under an overlapping key every call is lawful. -/
theorem Reaches.lawful {history : List (TypeCall × ℕ)} (h : Reaches Undisturbed history s)
    (hvalid : c.Valid s) (hfree : c.Undisturbed s) : c.Lawful history s := by
  obtain ⟨hkeyed, hanswers⟩ := h.keyed
  obtain ⟨p, s', hexec, hextends, hanswer⟩ := exec_extends hkeyed hvalid hfree
  refine ⟨p, s', hexec, hanswer.gives hextends.keyed, fun c' q hmem halike ↦ ?_⟩
  exact hanswer.unique hextends.keyed ((hanswers _ hmem).extends hkeyed hextends)
    (hvalid.extends hextends) halike

end

/-- `Slice<int>`, asked for twice. -/
theorem lawful_slice_again : Lawful [(.primitive .i32, 0), (.derive .slice 0 0, 1)]
    (typeDerive .slice 0 0 (typePrimitive .i32 TypeTable.empty).2).2 (.derive .slice 0 0) := by
  have hprimitive : Reaches Undisturbed [(.primitive .i32, 0)]
      (typePrimitive .i32 TypeTable.empty).2 :=
    .call (c := .primitive .i32) .start trivial trivial rfl
  refine Reaches.lawful (.call (c := .derive .slice 0 0) hprimitive ?_ ?_ rfl) ?_ ?_
  · exact ⟨.inr (.inr rfl), by decide⟩
  · unfold Undisturbed
    decide
  · exact ⟨.inr (.inr rfl), by decide⟩
  · unfold Undisturbed
    decide

/-- After `const Slice<int>` the type `Slice<int>` is `const`. -/
theorem not_forall_lawful : ¬∀ history s c, Reaches (fun _ _ ↦ True) history s → c.Valid s →
    Lawful history s c := by
  intro hall
  have hslice : ∀ {s : TypeTable}, 0 < s.entries.length → (TypeCall.derive .slice 0 0).Valid s :=
    fun h ↦ ⟨.inr (.inr rfl), h⟩
  have hprimitive : Reaches (fun _ _ ↦ True) [(.primitive .i32, 0)] _ :=
    .call (c := .primitive .i32) .start trivial trivial rfl
  have hderive : Reaches (fun _ _ ↦ True) [(.primitive .i32, 0), (.derive .slice 0 0, 1)] _ :=
    .call (c := .derive .slice 0 0) hprimitive (hslice (by decide)) trivial rfl
  have hconst : Reaches (fun _ _ ↦ True)
      [(.primitive .i32, 0), (.derive .slice 0 0, 1), (.const 1, 2)] _ :=
    .call (c := .const 1) hderive (by decide : 1 < 2) trivial rfl
  obtain ⟨p, s', hexec, ⟨e, he, hplain, -⟩, -⟩ :=
    hall _ _ (.derive .slice 0 0) hconst (hslice (by decide))
  cases hexec
  cases he
  cases hplain

end TypeCall

end TinyCPlus.Compiler
