import TinyCPlus.Compiler.TypeInterning

/-!
# Making an entry

One step of the reading: the entry of a type out of the entries of its parts.  A table without a
wrong entry grows by at most the new type, unless the new type is a function type whose parameters
a class `Function` has for its items.
-/

namespace TinyCPlus.Compiler

open TypeTable TypeEntry

namespace TypeExpr

open intern (internAll)

/-- The entry of a type out of the entries of its parts. -/
def make : TypeExpr → List ℕ → TypeM ℕ
  | .named name, _ => modifyGet (typeNamed name)
  | .generic name _, ps => typeGeneric name ps
  | .function closure _ _, p :: ps => typeFunction closure ps p
  | .tuple _, ps => typeTuple ps
  | .slice _, [p] => modifyGet (typeDerive .slice p 0)
  | .const _, [p] => typeConst p
  | .pointer _, [p] => modifyGet (typeDerive .pointer p 0)
  | .array _ count, [p] => modifyGet (typeDerive .array p count)
  | _, _ => failure

/-- A type gets its entry after its parts. -/
theorem intern_eq (t : TypeExpr) : t.intern = internAll t.parts >>= t.make := by
  cases t with
  | generic name items => rfl
  | tuple items => rfl
  | _ => simp [intern, parts, make, internAll]

end TypeExpr

/-! ## Searching -/

section

variable {s : TypeTable} {p : ℕ}

theorem mem_newest {q : ℕ} {e : TypeEntry} : (q, e) ∈ s.newest ↔ s.entries[q]? = some e := by
  simp only [newest, List.mem_reverse, List.mem_map, List.mem_zipIdx_iff_getElem?]
  constructor
  · rintro ⟨⟨e', q'⟩, h, heq⟩
    cases heq
    exact h
  · exact fun h ↦ ⟨(e, q), h, rfl⟩

theorem firstMatch_some {test : TypeEntry → Option Bool} {l : List (ℕ × TypeEntry)}
    (h : firstMatch test l = some (some p)) : ∃ e, (p, e) ∈ l ∧ test e = some true := by
  induction l with
  | nil => cases h
  | cons x rest ih =>
      obtain ⟨q, e⟩ := x
      rw [firstMatch] at h
      cases htest : test e with
      | none => simp [htest] at h
      | some b =>
          cases b
          · obtain ⟨e', hmem, he'⟩ := ih (by simpa [htest] using h)
            exact ⟨e', List.mem_cons_of_mem _ hmem, he'⟩
          · obtain rfl : q = p := by simpa [htest] using h
            exact ⟨e, List.mem_cons_self, htest⟩

theorem firstMatch_none {test : TypeEntry → Option Bool} {l : List (ℕ × TypeEntry)}
    (h : firstMatch test l = some none) : ∀ x ∈ l, test x.2 = some false := by
  induction l with
  | nil => simp
  | cons x rest ih =>
      rw [firstMatch] at h
      cases htest : test x.2 with
      | none => simp [htest] at h
      | some b =>
          cases b
          · exact List.forall_mem_cons.mpr ⟨htest, ih (by simpa [htest] using h)⟩
          · simp [htest] at h

theorem firstMatch_isSome {test : TypeEntry → Option Bool} {l : List (ℕ × TypeEntry)}
    (h : ∀ x ∈ l, (test x.2).isSome = true) : (firstMatch test l).isSome = true := by
  induction l with
  | nil => rfl
  | cons x rest ih =>
      obtain ⟨hx, hrest⟩ := List.forall_mem_cons.mp h
      obtain ⟨b, hb⟩ := Option.isSome_iff_exists.mp hx
      rw [firstMatch, hb]
      cases b
      · exact ih hrest
      · rfl

theorem find_some {test : TypeEntry → Bool} (h : s.find test = some p) :
    ∃ e, s.entries[p]? = some e ∧ test e = true := by
  obtain ⟨x, hx, rfl⟩ := Option.map_eq_some_iff.mp h
  have htest := List.find?_some hx
  exact ⟨x.2, mem_newest.mp (List.mem_of_find?_eq_some hx), htest⟩

theorem find_none {test : TypeEntry → Bool} (h : s.find test = none) {e : TypeEntry}
    (he : s.entries[p]? = some e) : test e = false := by
  have hnone := List.find?_eq_none.mp (Option.map_eq_none_iff.mp h) (p, e) (mem_newest.mpr he)
  simpa using hnone

theorem typeEqual_self (a : ℕ) : s.typeEqual a a = some true := by
  simp [typeEqual, equalFuel]

theorem forall₂_typeEqual_self (ps : List ℕ) :
    List.Forall₂ (fun q q' ↦ s.typeEqual q q' = some true) ps ps :=
  List.forall₂_same.mpr fun q _ ↦ typeEqual_self q

end

/-! ## What each function gives -/

section

variable {s s' : TypeTable} {p : ℕ}

theorem add_evolves {e : TypeEntry} : Evolves s (s.add e).2 := .of_initial (List.prefix_append _ _)

/-- The entry of a generic type is found by its name and its items, or it is new. -/
theorem typeGeneric_cases {name : List Char} {ps : List ℕ}
    (h : typeGeneric name ps s = some (p, s')) :
    (s' = s ∧ ∃ e, s.entries[p]? = some e ∧ e.kind = .named ∧ e.items ≠ [] ∧ e.name = name ∧
      itemsEqual s.typeEqual e.items ps = some true) ∨
    ((p, s') = s.add { blank .named name with items := ps } ∧ ∀ (q : ℕ) (e : TypeEntry),
      s.entries[q]? = some e → e.kind = .named → e.items ≠ [] → e.name = name →
        itemsEqual s.typeEqual e.items ps = some false) := by
  unfold typeGeneric at h
  obtain ⟨r, hr, h⟩ := Option.bind_eq_some_iff.mp h
  cases r with
  | some q =>
      obtain ⟨rfl, rfl⟩ := by simpa using h
      obtain ⟨e, he, htest⟩ := firstMatch_some hr
      split at htest
      · cases htest
      · rename_i hhead
        push Not at hhead
        exact .inl ⟨rfl, e, mem_newest.mp he, hhead.1, hhead.2.1, hhead.2.2, htest⟩
  | none =>
      refine .inr ⟨(Option.some.inj h).symm, fun q e he hkind hitems hname ↦ ?_⟩
      have htest := firstMatch_none hr (q, e) (mem_newest.mpr he)
      rwa [if_neg (by simp [hkind, hitems, hname])] at htest

theorem typeTuple_cases {ps : List ℕ} (h : typeTuple ps s = some (p, s')) :
    (s' = s ∧ ∃ e, s.entries[p]? = some e ∧
      entryEqual s.typeEqual e ⟨.tuple, [], none, ps, 0, false, 0⟩ = some true) ∨
    (∃ name, (p, s') = s.add ⟨.tuple, name, none, ps, 0, false, 0⟩) ∧
      ∀ (q : ℕ) (e : TypeEntry), s.entries[q]? = some e →
        entryEqual s.typeEqual e ⟨.tuple, [], none, ps, 0, false, 0⟩ = some false := by
  unfold typeTuple at h
  obtain ⟨r, hr, h⟩ := Option.bind_eq_some_iff.mp h
  cases r with
  | some q =>
      obtain ⟨rfl, rfl⟩ := by simpa using h
      obtain ⟨e, he, htest⟩ := firstMatch_some hr
      exact .inl ⟨rfl, e, mem_newest.mp he, htest⟩
  | none =>
      refine .inr ⟨⟨_, (Option.some.inj h).symm⟩, fun q e he ↦ ?_⟩
      exact firstMatch_none hr (q, e) (mem_newest.mpr he)

theorem typeDerive_cases (kind : TypeKind) (base count : ℕ) (s : TypeTable) :
    ((typeDerive kind base count s).2 = s ∧ ∃ e,
      s.entries[(typeDerive kind base count s).1]? = some e ∧ e.kind = kind ∧
        e.base = some base ∧ e.count = count) ∨
    (∃ name, typeDerive kind base count s = s.add ⟨kind, name, some base, [], count, false, 0⟩) ∧
      ∀ (q : ℕ) (e : TypeEntry), s.entries[q]? = some e →
        ¬(e.kind = kind ∧ e.base = some base ∧ e.count = count) := by
  unfold typeDerive
  cases hfind : s.find fun t ↦ t.kind = kind && t.base = some base && t.count = count with
  | some q =>
      obtain ⟨e, he, htest⟩ := find_some hfind
      simp only [Bool.and_eq_true, decide_eq_true_eq, and_assoc] at htest
      exact .inl ⟨rfl, e, he, htest⟩
  | none =>
      refine .inr ⟨⟨_, rfl⟩, fun q e he ↦ ?_⟩
      simpa [and_assoc] using find_none hfind he

theorem typePrimitive_evolves (k : Primitive) : Evolves s (typePrimitive k s).2 := by
  unfold typePrimitive
  cases s.builtin k with
  | some p => exact .refl s
  | none => exact .of_initial (List.prefix_append _ _)

theorem typeSize_evolves : Evolves s (typeSize s).2 := by
  unfold typeSize
  split
  · exact .refl s
  · exact (typePrimitive_evolves .u64).trans (.of_initial (List.prefix_append _ _))

theorem typeNamed_evolves (name : List Char) : Evolves s (typeNamed name s).2 := by
  unfold typeNamed
  split
  · exact typePrimitive_evolves _
  · split
    · exact typeSize_evolves
    · split
      · exact typePrimitive_evolves _
      · split
        · exact typePrimitive_evolves _
        · split
          · exact .refl s
          · exact add_evolves

end

/-- The function type that is made out of an entry. -/
def TypeEntry.toFunction (closure : Bool) (result : ℕ) (e : TypeEntry) : TypeEntry :=
  { e with kind := if closure then .closure else .func, base := some result }

theorem TypeEntry.isFunction_toFunction (closure : Bool) (result : ℕ) (e : TypeEntry) :
    (e.toFunction closure result).IsFunction := by
  cases closure
  · exact .inl rfl
  · exact .inr rfl

/-! ## Making keeps what is wrong -/

/-- The entry is of this type's form, over entries that equal the given ones. -/
def Made (s s' : TypeTable) (t : TypeExpr) (ps : List ℕ) (p : ℕ) : Prop :=
  Evolves s s' ∧ ∃ e, s'.entries[p]? = some e ∧ e.Forms t ∧
    List.Forall₂ (fun q q' ↦ s.typeEqual q q' = some true) e.pointers ps

section

variable {s s' : TypeTable} {p : ℕ} {ps : List ℕ}

theorem getElem?_add (e : TypeEntry) :
    (s.add e).2.entries[(s.add e).1]? = some { e with id := s.nextId + 1 } := by
  simp [add]

theorem typeGeneric_made {name : List Char} {xs : List TypeExpr} (hps : ps ≠ [])
    (h : typeGeneric name ps s = some (p, s')) : Made s s' (.generic name xs) ps p := by
  rcases typeGeneric_cases h with ⟨rfl, e, he, hkind, hitems, hname, hequal⟩ | ⟨hadd, -⟩
  · refine ⟨.refl _, e, he, ⟨hkind, hitems, hname⟩, ?_⟩
    simp only [pointers, hkind]
    exact itemsEqual_eq_true.mp hequal
  · obtain ⟨rfl, rfl⟩ := Prod.ext_iff.mp hadd
    exact ⟨add_evolves, _, getElem?_add _, ⟨rfl, hps, rfl⟩, forall₂_typeEqual_self ps⟩

theorem typeTuple_made {xs : List TypeExpr} (h : typeTuple ps s = some (p, s')) :
    Made s s' (.tuple xs) ps p := by
  rcases typeTuple_cases h with ⟨rfl, e, he, hequal⟩ | ⟨⟨name, hadd⟩, -⟩
  · obtain ⟨-, -, hform, hpointers⟩ := entryEqual_eq_true hequal
    exact ⟨.refl _, e, he, hform (.tuple xs) ⟨rfl, rfl⟩, hpointers⟩
  · obtain ⟨rfl, rfl⟩ := Prod.ext_iff.mp hadd
    exact ⟨add_evolves, _, getElem?_add _, ⟨rfl, rfl⟩, forall₂_typeEqual_self ps⟩

theorem typeDerive_made (t : TypeExpr) (kind : TypeKind) (count : ℕ)
    (hkind : kind = .pointer ∨ kind = .array ∨ kind = .slice)
    (hform : ∀ e : TypeEntry, e.kind = kind → e.count = count → e.Forms t) (q : ℕ) :
    Made s (typeDerive kind q count s).2 t [q] (typeDerive kind q count s).1 := by
  have hpointers : ∀ e : TypeEntry, e.kind = kind → e.base = some q → e.pointers = [q] := by
    intro e he hbase
    unfold pointers
    rw [he]
    rcases hkind with rfl | rfl | rfl <;> rw [hbase] <;> rfl
  rcases typeDerive_cases kind q count s with ⟨hs, e, he, hk, hbase, hcount⟩ | ⟨⟨name, hadd⟩, -⟩
  · rw [Made, hs]
    refine ⟨.refl s, e, he, hform e hk hcount, ?_⟩
    rw [hpointers e hk hbase]
    exact forall₂_typeEqual_self _
  · rw [hadd]
    refine ⟨add_evolves, _, getElem?_add _, hform _ rfl rfl, ?_⟩
    rw [hpointers _ rfl rfl]
    exact forall₂_typeEqual_self _

/-- The entry that `typeFunction` changes. -/
theorem typeFunction_cases {closure : Bool} {result : ℕ}
    (h : typeFunction closure ps result s = some (p, s')) :
    ∃ s₁ e, typeGeneric "Function".toList ps s = some (p, s₁) ∧ s₁.entries[p]? = some e ∧
      s' = { s₁ with entries := s₁.entries.set p (e.toFunction closure result) } := by
  unfold typeFunction at h
  obtain ⟨⟨q, s₁⟩, hgeneric, h⟩ := Option.bind_eq_some_iff.mp h
  obtain ⟨rfl, rfl⟩ := by simpa using h
  have hentry : ∃ e, s₁.entries[q]? = some e := by
    rcases typeGeneric_cases hgeneric with ⟨rfl, e, he, -⟩ | ⟨hadd, -⟩
    · exact ⟨e, he⟩
    · obtain ⟨rfl, rfl⟩ := Prod.ext_iff.mp hadd
      exact ⟨_, getElem?_add _⟩
  obtain ⟨e, he⟩ := hentry
  refine ⟨s₁, e, hgeneric, he, ?_⟩
  rw [List.modify_eq_set_getElem?, he]
  rfl

theorem typeFunction_made {closure : Bool} {result : ℕ} {xs : List TypeExpr} {t : TypeExpr}
    (h : typeFunction closure ps result s = some (p, s')) :
    Made s s' (.function closure xs t) (result :: ps) p := by
  obtain ⟨s₁, e, hgeneric, he, rfl⟩ := typeFunction_cases h
  have hlt := (List.getElem?_eq_some_iff.mp he).1
  have hfound : List.Forall₂ (fun q q' ↦ s.typeEqual q q' = some true) e.items ps ∧
      Evolves s s₁ ∧ (∀ x, s.entries[p]? = some x → x.IsGenericFunction) := by
    rcases typeGeneric_cases hgeneric with ⟨rfl, e', he', hkind, hne, hname, hequal⟩ | ⟨hadd, -⟩
    · obtain rfl := Option.some.inj (he.symm.trans he')
      refine ⟨itemsEqual_eq_true.mp hequal, .refl _, fun x hx ↦ ?_⟩
      obtain rfl := Option.some.inj (he.symm.trans hx)
      exact ⟨hkind, hne, hname⟩
    · obtain ⟨rfl, rfl⟩ := Prod.ext_iff.mp hadd
      obtain rfl := Option.some.inj (he.symm.trans (getElem?_add _))
      refine ⟨forall₂_typeEqual_self ps, add_evolves, fun x hold ↦ ?_⟩
      simp [add] at hold
  obtain ⟨hitems, hevolves, hold⟩ := hfound
  refine ⟨fun q x hx ↦ ?_, _, List.getElem?_set_self hlt, ⟨rfl, rfl⟩, ?_⟩
  · by_cases hqp : p = q
    · subst hqp
      exact ⟨_, List.getElem?_set_self hlt, .inr ⟨hold x hx, isFunction_toFunction closure result e⟩⟩
    · obtain ⟨x', hx', hchange⟩ := hevolves q x hx
      exact ⟨x', by rw [List.getElem?_set_ne hqp, hx'], hchange⟩
  · cases closure <;> exact .cons (typeEqual_self _) hitems

variable {t u : TypeExpr}

theorem make_made (hformed : t.Formed) (hparts : t.parts ≠ []) (hps : ps.length = t.parts.length)
    (h : t.make ps s = some (p, s')) : Made s s' t ps p := by
  have hderive : ∀ {kind : TypeKind} {count q : ℕ},
      (modifyGet (typeDerive kind q count) : TypeM ℕ) s = some (p, s') →
        typeDerive kind q count s = (p, s') := fun h ↦ Option.some.inj h
  cases t with
  | named name => exact absurd rfl hparts
  | generic name items =>
      refine typeGeneric_made ?_ h
      rintro rfl
      exact hparts (List.length_eq_zero_iff.mp hps.symm)
  | function closure params result =>
      rcases ps with _ | ⟨q, ps⟩
      · cases h
      · exact typeFunction_made h
  | tuple items => exact typeTuple_made h
  | slice t =>
      obtain ⟨q, rfl⟩ := List.length_eq_one_iff.mp hps
      have hmade := typeDerive_made (s := s) (.slice t) .slice 0
        (.inr (.inr rfl)) (fun _ hk hc ↦ ⟨hk, hc⟩) q
      rwa [hderive h] at hmade
  | const t => exact hformed.elim
  | pointer t =>
      obtain ⟨q, rfl⟩ := List.length_eq_one_iff.mp hps
      have hmade := typeDerive_made (s := s) (.pointer t) .pointer 0
        (.inl rfl) (fun _ hk hc ↦ ⟨hk, hc⟩) q
      rwa [hderive h] at hmade
  | array t count =>
      obtain ⟨q, rfl⟩ := List.length_eq_one_iff.mp hps
      have hmade := typeDerive_made (s := s) (.array t count) .array count
        (.inr (.inl rfl)) (fun _ hk hc ↦ ⟨hk, hc⟩) q
      rwa [hderive h] at hmade

theorem make_evolves (hformed : t.Formed) (hps : ps.length = t.parts.length)
    (h : t.make ps s = some (p, s')) : Evolves s s' := by
  by_cases hparts : t.parts = []
  · cases t with
    | named name =>
        obtain rfl : (typeNamed name s).2 = s' := congrArg Prod.snd (Option.some.inj h)
        exact typeNamed_evolves name
    | generic name items => exact absurd hparts hformed.2.2
    | tuple items => exact absurd hparts hformed
    | _ => simp [TypeExpr.parts] at hparts
  · exact (make_made hformed hparts hps h).1

/-- What is wrong in a part is wrong in the whole. -/
theorem make_wrong {i q : ℕ} (hformed : t.Formed) (hps : ps.length = t.parts.length)
    (h : t.make ps s = some (p, s')) (hu : t.parts[i]? = some u) (hq : ps[i]? = some q)
    (hwrong : Wrong s u q) : Wrong s' t p := by
  have hparts : t.parts ≠ [] := by
    intro hnil
    rw [hnil] at hu
    cases hu
  obtain ⟨hevolves, e, he, hform, hpointers⟩ := make_made hformed hparts hps h
  obtain ⟨hi, rfl⟩ := List.getElem?_eq_some_iff.mp hq
  have hi' : i < e.pointers.length := hpointers.length_eq ▸ hi
  have hequal : s.typeEqual e.pointers[i] ps[i] = some true := hpointers.get hi' hi
  have hpart : Wrong s u e.pointers[i] := .of_equal hequal hwrong
  exact .part he hform hu (List.getElem?_eq_getElem hi') (hpart.evolves hevolves)

end

/-! ## Growing tables -/

/-- The clean table has grown; its new classes `Function` are among the given types. -/
structure Grows (s s' : TypeTable) (us : List TypeExpr) : Prop where
  older : s.entries <+: s'.entries
  clean : Clean s'
  generics : ∀ {q : ℕ} {e : TypeEntry}, s.entries.length ≤ q → s'.entries[q]? = some e →
    e.IsGenericFunction →
      ∃ xs, .generic "Function".toList xs ∈ us ∧ List.Forall₂ (Shows s') xs e.pointers

section

variable {s s' s'' : TypeTable} {us vs : List TypeExpr}

theorem Grows.refl (h : Clean s) (us : List TypeExpr) : Grows s s us where
  older := List.prefix_refl _
  clean := h
  generics hq he := by
    rw [List.getElem?_eq_none hq] at he
    cases he

theorem Grows.trans (h : Grows s s' us) (h' : Grows s' s'' vs) : Grows s s'' (us ++ vs) where
  older := h.older.trans h'.older
  clean := h'.clean
  generics {q e} hq he hgeneric := by
    by_cases hlt : q < s'.entries.length
    · obtain ⟨es, hes⟩ := h'.older
      rw [← hes, List.getElem?_append_left hlt] at he
      obtain ⟨xs, hxs, hshows⟩ := h.generics hq he hgeneric
      exact ⟨xs, List.mem_append_left _ hxs, hshows.imp fun _ _ ↦ Shows.mono ⟨es, hes⟩⟩
    · obtain ⟨xs, hxs, hshows⟩ := h'.generics (not_lt.mp hlt) he hgeneric
      exact ⟨xs, List.mem_append_right _ hxs, hshows⟩

theorem Grows.mono (h : Grows s s' us) (hsub : us ⊆ vs) : Grows s s' vs where
  older := h.older
  clean := h.clean
  generics hq he hgeneric := by
    obtain ⟨xs, hxs, hshows⟩ := h.generics hq he hgeneric
    exact ⟨xs, hsub hxs, hshows⟩

theorem getElem?_append_singleton {es : List TypeEntry} {e y : TypeEntry} {q : ℕ} :
    (es ++ [e])[q]? = some y ↔ es[q]? = some y ∨ q = es.length ∧ y = e := by
  rcases lt_trichotomy q es.length with hq | rfl | hq
  · simp [List.getElem?_append_left hq, hq.ne]
  · simp [eq_comm]
  · simp only [List.getElem?_append_right hq.le, List.getElem?_eq_none hq.le, reduceCtorEq,
      hq.ne', false_and, or_self, iff_false]
    rw [List.getElem?_eq_none (by simp; omega)]
    simp

/-- A clean table with one more entry. -/
theorem Grows.of_append {e : TypeEntry} (h : Clean s) (hs : s'.entries = s.entries ++ [e])
    (hbelow : ∀ q ∈ e.pointers, q < s.entries.length)
    (hplain : e.qualified = false ∧ e.kind ≠ .enum ∧ (e.kind = .tuple → e.base = none))
    (hbuiltin : ∀ {k : Primitive} {p : ℕ}, s'.builtin k = some p →
      s.builtin k = some p ∨ p = s.entries.length ∧ e.kind = .primitive k)
    (hdistinct : e.kind = .named → e.items ≠ [] → ∀ {q : ℕ} {y : TypeEntry},
      s.entries[q]? = some y → y.kind = .named → y.name = e.name →
        ∀ ts, List.Forall₂ (Shows s) ts y.items → ¬List.Forall₂ (Shows s) ts e.items)
    (hgeneric : e.IsGenericFunction →
      ∃ xs, .generic "Function".toList xs ∈ us ∧ List.Forall₂ (Shows s) xs e.pointers) :
    Grows s s' us := by
  have hold : s.entries <+: s'.entries := ⟨[e], hs.symm⟩
  have hcases : ∀ {q : ℕ} {y : TypeEntry}, s'.entries[q]? = some y →
      s.entries[q]? = some y ∨ q = s.entries.length ∧ y = e := by
    intro q y hy
    rw [hs] at hy
    exact getElem?_append_singleton.mp hy
  -- what is shown by the items of a named entry is shown without the new entry too
  have hitems : ∀ {q : ℕ} {y : TypeEntry}, s'.entries[q]? = some y → y.kind = .named →
      ∀ ts, List.Forall₂ (Shows s') ts y.items → List.Forall₂ (Shows s) ts y.items := by
    intro q y hy hkind ts hts
    have hpointers : y.pointers = y.items := by simp only [pointers, hkind]
    refine forall₂_of_mem hts fun t _ r hr hshows ↦ hshows.old h hold ?_
    rw [← hpointers] at hr
    rcases hcases hy with hy | ⟨rfl, rfl⟩
    · exact h.acyclic.pointers_lt hy r hr
    · exact hbelow r hr
  refine ⟨hold, ⟨?_, ?_, ?_, ?_⟩, ?_⟩
  · intro q y hy r hr
    rcases hcases hy with hy | ⟨rfl, rfl⟩
    · exact h.below hy r hr
    · exact hbelow r hr
  · intro y hy
    rw [hs, List.mem_append, List.mem_singleton] at hy
    rcases hy with hy | rfl
    · exact h.plain y hy
    · exact hplain
  · intro k q hk
    rw [hs]
    rcases hbuiltin hk with hk | ⟨rfl, hkind⟩
    · obtain ⟨y, hy, hkind⟩ := h.builtin hk
      exact ⟨y, getElem?_append_singleton.mpr (.inl hy), hkind⟩
    · exact ⟨e, getElem?_append_singleton.mpr (.inr ⟨rfl, rfl⟩), hkind⟩
  · intro q r x y hx hy hxkind hykind hne hname ts htx hty
    have hyne : y.items ≠ [] := by
      rw [← List.length_pos_iff, ← hty.length_eq, htx.length_eq]
      exact List.length_pos_iff.mpr hne
    have hsx := hitems hx hxkind ts htx
    have hsy := hitems hy hykind ts hty
    rcases hcases hx with hx | ⟨rfl, rfl⟩
    · rcases hcases hy with hy | ⟨rfl, rfl⟩
      · exact h.distinct hx hy hxkind hykind hne hname ts hsx hsy
      · exact absurd hsy (hdistinct hykind hyne hx hxkind hname ts hsx)
    · rcases hcases hy with hy | ⟨rfl, rfl⟩
      · exact absurd hsx (hdistinct hxkind hne hy hykind hname.symm ts hsy)
      · rfl
  · intro q y hq hy hfunction
    rcases hcases hy with hy | ⟨rfl, rfl⟩
    · rw [List.getElem?_eq_none hq] at hy
      cases hy
    · obtain ⟨xs, hxs, hshows⟩ := hgeneric hfunction
      exact ⟨xs, hxs, hshows.imp fun _ _ ↦ Shows.mono hold⟩

/-- An entry that is no generic type takes the place of no other. -/
theorem Grows.of_append_plain {e : TypeEntry} (h : Clean s)
    (hs : s'.entries = s.entries ++ [e]) (hbelow : ∀ q ∈ e.pointers, q < s.entries.length)
    (hplain : e.qualified = false ∧ e.kind ≠ .enum ∧ (e.kind = .tuple → e.base = none))
    (hbuiltin : ∀ {k : Primitive} {p : ℕ}, s'.builtin k = some p →
      s.builtin k = some p ∨ p = s.entries.length ∧ e.kind = .primitive k)
    (hgeneric : e.kind = .named → e.items = []) : Grows s s' us := by
  refine .of_append h hs hbelow hplain hbuiltin ?_ ?_
  · exact fun hkind hne ↦ absurd (hgeneric hkind) hne
  · exact fun hfunction ↦ absurd (hgeneric hfunction.1) hfunction.2.1

theorem add_grows {e : TypeEntry} (h : Clean s)
    (hbelow : ∀ q ∈ e.pointers, q < s.entries.length)
    (hplain : e.qualified = false ∧ e.kind ≠ .enum ∧ (e.kind = .tuple → e.base = none))
    (hgeneric : e.kind = .named → e.items = []) : Grows s (s.add e).2 us :=
  .of_append_plain (e := { e with id := s.nextId + 1 }) h rfl hbelow hplain .inl hgeneric

theorem typePrimitive_grows (us : List TypeExpr) (h : Clean s) (k : Primitive) :
    Grows s (typePrimitive k s).2 us ∧ ∃ e,
      (typePrimitive k s).2.entries[(typePrimitive k s).1]? = some e ∧
        e.kind = .primitive k := by
  unfold typePrimitive
  cases hk : s.builtin k with
  | some p => exact ⟨.refl h us, h.builtin hk⟩
  | none =>
      refine ⟨.of_append_plain h rfl (by simp [blank, pointers]) ?_ ?_ ?_, _, getElem?_add _, rfl⟩
      · simp [blank]
      · intro j p hj
        by_cases hjk : j = k
        · subst hjk
          simp only [Function.update_self, Option.some.injEq] at hj
          exact .inr ⟨hj.symm, rfl⟩
        · exact .inl ((Function.update_of_ne hjk _ _).symm.trans hj)
      · simp [blank]

theorem typeSize_grows (us : List TypeExpr) (h : Clean s) :
    Grows s (typeSize s).2 us ∧ ∃ e, (typeSize s).2.entries[(typeSize s).1]? = some e ∧
      e.kind = .primitive .u64 := by
  unfold typeSize
  cases hfind : s.find fun t ↦ t.kind = .primitive .u64 && t.name = "size_t".toList with
  | some p =>
      obtain ⟨e, he, htest⟩ := find_some hfind
      simp only [Bool.and_eq_true, decide_eq_true_eq] at htest
      exact ⟨.refl h us, e, he, htest.1⟩
  | none =>
      obtain ⟨hgrows, e, he, hkind⟩ := typePrimitive_grows [] h .u64
      generalize typePrimitive .u64 s = r at hgrows he
      obtain ⟨base, s₁⟩ := r
      have hplain := hgrows.clean.plain e (List.mem_of_getElem? he)
      have happend : Grows s₁ { s₁ with
          entries := s₁.entries ++ [{ e with name := "size_t".toList }] } us := by
        refine .of_append_plain hgrows.clean rfl ?_ hplain .inl ?_
        · intro q hq
          exact hgrows.clean.acyclic.pointers_lt he q hq
        · intro hnamed
          cases hkind.symm.trans hnamed
      simp only [List.getD_eq_getElem?_getD, he, Option.getD_some]
      exact ⟨hgrows.trans happend, _, List.getElem?_concat_length, hkind⟩

theorem typeNamed_grows (us : List TypeExpr) (h : Clean s) (name : List Char) :
    Grows s (typeNamed name s).2 us ∧ ∃ e,
      (typeNamed name s).2.entries[(typeNamed name s).1]? = some e ∧
        e.Forms (.named name) := by
  have hprimitive : ∀ k, primitiveNamed name = some k →
      Grows s (typePrimitive k s).2 us ∧ ∃ e,
        (typePrimitive k s).2.entries[(typePrimitive k s).1]? = some e ∧
          e.Forms (.named name) := by
    intro k hk
    obtain ⟨hgrows, e, he, hkind⟩ := typePrimitive_grows us h k
    refine ⟨hgrows, e, he, ?_⟩
    simp only [Forms, hk]
    exact hkind
  cases hname : lookup names name with
  | some k =>
      simp only [typeNamed, hname]
      exact hprimitive k (by simp [primitiveNamed, hname])
  | none =>
      by_cases hsize : name = "size_t".toList
      · obtain ⟨hgrows, e, he, hkind⟩ := typeSize_grows us h
        simp only [typeNamed, hname, if_pos hsize]
        refine ⟨hgrows, e, he, ?_⟩
        simp only [Forms, primitiveNamed, hname, if_pos hsize]
        exact hkind
      · cases halias : lookup aliases name with
        | some k =>
            simp only [typeNamed, hname, if_neg hsize, halias]
            refine hprimitive k ?_
            simp only [primitiveNamed, hname, if_neg hsize, halias]
        | none =>
            by_cases hvar : name = "var".toList
            · simp only [typeNamed, hname, if_neg hsize, halias, if_pos hvar]
              refine hprimitive .auto ?_
              simp only [primitiveNamed, hname, if_neg hsize, halias, if_pos hvar]
            · have hnone : primitiveNamed name = none := by
                simp only [primitiveNamed, hname, if_neg hsize, halias, if_neg hvar]
              simp only [typeNamed, hname, if_neg hsize, halias, if_neg hvar, Forms, hnone]
              cases hfind : s.find fun t ↦
                  (t.kind = .named || t.kind = .enum) && t.items = [] && t.name = name with
              | some p =>
                  obtain ⟨e, he, htest⟩ := find_some hfind
                  simp only [Bool.and_eq_true, Bool.or_eq_true, decide_eq_true_eq] at htest
                  have henum := (h.plain e (List.mem_of_getElem? he)).2.1
                  exact ⟨.refl h us, e, he, htest.1.1.resolve_right henum, htest.1.2, htest.2⟩
              | none =>
                  refine ⟨add_grows h (by simp [blank, pointers]) ?_ ?_, _, getElem?_add _, ?_⟩
                  · simp [blank]
                  · simp [blank]
                  · simp [blank]

theorem typeDerive_grows (h : Clean s) {kind : TypeKind} {q count : ℕ}
    (hkind : kind = .pointer ∨ kind = .array ∨ kind = .slice) (hq : q < s.entries.length) :
    Grows s (typeDerive kind q count s).2 us := by
  rcases typeDerive_cases kind q count s with ⟨hs, -⟩ | ⟨⟨name, hadd⟩, -⟩
  · rw [hs]
    exact .refl h us
  · rw [hadd]
    refine add_grows h ?_ ?_ ?_
    · rcases hkind with rfl | rfl | rfl <;> simpa [pointers] using hq
    · rcases hkind with rfl | rfl | rfl <;> simp
    · rcases hkind with rfl | rfl | rfl <;> simp

theorem typeTuple_isSome (h : Acyclic s) {ps : List ℕ} (hps : ∀ q ∈ ps, q < s.entries.length) :
    ∃ p s', typeTuple ps s = some (p, s') := by
  have hsearch : (firstMatch (fun t ↦ entryEqual s.typeEqual t
      ⟨.tuple, [], none, ps, 0, false, 0⟩) s.newest).isSome = true := by
    refine firstMatch_isSome fun x hx ↦ ?_
    have he := mem_newest.mp hx
    refine entryEqual_isSome (h.tuple x.2 (List.mem_of_getElem? he)) fun q hq r hr ↦ ?_
    exact h.typeEqual_isSome (h.pointers_lt he q hq) (hps r hr)
  obtain ⟨r, hr⟩ := Option.isSome_iff_exists.mp hsearch
  simp only [typeTuple, hr, Option.bind_eq_bind, Option.bind_some]
  cases r with
  | some q => exact ⟨q, s, rfl⟩
  | none => exact ⟨_, _, rfl⟩

theorem typeTuple_grows (h : Clean s) {ps : List ℕ} (hps : ∀ q ∈ ps, q < s.entries.length) :
    ∃ p s', typeTuple ps s = some (p, s') ∧ Grows s s' us := by
  obtain ⟨p, s', hs'⟩ := typeTuple_isSome h.acyclic hps
  refine ⟨p, s', hs', ?_⟩
  rcases typeTuple_cases hs' with ⟨rfl, -⟩ | ⟨⟨name, hadd⟩, -⟩
  · exact .refl h us
  · obtain ⟨rfl, rfl⟩ := Prod.ext_iff.mp hadd
    exact add_grows h hps (by simp) (by simp)

/-- An entry whose items equal the given ones shows the same items. -/
theorem Clean.shows_items (h : Clean s) {xs : List TypeExpr} {ps qs : List ℕ}
    (hps : List.Forall₂ (Shows s) xs ps) :
    itemsEqual s.typeEqual qs ps = some true ↔ List.Forall₂ (Shows s) xs qs := by
  rw [itemsEqual_eq_true]
  constructor
  · exact fun hequal ↦ forall₂_left hps hequal fun _ _ _ _ hqp hp ↦ hp.of_equal hqp
  · exact fun hqs ↦ forall₂_zip hqs hps fun _ _ _ _ _ hq hp ↦ h.typeEqual_of_shows hq hp

theorem typeGeneric_isSome (h : Acyclic s) {ps : List ℕ} (hps : ∀ q ∈ ps, q < s.entries.length)
    (name : List Char) : ∃ p s', typeGeneric name ps s = some (p, s') := by
  have hsearch : (firstMatch (fun t ↦
      if t.kind ≠ .named ∨ t.items = [] ∨ t.name ≠ name then some false
      else itemsEqual s.typeEqual t.items ps) s.newest).isSome = true := by
    refine firstMatch_isSome fun x hx ↦ ?_
    have he := mem_newest.mp hx
    split
    · rfl
    · rename_i hhead
      push Not at hhead
      have hpointers : x.2.pointers = x.2.items := by simp only [pointers, hhead.1]
      refine itemsEqual_isSome fun q hq r hr ↦ ?_
      exact h.typeEqual_isSome (h.pointers_lt he q (hpointers ▸ hq)) (hps r hr)
  obtain ⟨r, hr⟩ := Option.isSome_iff_exists.mp hsearch
  simp only [typeGeneric, hr, Option.bind_eq_bind, Option.bind_some]
  cases r with
  | some q => exact ⟨q, s, rfl⟩
  | none => exact ⟨_, _, rfl⟩

theorem lt_of_shows {xs : List TypeExpr} {ps : List ℕ} (h : List.Forall₂ (Shows s) xs ps) :
    ∀ q ∈ ps, q < s.entries.length := by
  intro q hq
  induction h with
  | nil => cases hq
  | cons hshows _ ih =>
      rcases List.mem_cons.mp hq with rfl | hq
      · exact hshows.lt
      · exact ih hq

theorem typeGeneric_grows (h : Clean s) {name : List Char} {xs : List TypeExpr} {ps : List ℕ}
    (hps : List.Forall₂ (Shows s) xs ps) :
    ∃ p s', typeGeneric name ps s = some (p, s') ∧ Grows s s' [.generic name xs] := by
  obtain ⟨p, s', hs'⟩ := typeGeneric_isSome h.acyclic (lt_of_shows hps) name
  refine ⟨p, s', hs', ?_⟩
  rcases typeGeneric_cases hs' with ⟨rfl, -⟩ | ⟨hadd, hothers⟩
  · exact .refl h _
  · obtain ⟨rfl, rfl⟩ := Prod.ext_iff.mp hadd
    refine .of_append (e := { blank .named name with items := ps, id := s.nextId + 1 }) h rfl
      (lt_of_shows hps) (by simp [blank]) .inl ?_ ?_
    · intro _ hne q y hy hkind hname ts hty htp
      have hequal := (h.shows_items htp).mpr hty
      have hyne : y.items ≠ [] := by
        rw [← List.length_pos_iff, ← hty.length_eq, htp.length_eq]
        exact List.length_pos_iff.mpr hne
      rw [hothers q y hy hkind hyne hname] at hequal
      cases hequal
    · rintro ⟨-, -, hname⟩
      obtain rfl : name = "Function".toList := hname
      exact ⟨xs, List.mem_singleton_self _, hps⟩

/-- No class `Function` has these items. -/
def Unclaimed (s : TypeTable) (xs : List TypeExpr) : Prop :=
  ∀ (q : ℕ) (e : TypeEntry), s.entries[q]? = some e → e.IsGenericFunction →
    ¬List.Forall₂ (Shows s) xs e.pointers

theorem pointers_of_isGenericFunction {e : TypeEntry} (h : e.IsGenericFunction) :
    e.pointers = e.items := by
  simp only [pointers, h.1]

theorem typeFunction_grows (h : Clean s) {closure : Bool} {xs : List TypeExpr} {ps : List ℕ}
    {result : ℕ} (hps : List.Forall₂ (Shows s) xs ps) (hresult : result < s.entries.length)
    (hfree : Unclaimed s xs) :
    ∃ p s', typeFunction closure ps result s = some (p, s') ∧ Grows s s' us := by
  obtain ⟨p, s₁, hs₁⟩ := typeGeneric_isSome h.acyclic (lt_of_shows hps) "Function".toList
  refine ⟨p, _, by rw [typeFunction, hs₁]; rfl, ?_⟩
  rcases typeGeneric_cases hs₁ with ⟨-, e, he, hkind, hne, hname, hequal⟩ | ⟨hadd, -⟩
  · refine absurd ((h.shows_items hps).mp hequal) ?_
    rw [← pointers_of_isGenericFunction ⟨hkind, hne, hname⟩]
    exact hfree p e he ⟨hkind, hne, hname⟩
  · obtain ⟨rfl, rfl⟩ := Prod.ext_iff.mp hadd
    refine .of_append_plain (e := TypeEntry.toFunction closure result
      { blank .named "Function".toList with items := ps, id := s.nextId + 1 }) h ?_ ?_ ?_ .inl ?_
    · simp only [add, List.modify_eq_set_getElem?, List.getElem?_concat_length]
      simp [TypeEntry.toFunction]
    · have hall : ∀ q ∈ result :: ps, q < s.entries.length :=
        List.forall_mem_cons.mpr ⟨hresult, lt_of_shows hps⟩
      cases closure <;> exact hall
    · cases closure <;> simp [blank, TypeEntry.toFunction]
    · cases closure <;> simp [TypeEntry.toFunction]

/-- The class `Function` with these items becomes the function type. -/
theorem typeFunction_changes (h : Clean s) {closure : Bool} {xs : List TypeExpr} {ps : List ℕ}
    {p q result : ℕ} (hps : List.Forall₂ (Shows s) xs ps)
    (hs' : typeFunction closure ps result s = some (p, s')) {e : TypeEntry}
    (he : s.entries[q]? = some e) (hgeneric : e.IsGenericFunction)
    (hshows : List.Forall₂ (Shows s) xs e.pointers) :
    p = q ∧ s'.entries[p]? = some (e.toFunction closure result) := by
  obtain ⟨s₁, e', hs₁, he', rfl⟩ := typeFunction_cases hs'
  have hlt := (List.getElem?_eq_some_iff.mp he').1
  obtain ⟨hkind, hne, hname⟩ := hgeneric
  rw [pointers_of_isGenericFunction ⟨hkind, hne, hname⟩] at hshows
  rcases typeGeneric_cases hs₁ with ⟨rfl, x, hx, hxkind, hxne, hxname, hequal⟩ | ⟨-, hothers⟩
  · have hxshows := (h.shows_items hps).mp hequal
    obtain rfl : p = q :=
      h.distinct hx he hxkind hkind hxne (hxname.trans hname.symm) xs hxshows hshows
    obtain rfl := Option.some.inj (he.symm.trans he')
    exact ⟨rfl, List.getElem?_set_self hlt⟩
  · have hequal := (h.shows_items hps).mpr hshows
    rw [hothers q e he hkind hne hname] at hequal
    cases hequal

/-- Making the entry of a type leaves a clean table that shows the type, unless a class `Function`
has the parameters of the function type. -/
theorem make_grows (h : Clean s) {t : TypeExpr} {ps : List ℕ} (hformed : t.Formed)
    (hps : List.Forall₂ (Shows s) t.parts ps)
    (hfree : ∀ {closure : Bool} {xs : List TypeExpr} {result : TypeExpr},
      t = .function closure xs result → Unclaimed s xs) :
    ∃ p s', t.make ps s = some (p, s') ∧ Grows s s' [t] ∧ Shows s' t p := by
  have hshows : ∀ {p : ℕ} {s' : TypeTable}, t.parts ≠ [] → t.make ps s = some (p, s') →
      Grows s s' [t] → Shows s' t p := by
    intro p s' hparts hmake hgrows
    obtain ⟨-, e, he, hform, hpointers⟩ := make_made hformed hparts hps.length_eq.symm hmake
    refine .intro he ⟨(hgrows.clean.plain e (List.mem_of_getElem? he)).1, hform⟩ ?_
    have hshows := forall₂_left hps hpointers fun _ _ _ _ hqp hp ↦ hp.of_equal hqp
    exact hshows.imp fun _ _ ↦ Shows.mono hgrows.older
  have hgrown : t.parts ≠ [] → (∃ p s', t.make ps s = some (p, s') ∧ Grows s s' [t]) →
      ∃ p s', t.make ps s = some (p, s') ∧ Grows s s' [t] ∧ Shows s' t p := by
    rintro hparts ⟨p, s', hmake, hgrows⟩
    exact ⟨p, s', hmake, hgrows, hshows hparts hmake hgrows⟩
  have hsingle : ∀ {u : TypeExpr}, List.Forall₂ (Shows s) [u] ps → ∃ q, ps = [q] ∧
      q < s.entries.length := by
    rintro u (_ | ⟨hu, ⟨⟩⟩)
    exact ⟨_, rfl, hu.lt⟩
  cases t with
  | named name =>
      obtain ⟨hgrows, e, he, hform⟩ := typeNamed_grows [.named name] h name
      have hplain := (hgrows.clean.plain e (List.mem_of_getElem? he)).1
      refine ⟨_, _, rfl, hgrows, .intro he ⟨hplain, hform⟩ ?_⟩
      have hpointers : e.pointers = [] := by
        simp only [Forms] at hform
        cases hname : primitiveNamed name with
        | some k =>
            simp only [hname] at hform
            simp only [pointers, hform]
        | none =>
            simp only [hname] at hform
            simp only [pointers, hform]
      rw [hpointers]
      exact .nil
  | generic name items => exact hgrown hformed.2.2 (typeGeneric_grows h hps)
  | function closure params result =>
      refine hgrown (List.cons_ne_nil _ _) ?_
      cases hps with
      | cons hresult hps => exact typeFunction_grows h hps hresult.lt (hfree rfl)
  | tuple items => exact hgrown hformed (typeTuple_grows h (lt_of_shows hps))
  | slice t =>
      obtain ⟨q, rfl, hq⟩ := hsingle hps
      exact hgrown (List.cons_ne_nil _ _)
        ⟨_, _, rfl, typeDerive_grows h (.inr (.inr rfl)) hq⟩
  | const t => exact hformed.elim
  | pointer t =>
      obtain ⟨q, rfl, hq⟩ := hsingle hps
      exact hgrown (List.cons_ne_nil _ _) ⟨_, _, rfl, typeDerive_grows h (.inl rfl) hq⟩
  | array t count =>
      obtain ⟨q, rfl, hq⟩ := hsingle hps
      exact hgrown (List.cons_ne_nil _ _)
        ⟨_, _, rfl, typeDerive_grows h (.inr (.inl rfl)) hq⟩

end

end TinyCPlus.Compiler
