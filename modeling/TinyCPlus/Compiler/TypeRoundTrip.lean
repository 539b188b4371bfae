import TinyCPlus.Compiler.TypeMaking
import TinyCPlus.Compiler.TypeParsing

/-!
# Types that are read in turn

A compilation reads its types one after the other into one table.  Every text gives its type as
long as no closing angle brackets run together behind a function type and no function type takes
the entry of a class `Function` that was read before.
-/

namespace TinyCPlus.Compiler

open TypeTable TypeEntry
open TypeExpr.intern (internAll)
open TypeExpr.completed (completedAll)

/-! ## Runs -/

namespace TypeExpr

/-- The second type leaves the entry of the first, which is complete before, as it is. -/
def Apart : TypeExpr → TypeExpr → Prop
  | .generic name xs, .function _ ys _ =>
      name = "Function".toList → xs.map resolved ≠ ys.map resolved
  | _, _ => True

theorem apart_iff {u v : TypeExpr} : u.Apart v ↔ ∀ {closure : Bool} {xs ys : List TypeExpr}
    {result : TypeExpr}, u = .generic "Function".toList xs → v = .function closure ys result →
      xs.map resolved ≠ ys.map resolved := by
  unfold Apart
  split
  · constructor
    · intro h closure xs ys result hu hv
      cases hu
      cases hv
      exact h rfl
    · rintro h rfl
      exact h rfl rfl
  · rename_i hother
    refine iff_of_true trivial fun hu hv ↦ ?_
    exact (hother _ _ _ _ _ hu hv).elim

end TypeExpr

/-- The types can be made one after the other without a change of an entry. -/
structure Free (s : TypeTable) (us : List TypeExpr) : Prop where
  unclaimed : ∀ {closure : Bool} {xs : List TypeExpr} {result : TypeExpr},
    .function closure xs result ∈ us → Unclaimed s xs
  apart : us.Pairwise TypeExpr.Apart

section

variable {s s' : TypeTable} {ts us vs : List TypeExpr} {ps : List ℕ} {t u : TypeExpr} {p : ℕ}

theorem internAll_cons {qs : List ℕ} : internAll (t :: ts) s = some (qs, s') ↔
    ∃ p ps s₁, t.intern s = some (p, s₁) ∧ internAll ts s₁ = some (ps, s') ∧ qs = p :: ps := by
  change ((t.intern s).bind fun r ↦ (internAll ts r.2).bind fun q ↦ some (r.1 :: q.1, q.2)) = _ ↔ _
  constructor
  · intro h
    obtain ⟨⟨p, s₁⟩, ht, h⟩ := Option.bind_eq_some_iff.mp h
    obtain ⟨⟨ps, s₂⟩, hts, h⟩ := Option.bind_eq_some_iff.mp h
    cases h
    exact ⟨p, ps, s₁, ht, hts, rfl⟩
  · rintro ⟨p, ps, s₁, ht, hts, rfl⟩
    rw [ht, Option.bind_some, hts, Option.bind_some]

theorem intern_eq_some : t.intern s = some (p, s') ↔
    ∃ ps s₁, internAll t.parts s = some (ps, s₁) ∧ t.make ps s₁ = some (p, s') := by
  rw [TypeExpr.intern_eq]
  change (internAll t.parts s).bind (fun r ↦ t.make r.1 r.2) = _ ↔ _
  rw [Option.bind_eq_some_iff]
  exact ⟨fun ⟨r, hr, h⟩ ↦ ⟨r.1, r.2, hr, h⟩, fun ⟨ps, s₁, hr, h⟩ ↦ ⟨(ps, s₁), hr, h⟩⟩

theorem length_of_internAll (h : internAll ts s = some (ps, s')) : ps.length = ts.length := by
  induction ts generalizing s ps with
  | nil =>
      cases h
      rfl
  | cons t ts ih =>
      obtain ⟨p, qs, s₁, -, hts, rfl⟩ := internAll_cons.mp h
      rw [List.length_cons, List.length_cons, ih hts]

/-- What is in a type that the table shows has an entry of its own. -/
theorem Shows.completed (h : Shows s t p) (hu : u ∈ t.completed) : ∃ q, Shows s u q := by
  induction t using TypeExpr.parts_induction generalizing p with
  | _ t ih =>
      rcases TypeExpr.mem_completed.mp hu with rfl | ⟨v, hv, hu⟩
      · exact ⟨p, h⟩
      · obtain ⟨he, hform, hparts⟩ := h
        obtain ⟨i, hi, rfl⟩ := List.mem_iff_getElem.mp hv
        exact ih _ hv (hparts.get hi (hparts.length_eq ▸ hi)) hu

/-- When the entry of a class `Function` changes, all types with this class in them are wrong. -/
theorem Shows.wrong_of_changed (hclean : Clean s) (h : Shows s t p) {xs : List TypeExpr} {q : ℕ}
    {e e' : TypeEntry} (hxs : .generic "Function".toList xs ∈ t.completed)
    (he : s.entries[q]? = some e) (hgeneric : e.IsGenericFunction)
    (hshows : List.Forall₂ (Shows s) xs e.pointers) (hevolves : Evolves s s')
    (he' : s'.entries[q]? = some e') (hfunction : e'.IsFunction) : Wrong s' t p := by
  induction t using TypeExpr.parts_induction generalizing p with
  | _ t ih =>
      obtain ⟨hx, hform, hparts⟩ := h
      rcases TypeExpr.mem_completed.mp hxs with rfl | ⟨v, hv, hxs⟩
      · obtain ⟨-, hkind, hne, hname⟩ := hform
        rw [pointers_of_isGenericFunction ⟨hkind, hne, hname⟩] at hparts
        rw [pointers_of_isGenericFunction hgeneric] at hshows
        obtain rfl := hclean.distinct hx he hkind hgeneric.1 hne
          (hname.trans hgeneric.2.2.symm) xs hparts hshows
        exact .changed he' hfunction
      · obtain ⟨i, hi, rfl⟩ := List.mem_iff_getElem.mp hv
        have hi' := hparts.length_eq ▸ hi
        have hwrong := ih _ hv (hparts.get hi hi') hxs
        obtain ⟨x', hx', rfl | ⟨hold, hnew⟩⟩ := hevolves _ _ hx
        · exact .part hx' hform.2 (List.getElem?_eq_getElem hi) (List.getElem?_eq_getElem hi')
            hwrong
        · obtain ⟨name, items, rfl⟩ := hform.2.generic hold (List.ne_nil_of_mem hv)
          exact .changed hx' hnew

theorem Free.append (hclean : Clean s) (hgrows : Grows s s' us)
    (hshown : ∀ u ∈ us, ∃ q, Shows s' u q) :
    Free s (us ++ vs) ↔ Free s us ∧ Free s' vs := by
  constructor
  · rintro ⟨hunclaimed, hapart⟩
    obtain ⟨hus, hvs, hacross⟩ := List.pairwise_append.mp hapart
    refine ⟨⟨fun h ↦ hunclaimed (List.mem_append_left _ h), hus⟩, fun {closure xs result} h ↦ ?_,
      hvs⟩
    intro q e he hgeneric hshows
    by_cases hq : q < s.entries.length
    · obtain ⟨es, hes⟩ := hgrows.older
      rw [← hes, List.getElem?_append_left hq] at he
      refine hunclaimed (List.mem_append_right _ h) q e he hgeneric ?_
      exact forall₂_of_mem hshows fun _ _ r hr hr' ↦
        hr'.old hclean ⟨es, hes⟩ (hclean.acyclic.pointers_lt he r hr)
    · obtain ⟨ys, hys, hyshows⟩ := hgrows.generics (not_lt.mp hq) he hgeneric
      exact hacross _ hys _ h rfl ((forall₂_resolved hyshows).mpr hshows)
  · rintro ⟨⟨hunclaimed, hus⟩, ⟨hunclaimed', hvs⟩⟩
    refine ⟨fun {closure xs result} h ↦ ?_, List.pairwise_append.mpr ⟨hus, hvs, ?_⟩⟩
    · rcases List.mem_append.mp h with h | h
      · exact hunclaimed h
      · intro q e he hgeneric hshows
        obtain ⟨es, hes⟩ := hgrows.older
        have hq := (List.getElem?_eq_some_iff.mp he).1
        refine hunclaimed' h q e ?_ hgeneric (hshows.imp fun _ _ ↦ Shows.mono ⟨es, hes⟩)
        rw [← hes, List.getElem?_append_left hq, he]
    · intro u hu v hv
      refine TypeExpr.apart_iff.mpr ?_
      rintro closure xs ys result rfl rfl hresolved
      obtain ⟨q, he, ⟨-, hgeneric⟩, hparts⟩ := hshown _ hu
      exact hunclaimed' hv q _ he hgeneric ((forall₂_resolved hparts).mp hresolved)

theorem free_singleton : Free s [t] ↔ ∀ {closure : Bool} {xs : List TypeExpr}
    {result : TypeExpr}, t = .function closure xs result → Unclaimed s xs := by
  constructor
  · rintro h closure xs result rfl
    exact h.unclaimed (List.mem_singleton_self _)
  · intro h
    exact ⟨fun hmem ↦ h (List.mem_singleton.mp hmem).symm, List.pairwise_singleton _ _⟩

theorem free_empty : Free TypeTable.empty us ↔ us.Pairwise TypeExpr.Apart :=
  ⟨Free.apart, fun h ↦ ⟨fun _ _ _ he ↦ (by cases he), h⟩⟩

/-! ## Runs that change no entry -/

theorem shows_of_mem_completedAll {ts : List TypeExpr} (h : List.Forall₂ (Shows s) ts ps) :
    ∀ u ∈ completedAll ts, ∃ q, Shows s u q := by
  induction h with
  | nil => simp [completedAll]
  | cons ht _ ih =>
      intro u hu
      rw [completedAll] at hu
      rcases List.mem_append.mp hu with hu | hu
      · exact ht.completed hu
      · exact ih u hu

/-- What a type does in a clean table that is free for it. -/
def Interns (t : TypeExpr) : Prop :=
  ∀ s, Clean s → Free s t.completed →
    ∃ p s', t.intern s = some (p, s') ∧ Grows s s' t.completed ∧ Shows s' t p

theorem internAll_grows (h : ∀ t ∈ ts, Interns t) (hclean : Clean s)
    (hfree : Free s (completedAll ts)) :
    ∃ ps s', internAll ts s = some (ps, s') ∧ Grows s s' (completedAll ts) ∧
      List.Forall₂ (Shows s') ts ps := by
  induction ts generalizing s with
  | nil => exact ⟨[], s, rfl, .refl hclean _, .nil⟩
  | cons t ts ih =>
      obtain ⟨ht, hts⟩ := List.forall_mem_cons.mp h
      have hhead : Free s t.completed :=
        ⟨fun hmem ↦ hfree.unclaimed (List.mem_append_left _ hmem),
          (List.pairwise_append.mp hfree.apart).1⟩
      obtain ⟨p, s₁, hintern, hgrows, hshows⟩ := ht s hclean hhead
      have hrest := ((Free.append hclean hgrows fun u hu ↦ hshows.completed hu).mp hfree).2
      obtain ⟨ps, s', hall, hgrows', hshows'⟩ := ih hts hgrows.clean hrest
      exact ⟨p :: ps, s', internAll_cons.mpr ⟨p, ps, s₁, hintern, hall, rfl⟩,
        hgrows.trans hgrows', .cons (hshows.mono hgrows'.older) hshows'⟩

theorem completed_eq_parts (t : TypeExpr) : t.completed = completedAll t.parts ++ [t] := by
  rw [TypeExpr.completed_eq, TypeExpr.completedAll_eq]

theorem interns (hformed : ∀ u ∈ t.completed, u.Formed) : Interns t := by
  induction t using TypeExpr.parts_induction with
  | _ t ih =>
      intro s hclean hfree
      obtain ⟨hself, hinside⟩ := TypeExpr.formed_parts hformed
      have hparts : ∀ u ∈ t.parts, Interns u := fun u hu ↦ ih u hu (hinside u hu)
      rw [completed_eq_parts] at hfree ⊢
      have hhead : Free s (completedAll t.parts) :=
        ⟨fun hmem ↦ hfree.unclaimed (List.mem_append_left _ hmem),
          (List.pairwise_append.mp hfree.apart).1⟩
      obtain ⟨ps, s₁, hall, hgrows, hshows⟩ := internAll_grows hparts hclean hhead
      have hrest := ((Free.append hclean hgrows (shows_of_mem_completedAll hshows)).mp hfree).2
      obtain ⟨p, s', hmake, hgrows', hshows'⟩ :=
        make_grows hgrows.clean hself hshows (free_singleton.mp hrest)
      exact ⟨p, s', intern_eq_some.mpr ⟨ps, s₁, hall, hmake⟩, hgrows.trans hgrows', hshows'⟩

/-! ## Runs that change an entry -/

theorem internAll_evolves
    (h : ∀ t ∈ ts, ∀ {s s' : TypeTable} {p : ℕ}, t.intern s = some (p, s') → Evolves s s')
    (hall : internAll ts s = some (ps, s')) : Evolves s s' := by
  induction ts generalizing s ps with
  | nil =>
      cases hall
      exact .refl _
  | cons t ts ih =>
      obtain ⟨ht, hts⟩ := List.forall_mem_cons.mp h
      obtain ⟨p, qs, s₁, hintern, hrest, rfl⟩ := internAll_cons.mp hall
      exact (ht hintern).trans (ih hts hrest)

theorem intern_evolves (hformed : ∀ u ∈ t.completed, u.Formed)
    (hintern : t.intern s = some (p, s')) : Evolves s s' := by
  induction t using TypeExpr.parts_induction generalizing s p s' with
  | _ t ih =>
      obtain ⟨hself, hinside⟩ := TypeExpr.formed_parts hformed
      obtain ⟨ps, s₁, hall, hmake⟩ := intern_eq_some.mp hintern
      have hevolves := internAll_evolves (fun u hu _ _ _ h ↦ ih u hu (hinside u hu) h) hall
      exact hevolves.trans (make_evolves hself (length_of_internAll hall) hmake)

/-- A class `Function` of the first table has become a function type. -/
def Changed (s s' : TypeTable) : Prop :=
  ∃ (q : ℕ) (e e' : TypeEntry), s.entries[q]? = some e ∧ e.IsGenericFunction ∧
    s'.entries[q]? = some e' ∧ e'.IsFunction

/-- One of the types is wrong. -/
def WrongAmong (s : TypeTable) (ts : List TypeExpr) (ps : List ℕ) : Prop :=
  ∃ (i q : ℕ) (u : TypeExpr), ts[i]? = some u ∧ ps[i]? = some q ∧ Wrong s u q

theorem Changed.evolves {s'' : TypeTable} (h : Changed s s') (hevolves : Evolves s' s'') :
    Changed s s'' := by
  obtain ⟨q, e, e', he, hgeneric, he', hfunction⟩ := h
  obtain ⟨e'', he'', rfl | ⟨-, hfunction'⟩⟩ := hevolves q e' he'
  · exact ⟨q, e, e'', he, hgeneric, he'', hfunction⟩
  · exact ⟨q, e, e'', he, hgeneric, he'', hfunction'⟩

/-- An entry that changes after some types were made is an old one or makes one of them wrong. -/
theorem Changed.old_or_wrong {s'' : TypeTable} (h : Changed s' s'')
    (hgrows : Grows s s' (completedAll ts)) (hshows : List.Forall₂ (Shows s') ts ps)
    (hevolves : Evolves s' s'') : WrongAmong s'' ts ps ∨ Changed s s'' := by
  obtain ⟨q, e, e', he, hgeneric, he', hfunction⟩ := h
  by_cases hq : q < s.entries.length
  · obtain ⟨es, hes⟩ := hgrows.older
    rw [← hes, List.getElem?_append_left hq] at he
    exact .inr ⟨q, e, e', he, hgeneric, he', hfunction⟩
  · obtain ⟨xs, hxs, hxshows⟩ := hgrows.generics (not_lt.mp hq) he hgeneric
    rw [TypeExpr.completedAll_eq, List.mem_flatMap] at hxs
    obtain ⟨u, hu, hxs⟩ := hxs
    obtain ⟨i, hi, rfl⟩ := List.mem_iff_getElem.mp hu
    have hi' := hshows.length_eq ▸ hi
    exact .inl ⟨i, _, _, List.getElem?_eq_getElem hi, List.getElem?_eq_getElem hi',
      (hshows.get hi hi').wrong_of_changed hgrows.clean hxs he hgeneric hxshows hevolves he'
        hfunction⟩

/-- What a type does in a clean table that is not free for it. -/
def Spoils (t : TypeExpr) : Prop :=
  ∀ s p s', Clean s → ¬Free s t.completed → t.intern s = some (p, s') →
    Wrong s' t p ∨ Changed s s'

theorem internAll_spoils (hformed : ∀ t ∈ ts, ∀ u ∈ t.completed, u.Formed)
    (h : ∀ t ∈ ts, Spoils t) (hclean : Clean s) (hfree : ¬Free s (completedAll ts))
    (hall : internAll ts s = some (ps, s')) : WrongAmong s' ts ps ∨ Changed s s' := by
  induction ts generalizing s ps with
  | nil => exact absurd ⟨fun h ↦ (by cases h), .nil⟩ hfree
  | cons t ts ih =>
      obtain ⟨ht, hts⟩ := List.forall_mem_cons.mp h
      obtain ⟨htformed, htsformed⟩ := List.forall_mem_cons.mp hformed
      obtain ⟨p, qs, s₁, hintern, htail, rfl⟩ := internAll_cons.mp hall
      have hevolves : Evolves s₁ s' :=
        internAll_evolves (fun u hu _ _ _ h ↦ intern_evolves (htsformed u hu) h) htail
      by_cases hhead : Free s t.completed
      · obtain ⟨p', s₁', hintern', hgrows, hshows⟩ := interns htformed s hclean hhead
        obtain ⟨rfl, rfl⟩ := Prod.ext_iff.mp (Option.some.inj (hintern.symm.trans hintern'))
        have hrest : ¬Free s₁ (completedAll ts) := fun hrest ↦ hfree
          ((Free.append hclean hgrows fun u hu ↦ hshows.completed hu).mpr ⟨hhead, hrest⟩)
        rcases ih htsformed hts hgrows.clean hrest htail with ⟨i, q, u, hu, hq, hwrong⟩ | hchanged
        · exact .inl ⟨i + 1, q, u, hu, hq, hwrong⟩
        · have hgrows' : Grows s s₁ (completedAll [t]) := by
            rwa [completedAll, completedAll, List.append_nil]
          rcases hchanged.old_or_wrong hgrows' (.cons hshows .nil) hevolves with
            ⟨i, q, u, hu, hq, hwrong⟩ | hold
          · cases i with
            | zero => exact .inl ⟨0, q, u, hu, hq, hwrong⟩
            | succ i => cases hu
          · exact .inr hold
      · rcases ht s p s₁ hclean hhead hintern with hwrong | hchanged
        · exact .inl ⟨0, p, t, rfl, rfl, hwrong.evolves hevolves⟩
        · exact .inr (hchanged.evolves hevolves)

theorem spoils (hformed : ∀ u ∈ t.completed, u.Formed) : Spoils t := by
  induction t using TypeExpr.parts_induction with
  | _ t ih =>
      intro s p s' hclean hfree hintern
      obtain ⟨hself, hinside⟩ := TypeExpr.formed_parts hformed
      obtain ⟨ps, s₁, hall, hmake⟩ := intern_eq_some.mp hintern
      have hlength := length_of_internAll hall
      have hevolves : Evolves s₁ s' := make_evolves hself hlength hmake
      by_cases hparts : Free s (completedAll t.parts)
      · obtain ⟨ps', s₁', hall', hgrows, hshows⟩ :=
          internAll_grows (fun u hu ↦ interns (hinside u hu)) hclean hparts
        obtain ⟨rfl, rfl⟩ := Prod.ext_iff.mp (Option.some.inj (hall.symm.trans hall'))
        have hlast : ¬Free s₁ [t] := by
          intro hlast
          rw [completed_eq_parts] at hfree
          exact hfree ((Free.append hclean hgrows (shows_of_mem_completedAll hshows)).mpr
            ⟨hparts, hlast⟩)
        rw [free_singleton] at hlast
        push Not at hlast
        obtain ⟨closure, xs, result, rfl, hclaimed⟩ := hlast
        unfold Unclaimed at hclaimed
        push Not at hclaimed
        obtain ⟨q, e, he, hgeneric, hclaims⟩ := hclaimed
        rcases ps with _ | ⟨r, qs⟩
        · cases hlength
        · obtain ⟨hresult, hxs⟩ := List.forall₂_cons.mp hshows
          obtain ⟨rfl, hentry⟩ :=
            typeFunction_changes hgrows.clean hxs hmake he hgeneric hclaims
          have hfunction := TypeEntry.isFunction_toFunction closure r e
          have hchanged : Changed s₁ s' := ⟨p, e, _, he, hgeneric, hentry, hfunction⟩
          have hpointers : (e.toFunction closure r).pointers = r :: e.pointers := by
            rw [pointers_of_isGenericFunction hgeneric]
            cases closure <;> rfl
          -- the parts of the function type are those of the class that it was
          rcases hchanged.old_or_wrong hgrows (.cons hresult hclaims) hevolves with
            ⟨i, q, u, hu, hq, hwrong⟩ | hold
          · refine .inl (.part hentry ⟨?_, ?_⟩ hu (hpointers ▸ hq) hwrong)
            · rfl
            · rfl
          · exact .inr hold
      · have hinner := internAll_spoils hinside (fun u hu ↦ ih u hu (hinside u hu)) hclean hparts hall
        rcases hinner with ⟨i, q, u, hu, hq, hwrong⟩ | hchanged
        · exact .inl (make_wrong hself hlength hmake hu hq hwrong)
        · exact .inr (hchanged.evolves hevolves)

end

/-! ## Texts -/

/-- Reads a text that is one type: `lex`, then `parse_type`, then the end of the text. -/
def readType (fuel : ℕ) (text : List Char) : TypeM ℕ := do
  let ts ← lex text
  let (p, rest) ← parseTypeIn fuel 0 (ts.map Prod.fst)
  if rest = [⟨.eof, []⟩] then return p else failure

def readTypes (fuel : ℕ) : List (List Char) → TypeM (List ℕ)
  | [] => return []
  | text :: texts => do
      let p ← readType fuel text
      return p :: (← readTypes fuel texts)

theorem joinClosers_concat {e : Token} (h : e ≠ closer) (ts : List Token) :
    joinClosers (ts ++ [e]) = joinClosers ts ++ [e] := by
  induction ts using joinClosers.induct with
  | case1 => rfl
  | case2 t => exact if_neg fun hboth : t = closer ∧ e = closer ↦ h hboth.2
  | case3 t t' ts hclosers ih =>
      rw [joinClosers, if_pos hclosers]
      exact (if_pos hclosers).trans (congrArg _ ih)
  | case4 t t' ts hclosers ih =>
      rw [joinClosers, if_neg hclosers]
      exact (if_neg hclosers).trans (congrArg _ ih)

namespace SourceType

/-- The text of the type can be read. -/
def Readable (t : SourceType) : Prop := t.type.Closes ∧ t.lexed.length + 1 ≤ tokenLimit

variable (t : SourceType)

theorem readType_eq (fuel : ℕ) : readType fuel t.type.text =
    if t.lexed.length + 1 ≤ tokenLimit then do
      let (p, rest) ← interned (parseType fuel 0 (t.lexed ++ [⟨.eof, []⟩]))
      if rest = [⟨.eof, []⟩] then return p else failure
    else failure := by
  have hlex := t.lex_text
  unfold readType
  cases hts : lex t.type.text with
  | none =>
      rw [hts, Option.map_none] at hlex
      split at hlex
      · cases hlex
      · rw [if_neg ‹_›]
        rfl
  | some ts =>
      rw [hts, Option.map_some] at hlex
      split at hlex
      · rw [if_pos ‹_›, ← (parseTypeIn_eq fuel).1, ← Option.some.inj hlex]
        rfl
      · cases hlex

theorem joinClosers_eof : joinClosers (t.type.tokens ++ [⟨.eof, []⟩]) =
    t.lexed ++ [⟨.eof, []⟩] :=
  joinClosers_concat (by decide) _

theorem parsed : Parsed t.type 0 :=
  TypeExpr.parsed t.formed (by simpa using t.nesting_le)

theorem mem_eof : (⟨.eof, []⟩ : Token) ∈ typeFollowers := List.mem_cons_self

variable {t}

theorem readType_of_readable (h : t.Readable) :
    Settles (fun fuel ↦ readType fuel t.type.text) t.type.intern := by
  have hreads := t.parsed.reads h.1 _ mem_eof (fun _ ↦ by decide) []
  obtain ⟨stream, hahead, N, hparse⟩ := hreads.settles mem_eof (by decide) (by decide)
  obtain rfl : stream = [⟨.eof, []⟩] := hahead.eq (by decide)
  refine ⟨N, fun fuel hfuel ↦ ?_⟩
  have hrun := hparse fuel hfuel
  dsimp only at hrun ⊢
  rw [readType_eq, if_pos h.2, ← joinClosers_eof, hrun]
  simp

theorem readType_of_not_readable (h : ¬t.Readable) :
    Settles (fun fuel ↦ readType fuel t.type.text) failure := by
  by_cases hlimit : t.lexed.length + 1 ≤ tokenLimit
  · have hcloses : ¬t.type.Closes := fun hcloses ↦ h ⟨hcloses, hlimit⟩
    obtain ⟨N, hparse⟩ := t.parsed.stuck hcloses _ mem_eof []
    refine ⟨N, fun fuel hfuel ↦ ?_⟩
    have hrun := hparse fuel hfuel
    dsimp only at hrun ⊢
    rw [readType_eq, if_pos hlimit, ← joinClosers_eof, hrun]
    simp
  · refine ⟨0, fun fuel _ ↦ ?_⟩
    dsimp only
    rw [readType_eq, if_neg hlimit]

end SourceType

section

variable {ts : List SourceType}

theorem readTypes_of_readable (h : ∀ t ∈ ts, t.Readable) :
    Settles (fun fuel ↦ readTypes fuel (ts.map fun t ↦ t.type.text))
      (internAll (ts.map SourceType.type)) := by
  induction ts with
  | nil => exact ⟨0, fun _ _ ↦ rfl⟩
  | cons t ts ih =>
      obtain ⟨ht, hts⟩ := List.forall_mem_cons.mp h
      obtain ⟨N, hhead⟩ := SourceType.readType_of_readable ht
      obtain ⟨M, hrest⟩ := ih hts
      refine ⟨max N M, fun fuel hfuel ↦ ?_⟩
      have hN := hhead fuel (le_trans (le_max_left N M) hfuel)
      have hM := hrest fuel (le_trans (le_max_right N M) hfuel)
      dsimp only at hN hM ⊢
      rw [List.map_cons, List.map_cons, readTypes, internAll, hN, hM]

theorem readTypes_of_not_readable (h : ¬∀ t ∈ ts, t.Readable) :
    Settles (fun fuel ↦ readTypes fuel (ts.map fun t ↦ t.type.text)) failure := by
  induction ts with
  | nil => exact absurd (fun t ht ↦ by cases ht) h
  | cons t ts ih =>
      by_cases ht : t.Readable
      · have hts : ¬∀ t ∈ ts, t.Readable := fun hts ↦ h (List.forall_mem_cons.mpr ⟨ht, hts⟩)
        obtain ⟨N, hrest⟩ := ih hts
        refine ⟨N, fun fuel hfuel ↦ ?_⟩
        have hN := hrest fuel hfuel
        dsimp only at hN ⊢
        rw [List.map_cons, readTypes, hN]
        simp
      · obtain ⟨N, hhead⟩ := SourceType.readType_of_not_readable ht
        refine ⟨N, fun fuel hfuel ↦ ?_⟩
        have hN := hhead fuel hfuel
        dsimp only at hN ⊢
        rw [List.map_cons, readTypes, hN]
        simp

theorem formed_map : ∀ t ∈ ts.map SourceType.type, ∀ u ∈ t.completed, u.Formed := by
  intro t ht
  obtain ⟨source, -, rfl⟩ := List.mem_map.mp ht
  exact source.formed

end

/-- The texts are all accepted when they are read in turn, and the table in the end shows their
types. -/
def RoundTrips (ts : List SourceType) : Prop :=
  ∃ N ps s, ∀ fuel ≥ N,
    readTypes fuel (ts.map fun t ↦ t.type.text) TypeTable.empty = some (ps, s) ∧
      List.Forall₂ (Shows s) (ts.map SourceType.type) ps

/-- Types make the round trip exactly when every closing angle bracket can be read, the texts are
short enough for the lexer and no function type takes the entry of a class `Function` before
it. -/
theorem roundTrips_iff (ts : List SourceType) :
    RoundTrips ts ↔ (∀ t ∈ ts, t.type.Closes ∧ t.lexed.length + 1 ≤ tokenLimit) ∧
      (completedAll (ts.map SourceType.type)).Pairwise TypeExpr.Apart := by
  rw [← free_empty]
  constructor
  · rintro ⟨N, ps, s, hread⟩
    by_cases hreadable : ∀ t ∈ ts, t.Readable
    · obtain ⟨M, hsettled⟩ := readTypes_of_readable hreadable
      obtain ⟨hrun, hshows⟩ := hread (max N M) (le_max_left N M)
      have hM := hsettled (max N M) (le_max_right N M)
      dsimp only at hM
      rw [hM] at hrun
      refine ⟨hreadable, by_contra fun hfree ↦ ?_⟩
      have hspoils := internAll_spoils formed_map (fun t ht ↦ spoils (formed_map t ht))
        clean_empty hfree hrun
      rcases hspoils with ⟨i, q, u, hu, hq, hwrong⟩ | ⟨q, e, e', he, -⟩
      · obtain ⟨hi, rfl⟩ := List.getElem?_eq_some_iff.mp hu
        obtain ⟨hi', rfl⟩ := List.getElem?_eq_some_iff.mp hq
        exact hwrong.not_shows (hshows.get hi hi')
      · cases he
    · obtain ⟨M, hsettled⟩ := readTypes_of_not_readable hreadable
      obtain ⟨hrun, -⟩ := hread (max N M) (le_max_left N M)
      have hM := hsettled (max N M) (le_max_right N M)
      dsimp only at hM
      rw [hM] at hrun
      cases hrun
  · rintro ⟨hreadable, hfree⟩
    obtain ⟨ps, s, hrun, -, hshows⟩ :=
      internAll_grows (fun t ht ↦ interns (formed_map t ht)) clean_empty hfree
    obtain ⟨N, hsettled⟩ := readTypes_of_readable hreadable
    refine ⟨N, ps, s, fun fuel hfuel ↦ ⟨?_, hshows⟩⟩
    have hN := hsettled fuel hfuel
    dsimp only at hN
    rw [hN, hrun]

/-- The type `Array<func<int()>>`. -/
def arrayOfFunctions : SourceType where
  type := .generic "Array".toList [.function false [] (.named "int".toList)]
  formed := by
    have harray : TypeExpr.IsTypeName "Array".toList := ⟨by decide, by decide⟩
    have hint : TypeExpr.IsTypeName "int".toList := ⟨by decide, by decide⟩
    simp only [TypeExpr.completed, completedAll, List.append_nil, List.forall_mem_append,
      List.forall_mem_singleton]
    exact ⟨⟨hint, trivial⟩, harray, by decide, by simp⟩
  nesting_le := by decide

/-- The `>` of the function type and that of the array are one token to the lexer, and the parser
looks for a `>` there. -/
theorem not_forall_roundTrips :
    arrayOfFunctions.type.text = "Array<func<int()>>".toList ∧ ¬∀ ts, RoundTrips ts := by
  refine ⟨by decide, fun hall ↦ ?_⟩
  obtain ⟨N, ps, s, hread⟩ := hall [arrayOfFunctions]
  have hreadable : ¬∀ t ∈ [arrayOfFunctions], t.Readable := by
    intro h
    have hcloses := (h _ (List.mem_singleton_self _)).1
    exact hcloses arrayOfFunctions.type (TypeExpr.mem_completed_self _) ⟨_, rfl, rfl⟩
  obtain ⟨M, hsettled⟩ := readTypes_of_not_readable hreadable
  obtain ⟨hrun, -⟩ := hread (max N M) (le_max_left N M)
  have hM := hsettled (max N M) (le_max_right N M)
  dsimp only at hM
  rw [hM] at hrun
  cases hrun

end TinyCPlus.Compiler
