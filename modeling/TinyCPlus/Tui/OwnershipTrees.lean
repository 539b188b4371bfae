import TinyCPlus.Tui.Ownership

/-!
# The forest of the live widgets

The live widgets are the nodes of a forest.  A new widget is a tree of its own, attaching
moves a whole tree below a widget of another one, and freeing takes a tree away.
-/

namespace TinyCPlus.Tui

open TinyCPlus.Library
open TinyCPlus.Library.LinkTree

namespace UiState

/-- The live widgets and their links are those of a forest. -/
structure Holds (s : UiState) (forest : List (LinkTree ℕ)) : Prop where
  shown : ShownAll s.links none forest
  nodup : (labelsAll forest).Nodup
  live_iff : ∀ a, s.live a = true ↔ a ∈ labelsAll forest
  live_lt : ∀ a ∈ labelsAll forest, a < s.next
  freed_lt : ∀ a ∈ s.freed, a < s.next
  freed_nodup : s.freed.Nodup
  freed_gone : ∀ a ∈ s.freed, s.live a = false

theorem live_iff_links {s : UiState} {a : ℕ} : s.live a = true ↔ s.links a ≠ none := by
  simp only [live, links, ne_eq, Option.map_eq_none_iff, Option.isSome_iff_ne_none]

theorem parentOf_eq (s : UiState) (a : ℕ) : s.parentOf a = (s.links a).bind Links.parent := by
  cases h : s.nodes a <;> simp [parentOf, links, h, Node.links]

/-- A state with the same widgets, allocations and frees. -/
structure SameWidgets (s t : UiState) : Prop where
  links : t.links = s.links
  next : t.next = s.next
  freed : t.freed = s.freed

theorem SameWidgets.refl (s : UiState) : SameWidgets s s := ⟨rfl, rfl, rfl⟩

theorem SameWidgets.live {s t : UiState} (h : SameWidgets s t) (a : ℕ) : t.live a = s.live a := by
  rw [Bool.eq_iff_iff, live_iff_links, live_iff_links, h.links]

theorem Holds.of_same {s t : UiState} {forest : List (LinkTree ℕ)} (h : s.Holds forest)
    (hsame : SameWidgets s t) : t.Holds forest := by
  constructor
  · exact hsame.links ▸ h.shown
  · exact h.nodup
  · exact fun a ↦ hsame.live a ▸ h.live_iff a
  · exact hsame.next ▸ h.live_lt
  · rw [hsame.freed, hsame.next]
    exact h.freed_lt
  · exact hsame.freed ▸ h.freed_nodup
  · rw [hsame.freed]
    exact fun a ha ↦ hsame.live a ▸ h.freed_gone a ha

@[simp] theorem next_modify (s : UiState) (a : ℕ) (f : Node → Node) :
    (s.modify a f).next = s.next := rfl

@[simp] theorem freed_modify (s : UiState) (a : ℕ) (f : Node → Node) :
    (s.modify a f).freed = s.freed := rfl

@[simp] theorem window_modify (s : UiState) (a : ℕ) (f : Node → Node) :
    (s.modify a f).window = s.window := rfl

theorem links_modify (s : UiState) (a b : ℕ) (f : Node → Node) :
    (s.modify a f).links b = if b = a then (s.nodes a).map fun n ↦ (f n).links else s.links b := by
  unfold modify links
  by_cases hb : b = a
  · simp only [hb, Function.update_self, Option.map_map, if_true]
    rfl
  · simp only [Function.update_of_ne hb, if_neg hb]

theorem live_modify (s : UiState) (a b : ℕ) (f : Node → Node) :
    (s.modify a f).live b = s.live b := by
  unfold modify live
  by_cases hb : b = a
  · simp [hb]
  · simp [hb]

/-- A change of the fields of a widget that are no links. -/
theorem links_modify_own (s : UiState) (a : ℕ) {f : Node → Node} (hf : ∀ n, (f n).links = n.links) :
    (s.modify a f).links = s.links := by
  funext b
  rw [links_modify]
  by_cases hb : b = a
  · rw [if_pos hb, hb]
    simp only [hf, links]
  · rw [if_neg hb]

theorem sameWidgets_modify (s : UiState) (a : ℕ) {f : Node → Node}
    (hf : ∀ n, (f n).links = n.links) : SameWidgets s (s.modify a f) :=
  ⟨links_modify_own s a hf, rfl, rfl⟩

/-! ## Freeing -/

def releaseAll (s : UiState) (xs : List ℕ) : UiState := xs.foldl release s

theorem releaseAll_append (s : UiState) (xs ys : List ℕ) :
    s.releaseAll (xs ++ ys) = (s.releaseAll xs).releaseAll ys := List.foldl_append

@[simp] theorem next_releaseAll (s : UiState) (xs : List ℕ) : (s.releaseAll xs).next = s.next := by
  induction xs generalizing s with
  | nil => rfl
  | cons x xs ih => exact ih (s.release x)

@[simp] theorem window_releaseAll (s : UiState) (xs : List ℕ) :
    (s.releaseAll xs).window = s.window := by
  induction xs generalizing s with
  | nil => rfl
  | cons x xs ih => exact ih (s.release x)

theorem freed_releaseAll (s : UiState) (xs : List ℕ) : (s.releaseAll xs).freed = s.freed ++ xs := by
  induction xs generalizing s with
  | nil => exact (List.append_nil _).symm
  | cons x xs ih =>
      have hrest : (s.releaseAll (x :: xs)).freed = s.freed ++ [x] ++ xs := ih (s.release x)
      rw [hrest, List.append_assoc, List.singleton_append]

theorem nodes_releaseAll (s : UiState) (xs : List ℕ) (a : ℕ) :
    (s.releaseAll xs).nodes a = if a ∈ xs then none else s.nodes a := by
  induction xs generalizing s with
  | nil => rfl
  | cons x xs ih =>
      have hrest := ih (s.release x)
      have hfirst : (s.release x).nodes a = if a = x then none else s.nodes a := by
        simp only [release, Function.update_apply]
      rw [hfirst] at hrest
      refine Eq.trans hrest ?_
      by_cases hmem : a ∈ xs
      · rw [if_pos hmem, if_pos (List.mem_cons_of_mem x hmem)]
      · by_cases hax : a = x
        · rw [if_neg hmem, if_pos hax, if_pos (hax ▸ List.mem_cons_self)]
        · rw [if_neg hmem, if_neg hax, if_neg (by simp [hax, hmem])]

theorem links_releaseAll_of_not_mem {s : UiState} {xs : List ℕ} {a : ℕ} (ha : a ∉ xs) :
    (s.releaseAll xs).links a = s.links a := by
  simp only [links, nodes_releaseAll, if_neg ha]

theorem live_releaseAll (s : UiState) (xs : List ℕ) (a : ℕ) :
    (s.releaseAll xs).live a = true ↔ s.live a = true ∧ a ∉ xs := by
  unfold live
  rw [nodes_releaseAll]
  by_cases ha : a ∈ xs <;> simp [ha]

mutual

/-- Freeing a widget frees the widgets of its tree, the children first. -/
theorem free_shown {fuel : ℕ} {s : UiState} {q : Option ℕ} :
    {t : LinkTree ℕ} → Shown s.links q t → t.labels.Nodup → t.labels.length ≤ fuel →
      free fuel s t.label = s.releaseAll t.postorder
  | .node a ts, h, hnodup, hfuel => by
      obtain ⟨hroot, hchildren⟩ := h
      cases fuel with
      | zero => exact absurd hfuel (Nat.not_succ_le_zero _)
      | succ fuel =>
          obtain ⟨n, hn, hlinks⟩ := Option.map_eq_some_iff.mp hroot
          have hkids : n.children = ts.map label := congrArg Links.children hlinks
          have hloop := free_shownAll hchildren (List.nodup_cons.mp hnodup).2
            (Nat.le_of_succ_le_succ hfuel)
          simp only [label_node, free, hn, hkids, hloop]
          exact (releaseAll_append s (postorderAll ts) [a]).symm

theorem free_shownAll {fuel : ℕ} {s : UiState} {q : Option ℕ} :
    {ts : List (LinkTree ℕ)} → ShownAll s.links q ts → (labelsAll ts).Nodup →
      (labelsAll ts).length ≤ fuel →
      (ts.map label).foldl (free fuel) s = s.releaseAll (postorderAll ts)
  | [], _, _, _ => rfl
  | t :: ts, h, hnodup, hfuel => by
      obtain ⟨ht, hts, hdisj⟩ := List.nodup_append.mp hnodup
      rw [labelsAll, List.length_append] at hfuel
      have hfirst := free_shown h.1 ht ((Nat.le_add_right _ _).trans hfuel)
      have hkept : ShownAll (s.releaseAll t.postorder).links q ts := by
        apply h.2.congr
        intro b hb
        apply links_releaseAll_of_not_mem
        intro hmem
        exact hdisj b ((postorder_perm t).subset hmem) b hb rfl
      have hrest := free_shownAll hkept hts ((Nat.le_add_left _ _).trans hfuel)
      rw [List.map_cons, List.foldl_cons, hfirst, hrest]
      exact (releaseAll_append s t.postorder (postorderAll ts)).symm

end

theorem Holds.length_le {s : UiState} {forest : List (LinkTree ℕ)} (h : s.Holds forest) :
    (labelsAll forest).length ≤ s.next := by
  have hsub : labelsAll forest ⊆ List.range s.next := fun a ha ↦ List.mem_range.mpr (h.live_lt a ha)
  have hlen := (h.nodup.subperm hsub).length_le
  rwa [List.length_range] at hlen

/-- A widget without a parent is the root of a tree. -/
theorem Holds.exists_root {s : UiState} {forest : List (LinkTree ℕ)} (h : s.Holds forest) {w : ℕ}
    (hlive : s.live w = true) (hparent : s.parentOf w = none) :
    ∃ before t after, forest = before ++ t :: after ∧ t.label = w := by
  obtain ⟨l, hl⟩ := Option.ne_none_iff_exists'.mp (live_iff_links.mp hlive)
  rw [parentOf_eq, hl] at hparent
  exact h.shown.exists_root ((h.live_iff w).mp hlive) hl hparent

section Root

variable {s : UiState} {before after : List (LinkTree ℕ)} {t : LinkTree ℕ}
  (h : s.Holds (before ++ t :: after))

include h

theorem Holds.tree_nodup : (t.labels ++ labelsAll (before ++ after)).Nodup := by
  apply h.nodup.perm
  simp only [labelsAll_append, labelsAll]
  exact List.perm_append_comm_assoc _ _ _

theorem Holds.tree_shown : Shown s.links none t :=
  (shownAll_append.mp h.shown).2.1

theorem Holds.rest_shown : ShownAll s.links none (before ++ after) :=
  shownAll_append.mpr ⟨(shownAll_append.mp h.shown).1, (shownAll_append.mp h.shown).2.2⟩

theorem Holds.freeWidget_eq : s.freeWidget t.label = s.releaseAll t.postorder := by
  have hnodup := (List.nodup_append.mp h.tree_nodup).1
  apply free_shown h.tree_shown hnodup
  have hlen := h.length_le
  simp only [labelsAll_append, labelsAll, List.length_append] at hlen
  omega

/-- The rest of the forest after a tree of it has been freed. -/
theorem Holds.freeWidget : (s.freeWidget t.label).Holds (before ++ after) := by
  rw [h.freeWidget_eq]
  have hpost : ∀ a, a ∈ t.postorder ↔ a ∈ t.labels := fun a ↦ (postorder_perm t).mem_iff
  obtain ⟨htree, hrest, hdisj⟩ := List.nodup_append.mp h.tree_nodup
  constructor
  · apply h.rest_shown.congr
    intro a ha
    apply links_releaseAll_of_not_mem
    exact fun hat ↦ hdisj a ((hpost a).mp hat) a ha rfl
  · exact hrest
  · intro a
    rw [live_releaseAll, h.live_iff, mem_labelsAll_middle, hpost]
    constructor
    · exact fun ha ↦ ha.1.resolve_left ha.2
    · exact fun ha ↦ ⟨Or.inr ha, fun hat ↦ hdisj a hat a ha rfl⟩
  · rw [next_releaseAll]
    exact fun a ha ↦ h.live_lt a (mem_labelsAll_middle.mpr (Or.inr ha))
  · rw [next_releaseAll, freed_releaseAll]
    intro a ha
    rcases List.mem_append.mp ha with ha | ha
    · exact h.freed_lt a ha
    · exact h.live_lt a (mem_labelsAll_middle.mpr (Or.inl ((hpost a).mp ha)))
  · rw [freed_releaseAll]
    apply List.nodup_append.mpr
    refine ⟨h.freed_nodup, (postorder_perm t).nodup_iff.mpr htree, ?_⟩
    rintro a ha b hb rfl
    have hlive := (h.live_iff a).mpr (mem_labelsAll_middle.mpr (Or.inl ((hpost a).mp hb)))
    exact Bool.false_ne_true ((h.freed_gone a ha).symm.trans hlive)
  · rw [freed_releaseAll]
    intro a ha
    rw [Bool.eq_false_iff, ne_eq, live_releaseAll, not_and_not_right]
    intro hlive
    rcases List.mem_append.mp ha with ha | ha
    · exact absurd hlive (by simp [h.freed_gone a ha])
    · exact ha

theorem Holds.live_freeWidget {a : ℕ} :
    (s.freeWidget t.label).live a = true ↔ s.live a = true ∧ a ∉ t.labels := by
  rw [h.freeWidget_eq, live_releaseAll, (postorder_perm t).mem_iff]

theorem Holds.window_freeWidget : (s.freeWidget t.label).window = s.window := by
  rw [h.freeWidget_eq, window_releaseAll]

end Root

/-! ## Attaching -/

theorem hasAncestor_mono {links : ℕ → Option (Links ℕ)} {c fuel more : ℕ} {a : Option ℕ}
    (h : hasAncestor links c fuel a = true) (hle : fuel ≤ more) :
    hasAncestor links c more a = true := by
  induction fuel generalizing more a with
  | zero => exact absurd h Bool.false_ne_true
  | succ fuel ih =>
      obtain ⟨more, rfl⟩ := Nat.exists_eq_add_of_le' hle
      cases a with
      | none => exact absurd h Bool.false_ne_true
      | some a =>
          rw [← Nat.add_assoc]
          rw [hasAncestor, Bool.or_eq_true] at h ⊢
          exact h.imp_right fun h ↦ ih h (Nat.le_add_left fuel more)

mutual

/-- The loop over the ancestors climbs out of a tree, past its root. -/
theorem hasAncestor_shown {links : ℕ → Option (Links ℕ)} {c fuel a : ℕ} {q : Option ℕ} :
    {t : LinkTree ℕ} → Shown links q t → a ∈ t.labels →
      t.label = c ∨ hasAncestor links c fuel q = true →
      hasAncestor links c (fuel + t.labels.length) (some a) = true
  | .node b ts, h, ha, hout => by
      obtain ⟨hroot, hchildren⟩ := h
      have hpast : hasAncestor links c (fuel + 1) (some b) = true := by
        rw [hasAncestor, hroot, Bool.or_eq_true, decide_eq_true_eq]
        exact hout
      rcases List.mem_cons.mp ha with rfl | ha
      · exact hasAncestor_mono hpast (Nat.add_le_add_left (Nat.succ_pos _) fuel)
      · have hclimb := hasAncestor_shownAll hchildren ha hpast
        rw [labels, List.length_cons, Nat.add_comm (labelsAll ts).length, ← Nat.add_assoc]
        exact hclimb

theorem hasAncestor_shownAll {links : ℕ → Option (Links ℕ)} {c fuel a : ℕ} {q : Option ℕ} :
    {ts : List (LinkTree ℕ)} → ShownAll links q ts → a ∈ labelsAll ts →
      hasAncestor links c fuel q = true →
      hasAncestor links c (fuel + (labelsAll ts).length) (some a) = true
  | t :: ts, h, ha, hout => by
      rw [labelsAll, List.length_append]
      rcases List.mem_append.mp ha with ha | ha
      · exact hasAncestor_mono (hasAncestor_shown h.1 ha (Or.inr hout))
          (Nat.add_le_add_left (Nat.le_add_right _ _) fuel)
      · exact hasAncestor_mono (hasAncestor_shownAll h.2 ha hout)
          (Nat.add_le_add_left (Nat.le_add_left _ _) fuel)

end

theorem Holds.below_of_mem {s : UiState} {before after : List (LinkTree ℕ)} {t : LinkTree ℕ}
    (h : s.Holds (before ++ t :: after)) {a : ℕ} (ha : a ∈ t.labels) :
    s.below t.label a = true := by
  have hclimb : hasAncestor s.links t.label (0 + t.labels.length) (some a) = true :=
    hasAncestor_shown h.tree_shown ha (Or.inl rfl)
  apply hasAncestor_mono hclimb
  have hlen := h.length_le
  simp only [labelsAll_append, labelsAll, List.length_append] at hlen
  omega

theorem Holds.linked {s : UiState} {before after : List (LinkTree ℕ)} {t : LinkTree ℕ} {p : ℕ}
    (h : s.Holds (before ++ t :: after)) (hp : p ∈ labelsAll (before ++ after)) :
    (s.linked p t.label).Holds (attachAll p (before ++ after) t) := by
  obtain ⟨htree, hrest, hdisj⟩ := List.nodup_append.mp h.tree_nodup
  have hpt : p ∉ t.labels := fun hmem ↦ hdisj p hmem p hp rfl
  have hne : t.label ≠ p := fun he ↦ hpt (he ▸ label_mem_labels t)
  have hother : ∀ a, a ≠ p → a ≠ t.label → (s.linked p t.label).links a = s.links a := by
    intro a hap hat
    rw [UiState.linked, links_modify, if_neg hap, links_modify, if_neg hat]
  have hroot : (s.linked p t.label).links t.label =
      (s.links t.label).map fun l ↦ ⟨some p, l.children⟩ := by
    rw [UiState.linked, links_modify, if_neg hne, links_modify, if_pos rfl, links, Option.map_map]
    rfl
  have hparent : (s.linked p t.label).links p =
      (s.links p).map fun l ↦ ⟨l.parent, l.children ++ [t.label]⟩ := by
    rw [UiState.linked, links_modify, if_pos rfl, links, Option.map_map, modify]
    simp only [Function.update_of_ne (Ne.symm hne)]
    rfl
  have hadopts : Adopts s.links (s.linked p t.label).links p t := by
    constructor
    · apply h.tree_shown.adopted htree hroot
      exact fun a ha ↦ hother a (ne_of_mem_of_not_mem ha hpt)
    · exact hparent
    · exact fun a hap hat ↦ hother a hap fun he ↦ hat (he ▸ label_mem_labels t)
  have hnodup : (labelsAll (before ++ after) ++ t.labels).Nodup :=
    h.tree_nodup.perm List.perm_append_comm
  have hperm := labelsAll_attachAll p t (before ++ after) hp hrest
  have hmem : ∀ a, a ∈ labelsAll (attachAll p (before ++ after) t) ↔
      a ∈ labelsAll (before ++ t :: after) := by
    intro a
    rw [hperm.mem_iff, mem_labelsAll_middle, List.mem_append, or_comm]
  have hlive : ∀ a, (s.linked p t.label).live a = s.live a := fun a ↦
    (live_modify _ _ _ _).trans (live_modify _ _ _ _)
  constructor
  · exact h.rest_shown.attachAll hadopts hp hnodup
  · exact hperm.nodup_iff.mpr hnodup
  · intro a
    rw [hlive, hmem]
    exact h.live_iff a
  · exact fun a ha ↦ h.live_lt a ((hmem a).mp ha)
  · exact h.freed_lt
  · exact h.freed_nodup
  · exact fun a ha ↦ (hlive a).trans (h.freed_gone a ha)

/-- A refused child changes nothing; an accepted one was the root of a tree that its
parent is not in. -/
theorem Holds.add {s : UiState} {forest : List (LinkTree ℕ)} (h : s.Holds forest) (p c : ℕ) :
    ∃ after, (s.add p c).1.Holds after ∧ (s.add p c).1.window = s.window ∧
      ∀ a, (s.add p c).1.live a = s.live a := by
  unfold UiState.add
  cases hp : s.nodes p with
  | none => exact ⟨forest, h, rfl, fun _ ↦ rfl⟩
  | some parent =>
      cases hc : s.nodes c with
      | none => exact ⟨forest, h, rfl, fun _ ↦ rfl⟩
      | some child =>
          dsimp only
          by_cases hrefused : child.parent ≠ none ∨ parent.own.kind.number < 4 ∨ s.below c p = true
          · rw [if_pos hrefused]
            exact ⟨forest, h, rfl, fun _ ↦ rfl⟩
          · rw [if_neg hrefused]
            obtain ⟨hnone, -, hbelow⟩ : child.parent = none ∧ _ ∧ _ := by
              simpa only [not_or, not_not] using hrefused
            have hlivec : s.live c = true := by simp [live, hc]
            have hlivep : s.live p = true := by simp [live, hp]
            have hparent : s.parentOf c = none := by simp [parentOf, hc, hnone]
            obtain ⟨before, t, after, rfl, rfl⟩ := h.exists_root hlivec hparent
            have hmem : p ∈ labelsAll (before ++ after) := by
              rcases mem_labelsAll_middle.mp ((h.live_iff p).mp hlivep) with hpt | hpt
              · exact absurd (h.below_of_mem hpt) hbelow
              · exact hpt
            refine ⟨_, h.linked hmem, rfl, ?_⟩
            exact fun a ↦ (live_modify _ _ _ _).trans (live_modify _ _ _ _)

theorem Holds.create {s : UiState} {forest : List (LinkTree ℕ)} (h : s.Holds forest)
    (kind : WidgetKind) (text : List UInt8) (width height : ℤ) :
    (s.create kind text width height).Holds (forest ++ [.node s.next []]) := by
  have hnew : s.next ∉ labelsAll forest := fun hmem ↦ lt_irrefl _ (h.live_lt _ hmem)
  have hlinks : ∀ a, a ≠ s.next → (s.create kind text width height).links a = s.links a := by
    intro a ha
    simp only [links, UiState.create, Function.update_of_ne ha]
  have hlabels : labelsAll (forest ++ [.node s.next []]) = labelsAll forest ++ [s.next] := by
    rw [labelsAll_append]
    rfl
  constructor
  · apply shownAll_append.mpr
    constructor
    · exact h.shown.congr fun a ha ↦ hlinks a (ne_of_mem_of_not_mem ha hnew)
    · refine ⟨⟨?_, trivial⟩, trivial⟩
      simp only [links, UiState.create, Function.update_self, Option.map_some, Node.links,
        List.map_nil]
  · rw [hlabels]
    exact List.nodup_append.mpr ⟨h.nodup, List.nodup_singleton _, fun a ha b hb he ↦
      hnew (List.mem_singleton.mp hb ▸ he ▸ ha)⟩
  · intro a
    rw [hlabels, List.mem_append, List.mem_singleton, ← h.live_iff, live_iff_links]
    by_cases ha : a = s.next
    · simp [ha, links, UiState.create]
    · rw [hlinks a ha, ← live_iff_links]
      simp only [ha, or_false]
  · rw [hlabels]
    intro a ha
    rcases List.mem_append.mp ha with ha | ha
    · exact (h.live_lt a ha).trans (Nat.lt_succ_self _)
    · rw [List.mem_singleton.mp ha]
      exact Nat.lt_succ_self _
  · exact fun a ha ↦ (h.freed_lt a ha).trans (Nat.lt_succ_self _)
  · exact h.freed_nodup
  · intro a ha
    rw [Bool.eq_false_iff, ne_eq, live_iff_links, hlinks a (h.freed_lt a ha).ne, ← live_iff_links,
      h.freed_gone a ha]
    exact Bool.false_ne_true

end UiState

end TinyCPlus.Tui
