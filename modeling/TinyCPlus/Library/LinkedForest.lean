import Mathlib

/-!
# Forests of linked nodes

Nodes with a link to their parent and links to their children show a tree when the
links of every node of it are the ones of the tree.  If the labels of a forest are
distinct, then its links have no cycles, and what is done to the links of one tree
leaves the others as they are.
-/

namespace TinyCPlus.Library

/-- The links of a node. -/
structure Links (α : Type*) where
  parent : Option α
  children : List α

inductive LinkTree (α : Type*) where
  | node (label : α) (children : List (LinkTree α))

namespace LinkTree

variable {α : Type*}

def label : LinkTree α → α
  | .node a _ => a

@[simp] theorem label_node (a : α) (ts : List (LinkTree α)) : (node a ts).label = a := rfl

mutual

/-- The labels, every one ahead of those below it. -/
def labels : LinkTree α → List α
  | .node a ts => a :: labelsAll ts

def labelsAll : List (LinkTree α) → List α
  | [] => []
  | t :: ts => t.labels ++ labelsAll ts

end

mutual

/-- The labels, every one behind those below it. -/
def postorder : LinkTree α → List α
  | .node a ts => postorderAll ts ++ [a]

def postorderAll : List (LinkTree α) → List α
  | [] => []
  | t :: ts => t.postorder ++ postorderAll ts

end

mutual

/-- The tree with `t` as the last child of the nodes labelled `p`. -/
def attach [DecidableEq α] (p : α) : LinkTree α → LinkTree α → LinkTree α
  | .node a ts, t => if a = p then .node a (ts ++ [t]) else .node a (attachAll p ts t)

def attachAll [DecidableEq α] (p : α) : List (LinkTree α) → LinkTree α → List (LinkTree α)
  | [], _ => []
  | s :: ss, t => s.attach p t :: attachAll p ss t

end

variable (links : α → Option (Links α))

mutual

/-- The nodes show the tree below `parent`. -/
def Shown : Option α → LinkTree α → Prop
  | parent, .node a ts => links a = some ⟨parent, ts.map label⟩ ∧ ShownAll (some a) ts

def ShownAll : Option α → List (LinkTree α) → Prop
  | _, [] => True
  | parent, t :: ts => Shown parent t ∧ ShownAll parent ts

end

/-! ## Labels -/

theorem label_mem_labels (t : LinkTree α) : t.label ∈ t.labels := by
  cases t
  exact List.mem_cons_self

theorem labelsAll_append (ss ts : List (LinkTree α)) :
    labelsAll (ss ++ ts) = labelsAll ss ++ labelsAll ts := by
  induction ss with
  | nil => rfl
  | cons s ss ih => simp only [List.cons_append, labelsAll, ih, List.append_assoc]

@[simp] theorem labelsAll_singleton (t : LinkTree α) : labelsAll [t] = t.labels :=
  List.append_nil _

theorem mem_labelsAll_middle {a : α} {before after : List (LinkTree α)} {t : LinkTree α} :
    a ∈ labelsAll (before ++ t :: after) ↔ a ∈ t.labels ∨ a ∈ labelsAll (before ++ after) := by
  simp only [labelsAll_append, labelsAll, List.mem_append]
  tauto

theorem map_label_sublist (ts : List (LinkTree α)) : (ts.map label).Sublist (labelsAll ts) := by
  induction ts with
  | nil => exact List.nil_sublist _
  | cons t ts ih =>
      cases t with
      | node a ss => exact (ih.trans (List.sublist_append_right _ _)).cons_cons a

mutual

theorem postorder_perm : (t : LinkTree α) → t.postorder.Perm t.labels
  | .node a ts => by
      apply (List.perm_append_singleton a _).trans
      exact (postorderAll_perm ts).cons a

theorem postorderAll_perm : (ts : List (LinkTree α)) → (postorderAll ts).Perm (labelsAll ts)
  | [] => .nil
  | t :: ts => (postorder_perm t).append (postorderAll_perm ts)

end

section Attach

variable [DecidableEq α] (p : α) (t : LinkTree α)

@[simp] theorem label_attach (s : LinkTree α) : (s.attach p t).label = s.label := by
  cases s with
  | node a ts =>
      unfold attach
      split <;> rfl

theorem map_label_attachAll (ss : List (LinkTree α)) :
    (attachAll p ss t).map label = ss.map label := by
  induction ss with
  | nil => rfl
  | cons s ss ih => simp only [attachAll, List.map_cons, label_attach, ih]

mutual

theorem attach_of_not_mem : (s : LinkTree α) → p ∉ s.labels → s.attach p t = s
  | .node a ts, hp => by
      have hne : a ≠ p := fun h ↦ hp (h ▸ List.mem_cons_self)
      have hrest : p ∉ labelsAll ts := fun h ↦ hp (List.mem_cons_of_mem a h)
      simp only [attach, if_neg hne, attachAll_of_not_mem ts hrest]

theorem attachAll_of_not_mem : (ss : List (LinkTree α)) → p ∉ labelsAll ss → attachAll p ss t = ss
  | [], _ => rfl
  | s :: ss, hp => by
      have hfirst : p ∉ s.labels := fun h ↦ hp (List.mem_append_left _ h)
      have hrest : p ∉ labelsAll ss := fun h ↦ hp (List.mem_append_right _ h)
      simp only [attachAll, attach_of_not_mem s hfirst, attachAll_of_not_mem ss hrest]

end

mutual

theorem labels_attach :
    (s : LinkTree α) → p ∈ s.labels → s.labels.Nodup →
      (s.attach p t).labels.Perm (s.labels ++ t.labels)
  | .node a ts, hp, hnodup => by
      obtain ⟨ha, hts⟩ := List.nodup_cons.mp hnodup
      by_cases hap : a = p
      · simp only [attach, if_pos hap, labels, labelsAll_append, labelsAll_singleton,
          List.cons_append, List.Perm.refl]
      · have hmem : p ∈ labelsAll ts := List.mem_of_ne_of_mem (Ne.symm hap) hp
        simp only [attach, if_neg hap, labels, List.cons_append]
        exact (labelsAll_attachAll ts hmem hts).cons a

theorem labelsAll_attachAll :
    (ss : List (LinkTree α)) → p ∈ labelsAll ss → (labelsAll ss).Nodup →
      (labelsAll (attachAll p ss t)).Perm (labelsAll ss ++ t.labels)
  | s :: ss, hp, hnodup => by
      obtain ⟨hs, hss, hdisj⟩ := List.nodup_append.mp hnodup
      by_cases hmem : p ∈ s.labels
      · have hrest : p ∉ labelsAll ss := fun h ↦ hdisj p hmem p h rfl
        simp only [attachAll, attachAll_of_not_mem p t ss hrest, labelsAll]
        have hfirst := labels_attach s hmem hs
        apply (hfirst.append_right (labelsAll ss)).trans
        simp only [List.append_assoc]
        exact List.perm_append_comm.append_left s.labels
      · have hrest : p ∈ labelsAll ss := (List.mem_append.mp hp).resolve_left hmem
        simp only [attachAll, attach_of_not_mem p t s hmem, labelsAll, List.append_assoc]
        exact (labelsAll_attachAll ss hrest hss).append_left s.labels

end

end Attach

/-! ## Links of shown trees -/

variable {links}

theorem shownAll_append {q : Option α} {ss ts : List (LinkTree α)} :
    ShownAll links q (ss ++ ts) ↔ ShownAll links q ss ∧ ShownAll links q ts := by
  induction ss with
  | nil => simp only [List.nil_append, ShownAll, true_and]
  | cons s ss ih => simp only [List.cons_append, ShownAll, ih, and_assoc]

mutual

/-- Only the links of the labels of a tree matter for it. -/
theorem Shown.congr {links' : α → Option (Links α)} {q : Option α} :
    {t : LinkTree α} → Shown links q t → (∀ a ∈ t.labels, links' a = links a) → Shown links' q t
  | .node a ts, h, heq => by
      obtain ⟨hroot, hchildren⟩ := h
      refine ⟨(heq a List.mem_cons_self).trans hroot, ?_⟩
      exact hchildren.congr fun b hb ↦ heq b (List.mem_cons_of_mem a hb)

theorem ShownAll.congr {links' : α → Option (Links α)} {q : Option α} :
    {ts : List (LinkTree α)} → ShownAll links q ts → (∀ a ∈ labelsAll ts, links' a = links a) →
      ShownAll links' q ts
  | [], _, _ => trivial
  | _ :: _, h, heq =>
      ⟨h.1.congr fun a ha ↦ heq a (List.mem_append_left _ ha),
        h.2.congr fun a ha ↦ heq a (List.mem_append_right _ ha)⟩

end

/-- A node `b` of a tree below `q` is its root, or its parent is ahead of it in the tree. -/
def HasPlace (links : α → Option (Links α)) (q : Option α) (roots all : List α) (b : α) : Prop :=
  ∃ l, links b = some l ∧
    ((b ∈ roots ∧ l.parent = q) ∨
      ∃ a n, l.parent = some a ∧ [a, b].Sublist all ∧ links a = some n ∧ b ∈ n.children)

mutual

theorem Shown.hasPlace {q : Option α} {b : α} :
    {t : LinkTree α} → Shown links q t → b ∈ t.labels → HasPlace links q [t.label] t.labels b
  | .node a ts, h, hb => by
      obtain ⟨hroot, hchildren⟩ := h
      rcases List.mem_cons.mp hb with rfl | hb
      · exact ⟨_, hroot, Or.inl ⟨List.mem_singleton_self b, rfl⟩⟩
      · obtain ⟨l, hl, ⟨hbt, hparent⟩ | ⟨c, n, hparent, hsub, hn, hmem⟩⟩ := hchildren.hasPlace hb
        · refine ⟨l, hl, Or.inr ⟨a, _, hparent, ?_, hroot, hbt⟩⟩
          exact (List.singleton_sublist.mpr hb).cons_cons a
        · exact ⟨l, hl, Or.inr ⟨c, n, hparent, hsub.cons a, hn, hmem⟩⟩

theorem ShownAll.hasPlace {q : Option α} {b : α} :
    {ts : List (LinkTree α)} → ShownAll links q ts → b ∈ labelsAll ts →
      HasPlace links q (ts.map label) (labelsAll ts) b
  | t :: ts, h, hb => by
      rcases List.mem_append.mp hb with hb | hb
      · obtain ⟨l, hl, ⟨hbt, hparent⟩ | ⟨c, n, hparent, hsub, hn, hmem⟩⟩ := h.1.hasPlace hb
        · refine ⟨l, hl, Or.inl ⟨?_, hparent⟩⟩
          rw [List.mem_singleton.mp hbt]
          exact List.mem_cons_self
        · have hall := hsub.trans (List.sublist_append_left t.labels (labelsAll ts))
          exact ⟨l, hl, Or.inr ⟨c, n, hparent, hall, hn, hmem⟩⟩
      · obtain ⟨l, hl, ⟨hbt, hparent⟩ | ⟨c, n, hparent, hsub, hn, hmem⟩⟩ := h.2.hasPlace hb
        · exact ⟨l, hl, Or.inl ⟨List.mem_cons_of_mem _ hbt, hparent⟩⟩
        · have hall := hsub.trans (List.sublist_append_right t.labels (labelsAll ts))
          exact ⟨l, hl, Or.inr ⟨c, n, hparent, hall, hn, hmem⟩⟩

end

theorem ShownAll.parent_of_mem {q : Option α} {ts : List (LinkTree α)} (h : ShownAll links q ts)
    {t : LinkTree α} (ht : t ∈ ts) : ∃ l, links t.label = some l ∧ l.parent = q := by
  induction ts with
  | nil => exact absurd ht List.not_mem_nil
  | cons s ss ih =>
      rcases List.mem_cons.mp ht with rfl | ht
      · cases t with
        | node a us => exact ⟨_, h.1.1, rfl⟩
      · exact ih h.2 ht

/-- The children of a node: they are in the tree, distinct, and linked to it. -/
def HasChildren (links : α → Option (Links α)) (all : List α) (a : α) : Prop :=
  ∀ n, links a = some n → n.children.Nodup ∧
    ∀ b ∈ n.children, b ∈ all ∧ ∃ l, links b = some l ∧ l.parent = some a

mutual

theorem Shown.hasChildren {q : Option α} {a : α} :
    {t : LinkTree α} → Shown links q t → t.labels.Nodup → a ∈ t.labels →
      HasChildren links t.labels a
  | .node c ts, h, hnodup, ha => by
      obtain ⟨hroot, hchildren⟩ := h
      have hts := (List.nodup_cons.mp hnodup).2
      intro n hn
      rcases List.mem_cons.mp ha with rfl | ha
      · obtain rfl : _ = n := Option.some.inj (hroot.symm.trans hn)
        refine ⟨hts.sublist (map_label_sublist ts), ?_⟩
        intro b hb
        have hmem : b ∈ labelsAll ts := (map_label_sublist ts).subset hb
        obtain ⟨t, ht, rfl⟩ := List.mem_map.mp hb
        exact ⟨List.mem_cons_of_mem _ hmem, hchildren.parent_of_mem ht⟩
      · obtain ⟨hdistinct, hbelow⟩ := hchildren.hasChildren hts ha n hn
        refine ⟨hdistinct, ?_⟩
        intro b hb
        exact ⟨List.mem_cons_of_mem c (hbelow b hb).1, (hbelow b hb).2⟩

theorem ShownAll.hasChildren {q : Option α} {a : α} :
    {ts : List (LinkTree α)} → ShownAll links q ts → (labelsAll ts).Nodup → a ∈ labelsAll ts →
      HasChildren links (labelsAll ts) a
  | t :: ts, h, hnodup, ha => by
      obtain ⟨ht, hts, _⟩ := List.nodup_append.mp hnodup
      intro n hn
      rcases List.mem_append.mp ha with ha | ha
      · obtain ⟨hdistinct, hbelow⟩ := h.1.hasChildren ht ha n hn
        refine ⟨hdistinct, ?_⟩
        intro b hb
        exact ⟨List.mem_append_left _ (hbelow b hb).1, (hbelow b hb).2⟩
      · obtain ⟨hdistinct, hbelow⟩ := h.2.hasChildren hts ha n hn
        refine ⟨hdistinct, ?_⟩
        intro b hb
        exact ⟨List.mem_append_right _ (hbelow b hb).1, (hbelow b hb).2⟩

end

/-- A root that has got a parent. -/
theorem Shown.adopted {links' : α → Option (Links α)} {q q' : Option α} {t : LinkTree α}
    (h : Shown links q t) (hnodup : t.labels.Nodup)
    (hroot : links' t.label = (links t.label).map fun l ↦ ⟨q', l.children⟩)
    (hsame : ∀ a ∈ t.labels, a ≠ t.label → links' a = links a) : Shown links' q' t := by
  cases t with
  | node a ts =>
      obtain ⟨hlinks, hchildren⟩ := h
      have ha := (List.nodup_cons.mp hnodup).1
      constructor
      · rw [label_node, hlinks] at hroot
        exact hroot
      · apply hchildren.congr
        intro b hb
        exact hsame b (List.mem_cons_of_mem a hb) (ne_of_mem_of_not_mem hb ha)

/-- The links of `t` as the last child of `p`. -/
structure Adopts (links links' : α → Option (Links α)) (p : α) (t : LinkTree α) : Prop where
  child : Shown links' (some p) t
  parent : links' p = (links p).map fun l ↦ ⟨l.parent, l.children ++ [t.label]⟩
  same : ∀ a, a ≠ p → a ∉ t.labels → links' a = links a

section Attach

variable [DecidableEq α] {links' : α → Option (Links α)} {p : α} {t : LinkTree α}

mutual

theorem Shown.attach (hnew : Adopts links links' p t) {q : Option α} :
    {s : LinkTree α} → Shown links q s → p ∈ s.labels → (s.labels ++ t.labels).Nodup →
      Shown links' q (s.attach p t)
  | .node a ts, h, hp, hnodup => by
      obtain ⟨hlinks, hchildren⟩ := h
      obtain ⟨ha, hrest⟩ := List.nodup_cons.mp hnodup
      by_cases hap : a = p
      · subst hap
        rw [LinkTree.attach, if_pos rfl]
        have hparent := hnew.parent
        rw [hlinks] at hparent
        refine ⟨hparent.trans ?_, shownAll_append.mpr ⟨?_, hnew.child, trivial⟩⟩
        · simp only [Option.map_some, List.map_append, List.map_cons, List.map_nil]
        · apply hchildren.congr
          intro b hb
          apply hnew.same b
          · exact fun he ↦ ha (he ▸ List.mem_append_left _ hb)
          · exact fun hbt ↦ (List.nodup_append.mp hrest).2.2 b hb b hbt rfl
      · have hmem : p ∈ labelsAll ts := List.mem_of_ne_of_mem (Ne.symm hap) hp
        rw [LinkTree.attach, if_neg hap]
        constructor
        · rw [map_label_attachAll, hnew.same a hap fun hat ↦ ha (List.mem_append_right _ hat)]
          exact hlinks
        · exact hchildren.attachAll hnew hmem hrest

theorem ShownAll.attachAll (hnew : Adopts links links' p t) {q : Option α} :
    {ss : List (LinkTree α)} → ShownAll links q ss → p ∈ labelsAll ss →
      (labelsAll ss ++ t.labels).Nodup → ShownAll links' q (attachAll p ss t)
  | s :: ss, h, hp, hnodup => by
      obtain ⟨hall, htn, hdisj⟩ := List.nodup_append.mp hnodup
      obtain ⟨hs, hss, hapart⟩ := List.nodup_append.mp hall
      by_cases hmem : p ∈ s.labels
      · have hrest : p ∉ labelsAll ss := fun hr ↦ hapart p hmem p hr rfl
        rw [LinkTree.attachAll, attachAll_of_not_mem p t ss hrest]
        constructor
        · apply h.1.attach hnew hmem
          exact List.nodup_append.mpr
            ⟨hs, htn, fun b hb ↦ hdisj b (List.mem_append_left _ hb)⟩
        · apply h.2.congr
          intro b hb
          apply hnew.same b
          · exact fun he ↦ hrest (he ▸ hb)
          · exact fun hbt ↦ hdisj b (List.mem_append_right _ hb) b hbt rfl
      · have hrest : p ∈ labelsAll ss := (List.mem_append.mp hp).resolve_left hmem
        rw [LinkTree.attachAll, attach_of_not_mem p t s hmem]
        constructor
        · apply h.1.congr
          intro b hb
          apply hnew.same b
          · exact fun he ↦ hmem (he ▸ hb)
          · exact fun hbt ↦ hdisj b (List.mem_append_left _ hb) b hbt rfl
        · apply h.2.attachAll hnew hrest
          exact List.nodup_append.mpr
            ⟨hss, htn, fun b hb ↦ hdisj b (List.mem_append_right _ hb)⟩

end

end Attach

/-! ## No cycles -/

theorem idxOf_lt_of_pair_sublist [DecidableEq α] {xs : List α} (hnodup : xs.Nodup) {a b : α}
    (h : [a, b].Sublist xs) : xs.idxOf a < xs.idxOf b := by
  induction xs with
  | nil => cases h
  | cons x xs ih =>
      obtain ⟨hx, hxs⟩ := List.nodup_cons.mp hnodup
      cases h with
      | cons _ h =>
          have ha : x ≠ a := fun he ↦ hx (he ▸ h.subset List.mem_cons_self)
          have hb : x ≠ b := fun he ↦ hx (he ▸ h.subset (List.mem_cons_of_mem _ List.mem_cons_self))
          rw [List.idxOf_cons_ne _ ha, List.idxOf_cons_ne _ hb]
          exact Nat.succ_lt_succ (ih hxs h)
      | cons_cons _ h =>
          have hb : a ≠ b := fun he ↦ hx (he ▸ List.singleton_sublist.mp h)
          rw [List.idxOf_cons_self, List.idxOf_cons_ne _ hb]
          exact Nat.succ_pos _

/-- The links of a forest to the parents never lead back. -/
theorem ShownAll.acyclic [DecidableEq α] {ts : List (LinkTree α)} (h : ShownAll links none ts)
    (hnodup : (labelsAll ts).Nodup) (hall : ∀ b, links b ≠ none → b ∈ labelsAll ts) (a : α) :
    ¬ Relation.TransGen (fun b a ↦ (links b).bind Links.parent = some a) a a := by
  intro hcycle
  have hup : ∀ b a, (links b).bind Links.parent = some a →
      (labelsAll ts).idxOf a < (labelsAll ts).idxOf b := by
    intro b a hparent
    obtain ⟨l, hl, hla⟩ := Option.bind_eq_some_iff.mp hparent
    have hb : b ∈ labelsAll ts := hall b (hl ▸ Option.some_ne_none l)
    obtain ⟨m, hm, ⟨_, hnone⟩ | ⟨c, n, hc, hsub, _, _⟩⟩ := h.hasPlace hb
    · obtain rfl := Option.some.inj (hl.symm.trans hm)
      exact absurd (hnone.symm.trans hla) (Option.some_ne_none a).symm
    · obtain rfl := Option.some.inj (hl.symm.trans hm)
      obtain rfl := Option.some.inj (hc.symm.trans hla)
      exact idxOf_lt_of_pair_sublist hnodup hsub
  have hchain : ∀ b c, Relation.TransGen (fun b a ↦ (links b).bind Links.parent = some a) b c →
      (labelsAll ts).idxOf c < (labelsAll ts).idxOf b := by
    intro b c hbc
    induction hbc with
    | single h => exact hup _ _ h
    | tail _ h ih => exact (hup _ _ h).trans ih
  exact lt_irrefl _ (hchain a a hcycle)

/-- A node without a parent is the root of a tree of the forest. -/
theorem ShownAll.exists_root {ts : List (LinkTree α)} (h : ShownAll links none ts) {c : α}
    {l : Links α} (hc : c ∈ labelsAll ts) (hl : links c = some l) (hparent : l.parent = none) :
    ∃ before t after, ts = before ++ t :: after ∧ t.label = c := by
  obtain ⟨m, hm, ⟨hroot, _⟩ | ⟨a, n, ha, _⟩⟩ := h.hasPlace hc
  · obtain ⟨t, ht, rfl⟩ := List.mem_map.mp hroot
    obtain ⟨before, after, rfl⟩ := List.append_of_mem ht
    exact ⟨before, t, after, rfl, rfl⟩
  · obtain rfl := Option.some.inj (hl.symm.trans hm)
    exact absurd (hparent.symm.trans ha) (Option.some_ne_none a).symm

end LinkTree

end TinyCPlus.Library
