import TinyCPlus.Tui.OwnershipTrees

/-!
# Widgets are freed once

A run keeps the forest of the widgets, and the links of the window to live ones, as long
as it frees no widget that the window or another widget still has a link to.
-/

namespace TinyCPlus.Tui

open TinyCPlus.Library
open TinyCPlus.Library.LinkTree

namespace UiState

/-! ## The window -/

/-- The window has links to live widgets only. -/
def WindowLive (s : UiState) : Prop :=
  ∀ ui, s.window = some ui →
    (∀ r, ui.root = some r → s.live r = true) ∧ ∀ w, ui.focus = some w → s.live w = true

theorem WindowLive.of_live {s t : UiState} (h : s.WindowLive) (hwindow : t.window = s.window)
    (hlive : ∀ a, s.live a = true → t.live a = true) : t.WindowLive := by
  intro ui hui
  obtain ⟨hroot, hfocus⟩ := h ui (hwindow ▸ hui)
  exact ⟨fun r hr ↦ hlive r (hroot r hr), fun w hw ↦ hlive w (hfocus w hw)⟩

theorem focusAt_live {nodes : ℕ → Option Node} {target fuel w index a : ℕ}
    (h : (focusAt nodes target fuel w index).1 = some a) : (nodes a).isSome = true := by
  induction fuel generalizing w index a with
  | zero => cases h
  | succ fuel ih =>
      -- the loop over the children keeps what it has found
      have hloop : ∀ (children : List ℕ) (found : Option ℕ × ℕ),
          (∀ b, found.1 = some b → (nodes b).isSome = true) → ∀ b,
          (children.foldl (fun found child ↦
              if found.1.isSome then found else focusAt nodes target fuel child found.2)
            found).1 = some b → (nodes b).isSome = true := by
        intro children
        induction children with
        | nil => exact fun found hfound b hb ↦ hfound b hb
        | cons child rest ihrest =>
            intro found hfound
            apply ihrest
            intro b hb
            dsimp only at hb
            by_cases hsome : found.1.isSome = true
            · rw [if_pos hsome] at hb
              exact hfound b hb
            · rw [if_neg hsome] at hb
              exact ih hb
      rw [focusAt] at h
      cases hw : nodes w with
      | none =>
          rw [hw] at h
          cases h
      | some n =>
          rw [hw] at h
          dsimp only at h
          split at h
          · obtain rfl := Option.some.inj h
            rw [hw, Option.isSome_some]
          · exact hloop n.children _ (fun b hb ↦ absurd hb.symm (Option.some_ne_none b)) a h

theorem focusable_live {s : UiState} {root target a : ℕ} (h : s.focusable root target = some a) :
    s.live a = true := focusAt_live h

theorem hit_live {nodes : ℕ → Option Node} {x y : ℤ} {fuel w a : ℕ}
    (h : hit nodes x y fuel w = some a) : (nodes a).isSome = true := by
  induction fuel generalizing w a with
  | zero => cases h
  | succ fuel ih =>
      have hloop : ∀ (children : List ℕ) (last : Option ℕ),
          (∀ b, last = some b → (nodes b).isSome = true) → ∀ b,
          children.foldl (fun last child ↦ (hit nodes x y fuel child).or last) last = some b →
            (nodes b).isSome = true := by
        intro children
        induction children with
        | nil => exact fun last hlast b hb ↦ hlast b hb
        | cons child rest ihrest =>
            intro last hlast
            apply ihrest
            intro b hb
            rcases Option.or_eq_some_iff.mp hb with hb | ⟨_, hb⟩
            · exact ih hb
            · exact hlast b hb
      rw [hit] at h
      cases hw : nodes w with
      | none =>
          rw [hw] at h
          cases h
      | some n =>
          rw [hw] at h
          dsimp only at h
          split at h
          · cases h
          · split at h
            · rename_i found hfound
              obtain rfl := Option.some.inj h
              exact hloop n.children none (fun _ hb ↦ nomatch hb) _ hfound
            · split at h
              · obtain rfl := Option.some.inj h
                rw [hw, Option.isSome_some]
              · cases h

theorem WindowLive.setFocus {s : UiState} (h : s.WindowLive) {widget : Option ℕ}
    (hlive : ∀ w, widget = some w → s.live w = true) : (s.setFocus widget).WindowLive := by
  intro ui hui
  obtain ⟨old, hold, rfl⟩ := Option.map_eq_some_iff.mp hui
  exact ⟨(h old hold).1, hlive⟩

theorem window_dispatchKey (s : UiState) (w : ℕ) (n : Node) (key : ℤ) (cp : ℕ) :
    (s.dispatchKey w n key cp).1.window = s.window := by
  unfold dispatchKey
  split
  · rfl
  · split <;> rfl

theorem sameWidgets_dispatchKey (s : UiState) (w : ℕ) (n : Node) (key : ℤ) (cp : ℕ) :
    SameWidgets s (s.dispatchKey w n key cp).1 := by
  unfold dispatchKey
  split
  · exact .refl s
  · split
    · exact sameWidgets_modify s w fun _ ↦ rfl
    · exact .refl s

theorem sameWidgets_draw (s : UiState) (areas : ℕ → Rect) : SameWidgets s (s.draw areas) := by
  refine ⟨?_, rfl, rfl⟩
  funext a
  simp only [links, draw, Option.map_map]
  rfl

section Dispatch

variable {s : UiState} {ui : UiWindow} (h : s.WindowLive) (hui : s.window = some ui)

include h

theorem windowLive_dispatchKey (w : ℕ) (n : Node) (key : ℤ) (cp : ℕ) :
    (s.dispatchKey w n key cp).1.WindowLive :=
  h.of_live (window_dispatchKey s w n key cp) fun a ha ↦
    ((sameWidgets_dispatchKey s w n key cp).live a).trans ha

theorem windowLive_dispatchMouse (root : ℕ) (x y : ℤ) :
    (s.dispatchMouse root x y).1.WindowLive := by
  unfold dispatchMouse
  split
  · exact h
  · rename_i w hw
    apply h.setFocus
    rintro _ ⟨⟩
    exact hit_live hw

include hui

theorem windowLive_dispatchTab (root : ℕ) : (s.dispatchTab ui root).WindowLive := by
  have hroot := (h ui hui).1
  unfold dispatchTab
  dsimp only
  split
  · rename_i next hnext
    rintro _ ⟨⟩
    refine ⟨hroot, ?_⟩
    rintro _ ⟨⟩
    exact focusable_live hnext
  · rintro _ ⟨⟩
    exact ⟨hroot, fun w hw ↦ focusable_live hw⟩

/-- Events move the focus between live widgets, and they change no links. -/
theorem dispatch_keeps (e : UiEvent) :
    SameWidgets s (s.dispatch ui e).1 ∧ (s.dispatch ui e).1.WindowLive := by
  have hkey : SameWidgets s (dispatch.keyOfFocus s ui e).1 ∧
      (dispatch.keyOfFocus s ui e).1.WindowLive := by
    unfold dispatch.keyOfFocus
    split
    · exact ⟨.refl s, h⟩
    · split
      · exact ⟨.refl s, h⟩
      · exact ⟨sameWidgets_dispatchKey _ _ _ _ _, windowLive_dispatchKey h _ _ _ _⟩
  unfold dispatch
  split
  · exact ⟨.refl s, h⟩
  · split
    · rename_i root _
      dsimp only
      split
      · refine ⟨?_, windowLive_dispatchMouse h root e.x e.y⟩
        unfold dispatchMouse
        split <;> exact ⟨rfl, rfl, rfl⟩
      · split
        · exact ⟨.refl s, h⟩
        · split
          · refine ⟨?_, windowLive_dispatchTab h hui root⟩
            unfold dispatchTab
            dsimp only
            split <;> exact ⟨rfl, rfl, rfl⟩
          · exact hkey
    · split
      · exact ⟨.refl s, h⟩
      · exact hkey

end Dispatch

/-! ## Runs -/

/-- The operation frees no widget that the window or another widget keeps a link to.
Destroying a widget checks its parent, and not whether it is in the window; replacing
and closing the window check neither. -/
def careful (s : UiState) : UiOp → Bool
  | .destroy w =>
      (s.parentOf w).isSome || s.window.all fun ui ↦
        ui.root.all (fun r ↦ !s.below w r) && ui.focus.all (fun f ↦ !s.below w f)
  | .content root =>
      (root.bind s.parentOf).isSome || s.window.all fun ui ↦
        ui.root = root || ui.root.all fun r ↦ (s.parentOf r).isNone
  | .close => s.window.all fun ui ↦ ui.root.all fun r ↦ (s.parentOf r).isNone
  | _ => true

theorem Holds.destroy {s : UiState} {forest : List (LinkTree ℕ)} (h : s.Holds forest)
    (hlive : s.WindowLive) {w : ℕ} (hw : s.live w = true)
    (hcareful : s.careful (.destroy w) = true) :
    ∃ after, (s.destroy w).Holds after ∧ (s.destroy w).WindowLive := by
  unfold UiState.destroy
  split
  · rename_i hparent
    obtain ⟨before, t, after, rfl, rfl⟩ := h.exists_root hw hparent
    refine ⟨_, h.freeWidget, ?_⟩
    intro ui hui
    rw [h.window_freeWidget] at hui
    obtain ⟨hroot, hfocus⟩ := hlive ui hui
    simp only [careful, hparent, Option.isSome_none, Bool.false_or, hui, Option.all_some,
      Bool.and_eq_true] at hcareful
    have houtside : ∀ {link : Option ℕ}, (link.all fun r ↦ !s.below t.label r) = true →
        ∀ r, link = some r → r ∉ t.labels := by
      rintro link hall r rfl hr
      rw [Option.all_some, h.below_of_mem hr] at hall
      exact absurd hall Bool.false_ne_true
    constructor
    · exact fun r hr ↦ h.live_freeWidget.mpr ⟨hroot r hr, houtside hcareful.1 r hr⟩
    · exact fun f hf ↦ h.live_freeWidget.mpr ⟨hfocus f hf, houtside hcareful.2 f hf⟩
  · exact ⟨forest, h, hlive⟩

/-- The old content is freed, and the new one is live. -/
theorem Holds.content {s : UiState} {forest : List (LinkTree ℕ)} (h : s.Holds forest)
    (hlive : s.WindowLive) {ui : UiWindow} (hui : s.window = some ui) {root : Option ℕ}
    (hroot : ∀ r, root = some r → s.live r = true) (hcareful : s.careful (.content root) = true) :
    ∃ after, (s.content ui root).Holds after ∧ (s.content ui root).WindowLive := by
  unfold UiState.content
  split
  · exact ⟨forest, h, hlive⟩
  · rename_i hparent
    rw [ne_eq, not_not] at hparent
    dsimp only
    -- the window with its new content, once the old one is out of the way
    have hshow : ∀ (kept : UiState) (after : List (LinkTree ℕ)), kept.Holds after →
        (∀ r, root = some r → kept.live r = true) →
        ∃ after,
          ({ kept with window := some ⟨root, root.bind (kept.focusable · 0), 0⟩ } :
            UiState).Holds after ∧
          ({ kept with window := some ⟨root, root.bind (kept.focusable · 0), 0⟩ } :
            UiState).WindowLive := by
      intro kept after hkept hrootkept
      refine ⟨after, hkept.of_same ⟨rfl, rfl, rfl⟩, ?_⟩
      rintro _ ⟨⟩
      refine ⟨hrootkept, ?_⟩
      intro f hf
      obtain ⟨r, -, hr⟩ := Option.bind_eq_some_iff.mp hf
      exact focusable_live (s := kept) hr
    split
    · rename_i old hold
      split
      · rename_i hne
        have hnone : s.parentOf old = none := by
          simpa only [careful, hparent, Option.isSome_none, Bool.false_or, hui, Option.all_some,
            hold, Bool.or_eq_true, decide_eq_true_eq, hold ▸ hne, false_or, Option.isNone_iff_eq_none]
            using hcareful
        obtain ⟨before, t, after, rfl, rfl⟩ := h.exists_root ((hlive ui hui).1 old hold) hnone
        apply hshow _ _ h.freeWidget
        intro r hr
        apply h.live_freeWidget.mpr
        refine ⟨hroot r hr, ?_⟩
        intro hmem
        -- a widget of the old tree has a parent or is its root
        obtain ⟨l, hl, ⟨hrt, -⟩ | ⟨a, n, ha, -⟩⟩ := h.tree_shown.hasPlace hmem
        · exact hne (by rw [hold, hr, List.mem_singleton.mp hrt])
        · rw [hr, Option.bind_some, parentOf_eq, hl, Option.bind_some, ha] at hparent
          cases hparent
      · exact hshow s forest h hroot
    · exact hshow s forest h hroot

theorem Holds.close {s : UiState} {forest : List (LinkTree ℕ)} (h : s.Holds forest)
    (hlive : s.WindowLive) {ui : UiWindow} (hui : s.window = some ui)
    (hcareful : s.careful .close = true) :
    ∃ after, (s.close ui).Holds after ∧ (s.close ui).WindowLive := by
  unfold UiState.close
  dsimp only
  split
  · rename_i root hroot
    have hnone : s.parentOf root = none := by
      simpa only [careful, hui, Option.all_some, hroot, Option.isNone_iff_eq_none] using hcareful
    obtain ⟨before, t, after, rfl, rfl⟩ := h.exists_root ((hlive ui hui).1 root hroot) hnone
    refine ⟨_, h.freeWidget.of_same ⟨rfl, rfl, rfl⟩, ?_⟩
    rintro _ ⟨⟩
  · refine ⟨forest, h.of_same ⟨rfl, rfl, rfl⟩, ?_⟩
    rintro _ ⟨⟩

/-- Every widget is freed at most once, the window has no freed widget, and the links
form a forest. -/
structure Sound (s : UiState) : Prop where
  freed_once : s.freed.Nodup
  freed_gone : ∀ a ∈ s.freed, s.nodes a = none
  root_kept : ∀ ui r, s.window = some ui → ui.root = some r → r ∉ s.freed
  focus_kept : ∀ ui w, s.window = some ui → ui.focus = some w → w ∉ s.freed
  child_linked : ∀ p n c, s.nodes p = some n → c ∈ n.children →
    ∃ m, s.nodes c = some m ∧ m.parent = some p
  parent_linked : ∀ c m p, s.nodes c = some m → m.parent = some p →
    ∃ n, s.nodes p = some n ∧ c ∈ n.children
  children_nodup : ∀ p n, s.nodes p = some n → n.children.Nodup
  one_parent : ∀ p q n m c, s.nodes p = some n → s.nodes q = some m →
    c ∈ n.children → c ∈ m.children → p = q
  acyclic : ∀ a, ¬ Relation.TransGen (fun c p ↦ s.parentOf c = some p) a a

theorem live_of_nodes {s : UiState} {a : ℕ} {n : Node} (hn : s.nodes a = some n) :
    s.live a = true := by
  rw [live, hn, Option.isSome_some]

theorem links_of_nodes {s : UiState} {a : ℕ} {n : Node} (hn : s.nodes a = some n) :
    s.links a = some n.links := by
  rw [links, hn, Option.map_some]

theorem nodes_of_links {s : UiState} {a : ℕ} {l : Links ℕ} (hl : s.links a = some l) :
    ∃ n, s.nodes a = some n ∧ n.links = l := Option.map_eq_some_iff.mp hl

theorem Holds.child_linked {s : UiState} {forest : List (LinkTree ℕ)} (h : s.Holds forest) {p c : ℕ}
    {n : Node} (hn : s.nodes p = some n) (hc : c ∈ n.children) :
    ∃ m, s.nodes c = some m ∧ m.parent = some p := by
  have hmem := (h.live_iff p).mp (live_of_nodes hn)
  have hkids := h.shown.hasChildren h.nodup hmem n.links (links_of_nodes hn)
  obtain ⟨-, l, hl, hparent⟩ := hkids.2 c hc
  obtain ⟨m, hm, rfl⟩ := nodes_of_links hl
  exact ⟨m, hm, hparent⟩

theorem Holds.sound {s : UiState} {forest : List (LinkTree ℕ)} (h : s.Holds forest)
    (hlive : s.WindowLive) : s.Sound := by
  have hgone : ∀ a, s.live a = true → a ∉ s.freed := by
    intro a ha hfreed
    exact Bool.false_ne_true ((h.freed_gone a hfreed).symm.trans ha)
  constructor
  · exact h.freed_nodup
  · intro a ha
    have hgone := h.freed_gone a ha
    rwa [live, Option.isSome_eq_false_iff, Option.isNone_iff_eq_none] at hgone
  · exact fun ui r hui hr ↦ hgone r ((hlive ui hui).1 r hr)
  · exact fun ui w hui hw ↦ hgone w ((hlive ui hui).2 w hw)
  · exact fun p n c hn hc ↦ h.child_linked hn hc
  · intro c m p hm hparent
    have hmem := (h.live_iff c).mp (live_of_nodes hm)
    obtain ⟨l, hl, hplace⟩ := h.shown.hasPlace hmem
    obtain rfl := Option.some.inj ((links_of_nodes hm).symm.trans hl)
    rcases hplace with ⟨-, hnone⟩ | ⟨a, k, ha, -, hk, hck⟩
    · exact absurd (hnone.symm.trans hparent) (Option.some_ne_none p).symm
    · obtain rfl := Option.some.inj (ha.symm.trans hparent)
      obtain ⟨n, hn, rfl⟩ := nodes_of_links hk
      exact ⟨n, hn, hck⟩
  · intro p n hn
    have hmem := (h.live_iff p).mp (live_of_nodes hn)
    exact (h.shown.hasChildren h.nodup hmem n.links (links_of_nodes hn)).1
  · intro p q n m c hn hm hcn hcm
    obtain ⟨k, hk, hp⟩ := h.child_linked hn hcn
    obtain ⟨k', hk', hq⟩ := h.child_linked hm hcm
    obtain rfl := Option.some.inj (hk.symm.trans hk')
    exact Option.some.inj (hp.symm.trans hq)
  · intro a
    simp only [parentOf_eq]
    exact h.shown.acyclic h.nodup (fun b hb ↦ (h.live_iff b).mp (live_iff_links.mpr hb)) a

/-- The state at every point of a careful run. -/
def Kept (s : UiState) : Prop := (∃ forest, s.Holds forest) ∧ s.WindowLive

theorem kept_opened : opened.Kept := by
  refine ⟨⟨[], trivial, List.nodup_nil, ?_, ?_, ?_, List.nodup_nil, ?_⟩, ?_⟩
  · exact fun a ↦ ⟨fun h ↦ absurd h Bool.false_ne_true, fun h ↦ absurd h List.not_mem_nil⟩
  · exact fun a ha ↦ absurd ha List.not_mem_nil
  · exact fun a ha ↦ absurd ha List.not_mem_nil
  · exact fun a ha ↦ absurd ha List.not_mem_nil
  · rintro _ ⟨⟩
    exact ⟨fun _ hr ↦ absurd hr.symm (Option.some_ne_none _),
      fun _ hw ↦ absurd hw.symm (Option.some_ne_none _)⟩

theorem Kept.of_same {s t : UiState} (h : s.Kept) (hsame : SameWidgets s t)
    (hlive : t.WindowLive) : t.Kept := by
  obtain ⟨⟨forest, hforest⟩, -⟩ := h
  exact ⟨⟨forest, hforest.of_same hsame⟩, hlive⟩

theorem Kept.exec {s : UiState} (h : s.Kept) {op : UiOp} (htakes : s.takes op = true)
    (hcareful : s.careful op = true) : (s.exec op).Kept := by
  obtain ⟨⟨forest, hforest⟩, hlive⟩ := id h
  cases op with
  | create kind text width height =>
      refine ⟨⟨_, hforest.create kind text width height⟩, hlive.of_live rfl ?_⟩
      intro a ha
      have hne : a ≠ s.next := (hforest.live_lt a ((hforest.live_iff a).mp ha)).ne
      simpa only [UiState.exec, UiState.live, UiState.create, Function.update_of_ne hne] using ha
  | add p c =>
      obtain ⟨after, hafter, hwindow, hsame⟩ := hforest.add p c
      exact ⟨⟨after, hafter⟩, hlive.of_live hwindow fun a ha ↦ (hsame a).trans ha⟩
  | content root =>
      simp only [takes, Bool.and_eq_true] at htakes
      obtain ⟨ui, hui⟩ := Option.isSome_iff_exists.mp htakes.1
      have hroot : ∀ r, root = some r → s.live r = true := by
        rintro r rfl
        exact htakes.2
      obtain ⟨after, hafter, hwindow⟩ := hforest.content hlive hui hroot hcareful
      rw [UiState.exec, hui, Option.elim_some]
      exact ⟨⟨after, hafter⟩, hwindow⟩
  | focus widget =>
      simp only [takes, Bool.and_eq_true] at htakes
      refine h.of_same ⟨rfl, rfl, rfl⟩ (hlive.setFocus ?_)
      rintro w rfl
      exact htakes.2
  | onClick w invoke =>
      have hsame : SameWidgets s (s.onClick w invoke) := sameWidgets_modify s w fun _ ↦ rfl
      exact h.of_same hsame (hlive.of_live rfl fun a ha ↦ (hsame.live a).trans ha)
  | destroy w =>
      obtain ⟨after, hafter, hwindow⟩ := hforest.destroy hlive htakes hcareful
      exact ⟨⟨after, hafter⟩, hwindow⟩
  | draw areas =>
      have hsame := sameWidgets_draw s areas
      exact h.of_same hsame (hlive.of_live rfl fun a ha ↦ (hsame.live a).trans ha)
  | dispatch event =>
      obtain ⟨ui, hui⟩ := Option.isSome_iff_exists.mp htakes
      obtain ⟨hsame, hwindow⟩ := dispatch_keeps hlive hui event
      rw [UiState.exec, hui, Option.elim_some]
      exact h.of_same hsame hwindow
  | close =>
      obtain ⟨ui, hui⟩ := Option.isSome_iff_exists.mp htakes
      obtain ⟨after, hafter, hwindow⟩ := hforest.close hlive hui hcareful
      rw [UiState.exec, hui, Option.elim_some]
      exact ⟨⟨after, hafter⟩, hwindow⟩

end UiState

/-- Along a run that frees no widget that is still linked to, every widget is freed at
most once, the window has no freed widget, and the links form a forest. -/
theorem careful_runs_are_sound (ops : List UiOp) {s : UiState}
    (hrun : (uiRuns.restrict fun s op ↦ s.careful op = true).run UiState.opened ops = some s) :
    s.Sound := by
  have hkept : s.Kept := by
    apply Transitions.run_invariant ?_ UiState.kept_opened hrun
    intro s op t hs hstep
    obtain ⟨hcareful, hstep⟩ := Transitions.restrict_step_eq_some.mp hstep
    obtain ⟨htakes, hexec⟩ := Option.ite_none_right_eq_some.mp hstep
    exact Option.some.inj hexec ▸ hs.exec htakes hcareful
  obtain ⟨⟨forest, hforest⟩, hlive⟩ := hkept
  exact hforest.sound hlive

/-- A button in a column is shown, clicked at and focused; a label is destroyed. -/
def shownButton : List UiOp :=
  [.create .column [] 0 0, .create .button [79, 75] 0 1, .add 0 1, .create .label [] 0 1,
    .content (some 0), .focus (some 1), .destroy 2, .destroy 1, .close]

theorem careful_runs_are_sound_shown :
    ∃ s, (uiRuns.restrict fun s op ↦ s.careful op = true).run UiState.opened shownButton = some s ∧
      s.freed = [2, 1, 0] ∧ s.Sound :=
  ⟨_, rfl, rfl, careful_runs_are_sound shownButton rfl⟩

/-- A widget that is destroyed while it is the content of the window is freed again with
the window. -/
theorem destroyed_content_is_freed_again :
    ∃ s, uiRuns.run UiState.opened
        [.create .column [] 0 0, .content (some 0), .destroy 0, .close] = some s ∧
      s.freed = [0, 0] ∧ ¬ s.Sound :=
  ⟨_, rfl, rfl, fun h ↦ absurd h.freed_once (by decide)⟩

end TinyCPlus.Tui
