import TinyCPlus.Tui.Dispatch

/-!
# The order of the Tab key

`tc_ui_dispatch` looks for the focus by its index among the buttons and text boxes of the tree, in
the order of a walk from the root, and takes the next one.  When the focus is none of them it
starts with the first.
-/

namespace TinyCPlus.Tui

namespace TcWidget

/-- The buttons and text boxes of the tree in preorder. -/
def focusables (w : TcWidget) : List ℕ := (w.fields.filter (·.focusable)).map (·.address)

def focusablesAll (ws : List TcWidget) : List ℕ := ws.flatMap focusables

theorem allSubtrees_eq (ws : List TcWidget) : allSubtrees ws = ws.flatMap subtrees := by
  induction ws with
  | nil => rfl
  | cons w ws ih => rw [allSubtrees, ih, List.flatMap_cons]

theorem focusables_mk (own : WidgetFields) (children : List TcWidget) :
    (mk own children).focusables =
      (if own.focusable then [own.address] else []) ++ focusablesAll children := by
  have hchildren : (((allSubtrees children).map TcWidget.own).filter (·.focusable)).map (·.address) =
      focusablesAll children := by
    rw [allSubtrees_eq, focusablesAll]
    induction children with
    | nil => rfl
    | cons w ws ih =>
        simp only [List.flatMap_cons, List.map_append, List.filter_append, ih]
        rfl
  simp only [focusables, fields, subtrees, List.map_cons, own_mk, List.filter_cons]
  rw [← hchildren]
  split <;> rfl

/-- What the search gives over a list of widgets whose focusable ones are `found`. -/
def searched (found : List ℕ) (target index : ℕ) : Option ℕ × ℕ :=
  (found[target - index]?,
    if target - index < found.length then target + 1 else index + found.length)

theorem searched_cons {a : ℕ} {found : List ℕ} {target index : ℕ} (h : index < target) :
    searched (a :: found) target index = searched found target (index + 1) := by
  obtain ⟨d, hd⟩ : ∃ d, target - index = d + 1 := ⟨target - index - 1, by omega⟩
  have hd' : target - (index + 1) = d := by omega
  simp only [searched, hd, hd', List.getElem?_cons_succ, List.length_cons]
  congr 1
  split <;> split <;> omega

theorem searched_append_left {found rest : List ℕ} {target index : ℕ}
    (h : target - index < found.length) :
    searched (found ++ rest) target index = (some found[target - index], target + 1) := by
  have hlt : target - index < (found ++ rest).length := by
    rw [List.length_append]
    omega
  rw [searched, List.getElem?_append_left h, List.getElem?_eq_getElem h, if_pos hlt]

theorem searched_append_right {found rest : List ℕ} {target index : ℕ}
    (h : found.length ≤ target - index) :
    searched (found ++ rest) target index = searched rest target (index + found.length) := by
  have hsub : target - (index + found.length) = target - index - found.length := by omega
  simp only [searched, List.getElem?_append_right h, hsub, List.length_append]
  congr 1
  split <;> split <;> omega

mutual

theorem focusAt_eq (target : ℕ) : ∀ (w : TcWidget) {index : ℕ}, index ≤ target →
    w.focusAt target index = searched w.focusables target index
  | .mk own children, index, h => by
      rw [focusAt, focusables_mk]
      split
      · rcases h.eq_or_lt with rfl | hlt
        · simp [searched]
        · rw [if_neg hlt.ne, focusAtChildren_eq target children hlt, List.singleton_append,
            searched_cons hlt]
      · rw [focusAtChildren_eq target children h, List.nil_append]

theorem focusAtChildren_eq (target : ℕ) : ∀ (ws : List TcWidget) {index : ℕ}, index ≤ target →
    focusAtChildren target ws index = searched (focusablesAll ws) target index
  | [], index, h => by simp [focusAtChildren, searched, focusablesAll]
  | w :: ws, index, h => by
      rw [focusAtChildren, focusAt_eq target w h, focusablesAll, List.flatMap_cons]
      by_cases hfound : target - index < w.focusables.length
      · rw [searched_append_left hfound, searched, List.getElem?_eq_getElem hfound,
          if_pos hfound]
      · have hle := not_lt.mp hfound
        rw [searched_append_right hle, searched, List.getElem?_eq_none hle, if_neg hfound]
        exact focusAtChildren_eq target ws (by omega)

end

/-- The search finds the widget with the given number. -/
theorem focusAt_zero (w : TcWidget) (target : ℕ) :
    (w.focusAt target 0).1 = w.focusables[target]? := by
  rw [focusAt_eq target w (Nat.zero_le target)]
  rfl

theorem length_focusables_le (w : TcWidget) : w.focusables.length ≤ w.subtrees.length := by
  rw [focusables, List.length_map]
  exact (List.length_filter_le _ _).trans_eq (List.length_map _)

/-- The number of the focus, or the number of widgets when it is none of them. -/
def focusPlace (root : TcWidget) : Option ℕ → ℕ
  | some a => root.focusables.idxOf a
  | none => root.focusables.length

/-- The loop stops at the focus or behind the last widget. -/
theorem tabTarget_eq {root : TcWidget} (hnodup : root.focusables.Nodup) (focus : Option ℕ)
    {fuel target : ℕ} (hfuel : root.focusables.length < fuel + target) (hle : target ≤ root.focusables.length)
    (hbefore : ∀ i < target, root.focusables[i]? ≠ focus) :
    root.tabTarget focus fuel target = root.focusPlace focus := by
  induction fuel generalizing target with
  | zero => omega
  | succ fuel ih =>
      rw [tabTarget, focusAt_zero]
      rcases hle.eq_or_lt with rfl | hlt
      · rw [List.getElem?_eq_none le_rfl]
        cases focus with
        | none => rfl
        | some a =>
            refine (List.idxOf_eq_length fun hmem ↦ ?_).symm
            obtain ⟨i, hi, rfl⟩ := List.mem_iff_getElem.mp hmem
            exact hbefore i hi (List.getElem?_eq_getElem hi)
      · rw [List.getElem?_eq_getElem hlt]
        dsimp only
        split
        · rename_i heq
          rw [← heq]
          exact (hnodup.idxOf_getElem target hlt).symm
        · rename_i hne
          refine ih (by omega) hlt fun i hi ↦ ?_
          rcases Nat.lt_succ_iff_lt_or_eq.mp hi with hi | rfl
          · exact hbefore i hi
          · rwa [List.getElem?_eq_getElem hlt]

end TcWidget

/-! ## Tab keys -/

/-- A tree in which the pointers to the widgets are different. -/
structure WidgetTree where
  root : TcWidget
  nodup : (root.fields.map (·.address)).Nodup

namespace WidgetTree

variable (t : WidgetTree)

theorem nodup_focusables : t.root.focusables.Nodup :=
  t.nodup.sublist ((List.filter_sublist ..).map _)

/-- The number of the widget to which the Tab key goes. -/
def tabPlace (focus : Option ℕ) : ℕ :=
  if t.root.focusPlace focus + 1 < t.root.focusables.length then t.root.focusPlace focus + 1 else 0

theorem dispatchTab_focus (ui : TcUi) :
    (ui.dispatchTab t.root).focus = t.root.focusables[t.tabPlace ui.focus]? := by
  have hfuel : t.root.focusables.length < t.root.subtrees.length + 1 + 0 := by
    have hle := t.root.length_focusables_le
    omega
  have htarget := TcWidget.tabTarget_eq t.nodup_focusables ui.focus hfuel (Nat.zero_le _)
    fun i hi ↦ absurd hi (Nat.not_lt_zero i)
  simp only [TcUi.dispatchTab, TcWidget.focusAt_zero, htarget, tabPlace]
  split
  · rename_i next hnext
    rw [if_pos (List.getElem?_eq_some_iff.mp hnext).1, hnext]
  · rename_i hnone
    rw [if_neg (not_lt.mpr (List.getElem?_eq_none_iff.mp hnone))]

/-- From a button or a text box the Tab key goes to the next one around. -/
theorem tabPlace_get {i : ℕ} (hi : i < t.root.focusables.length) :
    t.tabPlace (some t.root.focusables[i]) = (i + 1) % t.root.focusables.length := by
  have hplace : t.root.focusPlace (some t.root.focusables[i]) = i :=
    t.nodup_focusables.idxOf_getElem i hi
  rw [tabPlace, hplace]
  split
  · rw [Nat.mod_eq_of_lt ‹_›]
  · have hlast : t.root.focusables.length = i + 1 := by omega
    rw [hlast, Nat.mod_self]

end WidgetTree

/-- `tc_ui_dispatch` with the Tab key; the other fields of the event are not read. -/
def pressTab (e : UiEvent) (ui : TcUi) : TcUi := (ui.dispatch { e with kind := 1, key := 9 }).1

/-- Where the focus is after each of so many Tab keys on a window with a tree. -/
def tabFoci (t : WidgetTree) (ui : TcUi) (e : UiEvent) (count : ℕ) : List (Option ℕ) :=
  (List.range count).map fun i ↦ ((pressTab e)^[i + 1] { ui with root := some t.root }).focus

section

variable (t : WidgetTree) (e : UiEvent)

theorem pressTab_eq {ui : TcUi} (hroot : ui.root = some t.root) :
    (pressTab e ui).root = some t.root ∧
      (pressTab e ui).focus = t.root.focusables[t.tabPlace ui.focus]? := by
  have hpress : pressTab e ui = ui.dispatchTab t.root := by
    simp [pressTab, TcUi.dispatch, hroot]
  rw [hpress, t.dispatchTab_focus]
  refine ⟨?_, rfl⟩
  unfold TcUi.dispatchTab
  dsimp only
  split
  · exact hroot
  · exact hroot

/-- Every Tab key moves the focus on by one place. -/
theorem iterate_pressTab (ui : TcUi) (hroot : ui.root = some t.root)
    (hsome : 0 < t.root.focusables.length) (i : ℕ) :
    ((pressTab e)^[i + 1] ui).root = some t.root ∧
      ((pressTab e)^[i + 1] ui).focus =
        t.root.focusables[(t.tabPlace ui.focus + i) % t.root.focusables.length]? := by
  induction i with
  | zero =>
      obtain ⟨hroot', hfocus⟩ := pressTab_eq t e hroot
      have hplace : t.tabPlace ui.focus < t.root.focusables.length := by
        unfold WidgetTree.tabPlace
        split <;> assumption
      simp only [zero_add, Nat.add_zero, Function.iterate_one, Nat.mod_eq_of_lt hplace]
      exact ⟨hroot', hfocus⟩
  | succ i ih =>
      obtain ⟨hroot', hfocus⟩ := ih
      have hlt := Nat.mod_lt (t.tabPlace ui.focus + i) hsome
      rw [List.getElem?_eq_getElem hlt] at hfocus
      obtain ⟨hroot'', hnext⟩ := pressTab_eq t e hroot'
      rw [Function.iterate_succ_apply']
      refine ⟨hroot'', ?_⟩
      rw [hnext, hfocus, t.tabPlace_get hlt, Nat.mod_add_mod, Nat.add_assoc]

/-- As many Tab keys as there are buttons and text boxes give the focus to each of them once, in
preorder and around, from the one after the focus, or from the first when the focus is none of
them; when it is one of them they end on it. -/
theorem tabFoci_eq (ui : TcUi) :
    t.root.focusables.Nodup ∧
      tabFoci t ui e t.root.focusables.length =
        (t.root.focusables.rotate (t.tabPlace ui.focus)).map some ∧
      ∀ a ∈ t.root.focusables, ui.focus = some a →
        (tabFoci t ui e t.root.focusables.length).getLast? = some (some a) := by
  have hfoci : tabFoci t ui e t.root.focusables.length =
      (t.root.focusables.rotate (t.tabPlace ui.focus)).map some := by
    refine List.ext_getElem (by simp [tabFoci]) fun i hi hi' ↦ ?_
    have hlt : i < t.root.focusables.length := by simpa [tabFoci] using hi
    have hstep := (iterate_pressTab t e { ui with root := some t.root } rfl
      (Nat.zero_lt_of_lt hlt) i).2
    have hmod := Nat.mod_lt (t.tabPlace ui.focus + i) (Nat.zero_lt_of_lt hlt)
    simp only [tabFoci, List.getElem_map, List.getElem_range, List.getElem_rotate]
    rw [hstep, List.getElem?_eq_getElem hmod]
    simp only [Nat.add_comm]
  refine ⟨t.nodup_focusables, hfoci, fun a ha hfocus ↦ ?_⟩
  obtain ⟨i, hi, rfl⟩ := List.mem_iff_getElem.mp ha
  obtain ⟨m, hm⟩ : ∃ m, t.root.focusables.length = m + 1 :=
    ⟨t.root.focusables.length - 1, by omega⟩
  have hstep := (iterate_pressTab t e { ui with root := some t.root } rfl
    (Nat.zero_lt_of_lt hi) m).2
  have hround : (t.tabPlace ui.focus + m) % t.root.focusables.length = i := by
    rw [hfocus, t.tabPlace_get hi, Nat.mod_add_mod,
      show i + 1 + m = i + t.root.focusables.length by omega, Nat.add_mod_right,
      Nat.mod_eq_of_lt hi]
  rw [tabFoci, hm, List.range_succ, List.map_append, List.map_singleton, List.getLast?_concat,
    hstep, hround, List.getElem?_eq_getElem hi]

/-- The buttons and text boxes behind the focus in preorder, then those before it; all of them when
the focus is not in the tree. -/
def behindFocus (root : TcWidget) (focus : Option ℕ) : List ℕ :=
  let place := match focus with
    | some a => (root.fields.map (·.address)).idxOf a + 1
    | none => 0
  ((root.fields.drop place ++ root.fields.take place).filter (·.focusable)).map (·.address)

/-- A panel with a button, a label and another button. -/
def buttonsAndLabel : WidgetTree where
  root := .mk (.create 1 .panel [] 0 0)
    [.mk (.create 2 .button [] 0 0) [], .mk (.create 3 .label [] 0 0) [],
      .mk (.create 4 .button [] 0 0) []]
  nodup := by decide

/-- With the focus on the label the first Tab key goes back to the button before it. -/
theorem not_forall_behindFocus : ¬∀ (t : WidgetTree) (ui : TcUi) (e : UiEvent),
    tabFoci t ui e t.root.focusables.length = (behindFocus t.root ui.focus).map some := by
  intro hall
  have hfirst := hall buttonsAndLabel ⟨0, 0, [], [], none, some 3, 0⟩ ⟨1, 9, 0, 0, 0, 0, 9⟩
  revert hfirst
  decide

end

end TinyCPlus.Tui
