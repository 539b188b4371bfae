import TinyCPlus.Tui.Layout

/-!
# Drawing stays inside the areas

An operation is within an area if all its stores go to cells of the area that the
window has.  What a widget of a laid-out tree draws is within its area.
-/

namespace TinyCPlus.Tui

/-- All stores of the operation go to cells of the window that belong to `area`. -/
def DrawOp.Within (columns rows : ℕ) (area : Rect) (op : DrawOp) : Prop :=
  ∀ s ∈ op.stores columns rows,
    ∃ x y : ℕ, x < columns ∧ y < rows ∧ area.Mem x y ∧ s.index = y * columns + x

variable {columns rows : ℕ} {area outer : Rect}

theorem DrawOp.Within.mono {op : DrawOp} (h : op.Within columns rows area)
    (hin : area.Inside outer) : op.Within columns rows outer := by
  intro s hs
  obtain ⟨x, y, hx, hy, hmem, hindex⟩ := h s hs
  exact ⟨x, y, hx, hy, hin.mem hmem, hindex⟩

/-- The index of a cell of the window. -/
theorem cell_lt {x y : ℕ} (hx : x < columns) (hy : y < rows) : y * columns + x < columns * rows :=
  calc
    y * columns + x < y * columns + columns := Nat.add_lt_add_left hx _
    _ = (y + 1) * columns := (Nat.succ_mul y columns).symm
    _ ≤ rows * columns := Nat.mul_le_mul_right _ hy
    _ = columns * rows := Nat.mul_comm _ _

theorem cell_inj {x y x' y' : ℕ} (hx : x < columns) (hx' : x' < columns)
    (h : y * columns + x = y' * columns + x') : x = x' ∧ y = y' := by
  have hmod := congrArg (· % columns) h
  have hdiv := congrArg (· / columns) h
  have hpos : 0 < columns := by omega
  simp only [Nat.mul_add_mod_self_right, Nat.mod_eq_of_lt hx, Nat.mod_eq_of_lt hx'] at hmod
  rw [Nat.mul_comm y, Nat.mul_comm y'] at hdiv
  simp only [Nat.mul_add_div hpos, Nat.div_eq_of_lt hx, Nat.div_eq_of_lt hx'] at hdiv
  exact ⟨hmod, by omega⟩

theorem DrawOp.Within.index_lt {op : DrawOp} (h : op.Within columns rows area) :
    ∀ s ∈ op.stores columns rows, s.index < columns * rows := by
  intro s hs
  obtain ⟨x, y, hx, hy, -, hindex⟩ := h s hs
  rw [hindex]
  exact cell_lt hx hy

/-! ## One operation -/

/-- A put whose glyph has room in the area stays in it. -/
theorem put_within {x y : ℤ} {cp fg bg : ℕ} (hx : area.x ≤ x)
    (hroom : x + uiWidth cp ≤ area.x + area.width) (hy : area.y ≤ y)
    (hy' : y < area.y + area.height) : (DrawOp.put x y cp fg bg).Within columns rows area := by
  intro s hs
  rw [DrawOp.stores] at hs
  by_cases hout : x < 0 ∨ columns ≤ x ∨ y < 0 ∨ rows ≤ y
  · rw [putStores_outside hout] at hs
    cases hs
  · push Not at hout
    obtain ⟨hx0, hxc, hy0, hyr⟩ := hout
    obtain ⟨i, rfl⟩ := Int.eq_ofNat_of_zero_le hx0
    obtain ⟨j, rfl⟩ := Int.eq_ofNat_of_zero_le hy0
    have hone := uiWidth_cases cp
    have hfirst : area.Mem i j := ⟨hx, by omega, hy, hy'⟩
    rw [putStores_inside (by omega) (by omega)] at hs
    rcases putCell_width columns i cp fg bg with hnarrow | ⟨hwide, hcp, hnext⟩
    · rw [if_neg (by omega), List.mem_singleton] at hs
      subst hs
      exact ⟨i, j, by omega, by omega, hfirst, rfl⟩
    · rw [if_pos hwide, List.mem_cons, List.mem_singleton] at hs
      rcases hs with rfl | rfl
      · exact ⟨i, j, by omega, by omega, hfirst, rfl⟩
      · exact ⟨i + 1, j, by omega, by omega, ⟨by omega, by omega, hy, hy'⟩, rfl⟩

theorem caret_within {x y : ℤ} (hmem : area.Mem x y)
    (hin : area.Inside ⟨0, 0, columns, rows⟩) : (DrawOp.caret x y).Within columns rows area := by
  intro s hs
  rw [DrawOp.stores, List.mem_singleton] at hs
  subst hs
  obtain ⟨hx0, hxc, hy0, hyr⟩ := hin.mem hmem
  obtain ⟨i, rfl⟩ := Int.eq_ofNat_of_zero_le hx0
  obtain ⟨j, rfl⟩ := Int.eq_ofNat_of_zero_le hy0
  simp only [zero_add] at hxc hyr
  exact ⟨i, j, by omega, by omega, hmem, cellIndex_natCast columns i j⟩

/-! ## The drawing loops -/

theorem tabLoop_le (start y width : ℤ) (fg bg spaces : ℕ) (x : ℤ) :
    x ≤ (tabLoop start y width fg bg spaces x).2 := by
  induction spaces generalizing x with
  | zero => exact le_rfl
  | succ spaces ih =>
      rw [tabLoop]
      split
      · exact (Int.le_add_one le_rfl).trans (ih _)
      · exact le_rfl

theorem uiWidth_space : uiWidth 32 = 1 := by decide

theorem tabLoop_within {start y width : ℤ} (hstart : area.x ≤ start)
    (hwidth : start + width ≤ area.x + area.width) (hy : area.y ≤ y)
    (hy' : y < area.y + area.height) (fg bg spaces : ℕ) {x : ℤ} (hx : start ≤ x) :
    ∀ op ∈ (tabLoop start y width fg bg spaces x).1, op.Within columns rows area := by
  induction spaces generalizing x with
  | zero => exact fun op hop ↦ absurd hop List.not_mem_nil
  | succ spaces ih =>
      intro op hop
      rw [tabLoop] at hop
      split at hop
      · rw [List.mem_cons] at hop
        rcases hop with rfl | hop
        · exact put_within (by omega) (by rw [uiWidth_space]; omega) hy hy'
        · exact ih (by omega) op hop
      · cases hop

theorem textClipLoop_within (text : List UInt8) {start y width : ℤ} (hstart : area.x ≤ start)
    (hwidth : start + width ≤ area.x + area.width) (hy : area.y ≤ y)
    (hy' : y < area.y + area.height) (fg bg fuel p : ℕ) {x : ℤ} (hx : start ≤ x) :
    ∀ op ∈ textClipLoop text start y width fg bg fuel p x, op.Within columns rows area := by
  induction fuel generalizing p x with
  | zero => exact fun op hop ↦ absurd hop List.not_mem_nil
  | succ fuel ih =>
      intro op hop
      rw [textClipLoop] at hop
      dsimp only at hop
      split_ifs at hop with hmore hnewline htab hlong
      · cases hop
      · rw [List.mem_append] at hop
        rcases hop with hop | hop
        · exact tabLoop_within hstart hwidth hy hy' fg bg _ hx op hop
        · exact ih _ (hx.trans (tabLoop_le _ _ _ _ _ _ _)) op hop
      · cases hop
      · rw [List.mem_cons] at hop
        rcases hop with rfl | hop
        · exact put_within (by omega) (by omega) hy hy'
        · exact ih _ (by omega) op hop
      · cases hop

/-- A clipped text in the area stays in it. -/
theorem textClip_within (text : List UInt8) {x y width : ℤ} (hx : area.x ≤ x)
    (hwidth : x + width ≤ area.x + area.width) (hy : area.y ≤ y)
    (hy' : y < area.y + area.height) (fg bg : ℕ) :
    ∀ op ∈ textClip x y text fg bg width, op.Within columns rows area :=
  textClipLoop_within text hx hwidth hy hy' fg bg _ _ le_rfl

theorem textboxLoop_within (scrollLine scrollColumn : ℤ) (text : List UInt8) (fuel p : ℕ)
    (line column : ℤ) :
    ∀ op ∈ textboxLoop area scrollLine scrollColumn text fuel p line column,
      op.Within columns rows area := by
  induction fuel generalizing p line column with
  | zero => exact fun op hop ↦ absurd hop List.not_mem_nil
  | succ fuel ih =>
      intro op hop
      rw [textboxLoop] at hop
      dsimp only at hop
      split at hop
      · rename_i hmore
        split at hop
        · exact ih _ _ _ op hop
        · rw [List.mem_append] at hop
          rcases hop with hop | hop
          · split at hop
            · rename_i hshown
              obtain ⟨hline, hcolumn, hroom⟩ := hshown
              split at hop
              · obtain ⟨j, hj, rfl⟩ := List.mem_map.mp hop
                rw [List.mem_range] at hj
                exact put_within (by omega) (by rw [uiWidth_space]; omega) (by omega) (by omega)
              · rename_i htab
                rw [List.mem_singleton] at hop
                subst hop
                rw [columnWidth, if_neg htab] at hroom
                exact put_within (by omega) (by omega) (by omega) (by omega)
            · cases hop
          · exact ih _ _ _ op hop
      · cases hop

/-! ## One widget -/

theorem drawBorder_within (own : WidgetFields) :
    ∀ op ∈ drawBorder own, op.Within columns rows own.area := by
  intro op hop
  have hminus : uiWidth 45 = 1 := by decide
  have hbar : uiWidth 124 = 1 := by decide
  rw [drawBorder] at hop
  split at hop
  · cases hop
  · rw [List.mem_append, List.mem_append, List.mem_flatMap, List.mem_flatMap] at hop
    rcases hop with (⟨i, hi, hop⟩ | ⟨i, hi, hop⟩) | hop
    · rw [List.mem_range] at hi
      rw [List.mem_cons, List.mem_singleton] at hop
      rcases hop with rfl | rfl <;>
        exact put_within (by omega) (by rw [hminus]; omega) (by omega) (by omega)
    · rw [List.mem_range] at hi
      rw [List.mem_cons, List.mem_singleton] at hop
      rcases hop with rfl | rfl <;>
        exact put_within (by omega) (by rw [hbar]; omega) (by omega) (by omega)
    · exact textClip_within _ (by omega) (by omega) le_rfl (by omega) _ _ op hop

section Own

variable {own : WidgetFields} (hwidth : 0 < own.area.width) (hheight : 0 < own.area.height)

include hwidth hheight

theorem drawButton_within (focused : Bool) :
    ∀ op ∈ drawButton own focused, op.Within columns rows own.area := by
  intro op hop
  have hopen : uiWidth 91 = 1 := by decide
  have hclose : uiWidth 93 = 1 := by decide
  rw [drawButton] at hop
  rw [List.mem_append, List.mem_append, List.mem_append, List.mem_map, List.mem_singleton,
    List.mem_singleton] at hop
  rcases hop with ((⟨i, hi, rfl⟩ | rfl) | hop) | rfl
  · rw [List.mem_range] at hi
    exact put_within (by omega) (by rw [uiWidth_space]; omega) le_rfl (by omega)
  · exact put_within le_rfl (by rw [hopen]; omega) le_rfl (by omega)
  · exact textClip_within _ (by omega) (by omega) le_rfl (by omega) _ _ op hop
  · exact put_within (by omega) (by rw [hclose]; omega) le_rfl (by omega)

omit hwidth hheight in
theorem drawTextbox_within (hin : own.area.Inside ⟨0, 0, columns, rows⟩)
    (g : TinyCPlus.Runtime.TcGap) (focused : Bool) :
    ∀ op ∈ drawTextbox own g focused, op.Within columns rows own.area := by
  intro op hop
  rw [drawTextbox] at hop
  rw [List.mem_append] at hop
  rcases hop with hop | hop
  · exact textboxLoop_within _ _ _ _ _ _ _ op hop
  · split at hop
    · rename_i hcaret
      rw [List.mem_singleton] at hop
      subst hop
      exact caret_within hcaret.2 hin
    · cases hop

/-- Whatever its kind, a widget draws within its area. -/
theorem drawOwn_within (hin : own.area.Inside ⟨0, 0, columns, rows⟩) (focus : Option ℕ) :
    ∀ op ∈ drawOwn focus own, op.Within columns rows own.area := by
  intro op hop
  rw [drawOwn] at hop
  split at hop
  · exact drawBorder_within own op hop
  · exact textClip_within _ le_rfl le_rfl le_rfl (by omega) _ _ op hop
  · exact drawButton_within hwidth hheight _ op hop
  · split at hop
    · exact drawTextbox_within hin _ _ op hop
    · cases hop
  · cases hop

end Own

/-! ## Trees -/

namespace TcWidget

/-- An area with cells. -/
def Shown (w : TcWidget) : Prop := 0 < w.own.area.width ∧ 0 < w.own.area.height

/-- A child with cells lies inside its parent. -/
theorem LaidOut.child_inside {w c : TcWidget} (h : w.LaidOut) (hc : c ∈ w.children)
    (hshown : c.Shown) : c.own.area.Inside w.own.area := by
  obtain ⟨h1, h2, h3, h4⟩ := h.inside c hc hshown.1 hshown.2
  have hwidth := hshown.1
  have hheight := hshown.2
  by_cases hkind : w.own.kind = .panel
  · simp only [contentRect, if_pos hkind] at h1 h2 h3 h4
    split_ifs at h2 h4 <;> exact ⟨by omega, by omega, by omega, by omega⟩
  · simp only [contentRect, if_neg hkind] at h1 h2 h3 h4
    split_ifs at h2 h4 <;> exact ⟨by omega, by omega, by omega, by omega⟩

theorem Shown.of_inside {w c : TcWidget} (h : c.Shown) (hin : c.own.area.Inside w.own.area) :
    w.Shown := by
  obtain ⟨h1, h2, h3, h4⟩ := hin
  have hwidth := h.1
  have hheight := h.2
  exact ⟨by omega, by omega⟩

theorem self_mem_subtrees (w : TcWidget) : w ∈ w.subtrees := by
  cases w
  exact List.mem_cons_self

mutual

/-- A widget of a laid-out tree that has cells lies inside the root. -/
theorem subtree_inside (w : TcWidget) (h : ∀ v ∈ w.subtrees, v.LaidOut) :
    ∀ v ∈ w.subtrees, v.Shown → v.own.area.Inside w.own.area :=
  match w with
  | .mk own children => by
      intro v hv hshown
      have hself := h (.mk own children) (self_mem_subtrees _)
      rw [subtrees, List.mem_cons] at hv
      rcases hv with rfl | hv
      · exact ⟨le_rfl, le_rfl, le_rfl, le_rfl⟩
      · obtain ⟨c, hc, hvc, hin⟩ := allSubtrees_inside children
          (fun u hu ↦ h u (by rw [subtrees]; exact List.mem_cons_of_mem _ hu)) v hv hshown
        exact hin.trans (hself.child_inside hc (hshown.of_inside hin))

theorem allSubtrees_inside (children : List TcWidget)
    (h : ∀ v ∈ allSubtrees children, v.LaidOut) :
    ∀ v ∈ allSubtrees children, v.Shown →
      ∃ c ∈ children, v ∈ c.subtrees ∧ v.own.area.Inside c.own.area :=
  match children with
  | [] => fun v hv ↦ absurd hv List.not_mem_nil
  | child :: rest => by
      intro v hv hshown
      rw [allSubtrees, List.mem_append] at hv
      rcases hv with hv | hv
      · exact ⟨child, List.mem_cons_self, hv, subtree_inside child
          (fun u hu ↦ h u (by rw [allSubtrees]; exact List.mem_append_left _ hu)) v hv hshown⟩
      · obtain ⟨c, hc, hvc, hin⟩ := allSubtrees_inside rest
          (fun u hu ↦ h u (by rw [allSubtrees]; exact List.mem_append_right _ hu)) v hv hshown
        exact ⟨c, List.mem_cons_of_mem _ hc, hvc, hin⟩

end

mutual

/-- What a widget inside the window draws is within its area. -/
theorem draw_within (w : TcWidget) (h : ∀ v ∈ w.subtrees, v.LaidOut)
    (hin : w.Shown → w.own.area.Inside ⟨0, 0, columns, rows⟩) (focus : Option ℕ) :
    ∀ op ∈ w.draw focus, op.Within columns rows w.own.area :=
  match w with
  | .mk own children => by
      intro op hop
      have hself := h (.mk own children) (self_mem_subtrees _)
      rw [draw] at hop
      split at hop
      · cases hop
      · rename_i hcells
        push Not at hcells
        have hinside := hin hcells
        rw [List.mem_append] at hop
        rcases hop with hop | hop
        · exact drawOwn_within hcells.1 hcells.2 hinside focus op hop
        · obtain ⟨c, hc, hshown, hwithin⟩ := drawChildren_within children
            (fun v hv ↦ h v (by rw [subtrees]; exact List.mem_cons_of_mem _ hv))
            (fun c hc hshown ↦ (hself.child_inside hc hshown).trans hinside) focus op hop
          exact hwithin.mono (hself.child_inside hc hshown)

theorem drawChildren_within (children : List TcWidget)
    (h : ∀ v ∈ allSubtrees children, v.LaidOut)
    (hin : ∀ c ∈ children, c.Shown → c.own.area.Inside ⟨0, 0, columns, rows⟩)
    (focus : Option ℕ) :
    ∀ op ∈ drawChildren focus children,
      ∃ c ∈ children, c.Shown ∧ op.Within columns rows c.own.area :=
  match children with
  | [] => fun op hop ↦ absurd hop List.not_mem_nil
  | child :: rest => by
      intro op hop
      rw [drawChildren, List.mem_append] at hop
      rcases hop with hop | hop
      · have hshown : child.Shown := by
          by_contra hcells
          obtain ⟨own, _⟩ := child
          rw [draw, if_pos (by rw [Shown, not_and_or, not_lt, not_lt] at hcells; exact hcells)]
            at hop
          cases hop
        exact ⟨child, List.mem_cons_self, hshown, draw_within child
          (fun v hv ↦ h v (by rw [allSubtrees]; exact List.mem_append_left _ hv))
          (hin child List.mem_cons_self) focus op hop⟩
      · obtain ⟨c, hc, hshown, hwithin⟩ := drawChildren_within rest
          (fun v hv ↦ h v (by rw [allSubtrees]; exact List.mem_append_right _ hv))
          (fun c hc ↦ hin c (List.mem_cons_of_mem _ hc)) focus op hop
        exact ⟨c, List.mem_cons_of_mem _ hc, hshown, hwithin⟩

end

mutual

/-- The descendants of a descendant are descendants. -/
theorem mem_subtrees_trans (t : TcWidget) {w v : TcWidget} (hv : v ∈ w.subtrees)
    (hw : w ∈ t.subtrees) : v ∈ t.subtrees :=
  match t with
  | .mk own children => by
      rw [subtrees, List.mem_cons] at hw
      rcases hw with rfl | hw
      · exact hv
      · rw [subtrees]
        exact List.mem_cons_of_mem _ (mem_allSubtrees_trans children hv hw)

theorem mem_allSubtrees_trans (children : List TcWidget) {w v : TcWidget}
    (hv : v ∈ w.subtrees) (hw : w ∈ allSubtrees children) : v ∈ allSubtrees children :=
  match children with
  | [] => absurd hw List.not_mem_nil
  | child :: rest => by
      rw [allSubtrees, List.mem_append] at hw ⊢
      exact hw.imp (mem_subtrees_trans child hv) (mem_allSubtrees_trans rest hv)

end

/-- Every widget of a tree laid out in the window draws within its area. -/
theorem draw_within_of_mem (root : TcWidget) {w : TcWidget}
    (hw : w ∈ (root.layout ⟨0, 0, columns, rows⟩).subtrees) (focus : Option ℕ) :
    ∀ op ∈ w.draw focus, op.Within columns rows w.own.area := by
  have hlaid := layout_subtrees root ⟨0, 0, columns, rows⟩
  refine draw_within w (fun v hv ↦ ?_) (fun hshown ↦ ?_) focus
  · exact hlaid v (mem_subtrees_trans _ hv hw)
  · have hin := subtree_inside _ hlaid w hw hshown
    rwa [area_layout] at hin

end TcWidget

/-! ## Frames -/

theorem Store.getElem?_apply_ne (cells : List TcUiCell) (s : Store) {i : ℕ} (h : s.index ≠ i) :
    (s.apply cells)[i]? = cells[i]? :=
  List.getElem?_modify_ne _ _ h

theorem stores_getElem?_of_ne (stores : List Store) (cells : List TcUiCell) {i : ℕ}
    (h : ∀ s ∈ stores, s.index ≠ i) : (stores.foldl Store.apply cells)[i]? = cells[i]? := by
  induction stores generalizing cells with
  | nil => rfl
  | cons s stores ih =>
      rw [List.foldl_cons, ih _ fun t ht ↦ h t (List.mem_cons_of_mem _ ht),
        s.getElem?_apply_ne cells (h s List.mem_cons_self)]

/-- Operations within an area leave the cells outside as they are. -/
theorem drawOps_getElem?_of_within {ops : List DrawOp}
    (h : ∀ op ∈ ops, op.Within columns rows area) (cells : List TcUiCell) {x y : ℕ}
    (hx : x < columns) (hout : ¬ area.Mem x y) :
    (drawOps columns rows cells ops)[y * columns + x]? = cells[y * columns + x]? := by
  induction ops generalizing cells with
  | nil => rfl
  | cons op ops ih =>
      have hop := h op List.mem_cons_self
      rw [drawOps, List.foldl_cons, ← drawOps,
        ih (fun o ho ↦ h o (List.mem_cons_of_mem _ ho))]
      refine stores_getElem?_of_ne _ _ fun s hs heq ↦ ?_
      obtain ⟨i, j, hi, -, hmem, hindex⟩ := hop s hs
      obtain ⟨rfl, rfl⟩ := cell_inj hi hx (hindex.symm.trans heq)
      exact hout hmem

/-- A frame is drawn by the operations of the root laid out in the window.  Every widget
of the tree draws in its area only, and every index that its operations use is one of the
buffer. -/
theorem draw_stays_inside (ui : TcUi) (root : TcWidget) (hroot : ui.root = some root) :
    let laid := root.layout ⟨0, 0, ui.width, ui.height⟩
    ui.draw.back = drawOps ui.width ui.height (ui.clear 0xe6edf3 0x101820).back
        (laid.draw ui.focus) ∧
      ∀ w ∈ laid.subtrees,
        (∀ op ∈ w.draw ui.focus, ∀ s ∈ op.stores ui.width ui.height,
          s.index < ui.width * ui.height) ∧
        ∀ (cells : List TcUiCell) (x y : ℕ), x < ui.width → ¬ w.own.area.Mem x y →
          (drawOps ui.width ui.height cells (w.draw ui.focus))[y * ui.width + x]? =
            cells[y * ui.width + x]? := by
  intro laid
  refine ⟨?_, fun w hw ↦ ?_⟩
  · simp only [TcUi.draw, TcUi.exec, TcUi.clear, hroot, laid]
  · have hwithin := TcWidget.draw_within_of_mem root hw ui.focus
    exact ⟨fun op hop ↦ (hwithin op hop).index_lt, fun cells x y hx hout ↦
      drawOps_getElem?_of_within hwithin cells hx hout⟩

/-- A focused text box in a window of three cells by two. -/
theorem draw_stays_inside_textbox :
    let box := TcWidget.mk (.create 7 .textbox [0xe6, 0x97, 0xa5, 10, 97] 0 0) []
    ∀ op ∈ (box.layout ⟨0, 0, 3, 2⟩).draw (some 7), ∀ s ∈ op.stores 3 2, s.index < 3 * 2 := by
  intro box
  let ui : TcUi := ⟨3, 2, [], [], some box, some 7, 0⟩
  exact ((draw_stays_inside ui box rfl).2 _ (TcWidget.self_mem_subtrees _)).1

end TinyCPlus.Tui
