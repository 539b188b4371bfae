import TinyCPlus.Tui.Drawing

/-!
# The halves of wide glyphs

A wide glyph is a cell of width two with a cell of width zero behind it.  A put that
writes over one half only leaves the other one behind; as long as no put does so, the
widths of every row add up to the width of the window.
-/

namespace TinyCPlus.Tui

variable {columns rows : ℕ}

/-- Every wide cell has its second half behind it, every second half stands behind a
wide cell, and the other cells hold glyphs of their width. -/
structure Paired (columns rows : ℕ) (cells : List TcUiCell) : Prop where
  length : cells.length = columns * rows
  wide : ∀ x y, x < columns → y < rows → (cellAt columns cells x y).width = 2 →
    x + 1 < columns ∧ (cellAt columns cells (x + 1) y).width = 0
  half : ∀ x y, x < columns → y < rows → (cellAt columns cells x y).width = 0 →
    ∃ x', x = x' + 1 ∧ (cellAt columns cells x' y).width = 2
  glyph : ∀ x y, x < columns → y < rows → (cellAt columns cells x y).width ≠ 0 →
    uiWidth (utf8Valid (cellAt columns cells x y).shown) = (cellAt columns cells x y).width

/-! ## Writing cells -/

theorem length_drawOp (cells : List TcUiCell) (op : DrawOp) :
    (op.apply columns rows cells).length = cells.length := by
  rw [DrawOp.apply]
  induction op.stores columns rows generalizing cells with
  | nil => rfl
  | cons s stores ih => rw [List.foldl_cons, ih, Store.apply, List.length_modify]

theorem cellAt_store {cells : List TcUiCell} (hlen : cells.length = columns * rows) {x y x' y' : ℕ}
    (hx : x < columns) (hy : y < rows) (hx' : x' < columns) (update : TcUiCell → TcUiCell) :
    cellAt columns (Store.apply cells ⟨y * columns + x, update⟩) x' y' =
      if x' = x ∧ y' = y then update (cellAt columns cells x y) else cellAt columns cells x' y' := by
  have hin : y * columns + x < cells.length := hlen ▸ cell_lt hx hy
  rw [cellAt, cellAt, cellAt, Store.apply, List.getD_eq_getElem?_getD, List.getD_eq_getElem?_getD,
    List.getD_eq_getElem?_getD]
  by_cases heq : x' = x ∧ y' = y
  · rw [if_pos heq, heq.1, heq.2, List.getElem?_modify_eq, List.getElem?_eq_getElem hin]
    rfl
  · rw [if_neg heq, List.getElem?_modify_ne]
    intro hindex
    obtain ⟨rfl, rfl⟩ := cell_inj hx hx' hindex
    exact heq ⟨rfl, rfl⟩

/-- The columns that a put at `x` takes. -/
def glyphColumns (columns x cp : ℕ) : ℕ :=
  if uiWidth cp = 2 ∧ columns ≤ x + 1 then 1 else uiWidth cp

theorem putCell_width_eq (columns x cp fg bg : ℕ) :
    (putCell columns x cp fg bg).width = glyphColumns columns x cp := by
  have hcast : ((columns : ℤ) ≤ (x : ℤ) + 1) ↔ columns ≤ x + 1 := by omega
  simp only [putCell, glyphColumns, hcast]
  split <;> rfl

theorem glyphColumns_cases (columns x cp : ℕ) :
    glyphColumns columns x cp = 1 ∨ (glyphColumns columns x cp = 2 ∧ x + 1 < columns) := by
  rw [glyphColumns]
  split
  · exact .inl rfl
  · rename_i hcut
    rcases uiWidth_cases cp with hwidth | hwidth
    · exact .inl hwidth
    · exact .inr ⟨hwidth, lt_of_not_ge fun hge ↦ hcut ⟨hwidth, hge⟩⟩

/-- The cells after a put inside the window. -/
theorem cellAt_put {cells : List TcUiCell} (hlen : cells.length = columns * rows) {x y x' : ℕ}
    (hx : x < columns) (hy : y < rows) (hx' : x' < columns) (y' cp fg bg : ℕ) :
    cellAt columns ((DrawOp.put x y cp fg bg).apply columns rows cells) x' y' =
      if x' = x ∧ y' = y then putCell columns x cp fg bg
      else if glyphColumns columns x cp = 2 ∧ x' = x + 1 ∧ y' = y then tailCell fg bg
      else cellAt columns cells x' y' := by
  rw [DrawOp.apply, DrawOp.stores, putStores_inside hx hy, putCell_width_eq]
  rcases glyphColumns_cases columns x cp with hone | ⟨htwo, hnext⟩
  · rw [if_neg (by omega), List.foldl_cons, List.foldl_nil, cellAt_store hlen hx hy hx', hone]
    simp
  · have hfirst : (Store.apply cells ⟨y * columns + x, fun _ ↦ putCell columns x cp fg bg⟩).length =
        columns * rows := by
      rw [Store.apply, List.length_modify, hlen]
    rw [if_pos htwo, List.foldl_cons, List.foldl_cons, List.foldl_nil, add_assoc,
      cellAt_store hfirst hnext hy hx', cellAt_store hlen hx hy hx']
    by_cases hself : x' = x ∧ y' = y
    · rw [if_neg (by omega), if_pos hself, if_pos hself]
    · rw [if_neg hself, if_neg hself]
      by_cases htail : x' = x + 1 ∧ y' = y
      · rw [if_pos htail, if_pos ⟨htwo, htail⟩]
      · rw [if_neg htail, if_neg fun h ↦ htail h.2]

/-- The caret changes colours only. -/
theorem cellAt_caret (columns rows : ℕ) (cells : List TcUiCell) (x y : ℤ) (x' y' : ℕ) :
    ∃ fg bg, cellAt columns ((DrawOp.caret x y).apply columns rows cells) x' y' =
      { cellAt columns cells x' y' with foreground := fg, background := bg } := by
  rw [DrawOp.apply, DrawOp.stores, List.foldl_cons, List.foldl_nil, Store.apply, cellAt, cellAt,
    List.getD_eq_getElem?_getD, List.getD_eq_getElem?_getD, List.getElem?_modify]
  cases cells[y' * columns + x']? with
  | none => exact ⟨_, _, rfl⟩
  | some cell =>
      by_cases hself : cellIndex columns x y = y' * columns + x'
      · simp only [hself, Option.map_eq_map, Option.map_some, if_true, Option.getD_some]
        exact ⟨_, _, rfl⟩
      · simp only [hself, Option.map_eq_map, Option.map_some, if_false, Option.getD_some]
        exact ⟨_, _, rfl⟩

/-! ## One operation -/

/-- The operation splits no wide glyph of the cells: the first cell it writes is no second
half, and neither is the one behind the cells that it writes. -/
def DrawOp.KeepsGlyphs (columns rows : ℕ) (cells : List TcUiCell) : DrawOp → Prop
  | .put x y cp _ _ =>
      ∀ i j : ℕ, x = i → y = j → i < columns → j < rows →
        (cellAt columns cells i j).width ≠ 0 ∧
          (i + glyphColumns columns i cp < columns →
            (cellAt columns cells (i + glyphColumns columns i cp) j).width ≠ 0)
  | .caret _ _ => True

theorem uiWidth_utf8Valid (cp : ℕ) : uiWidth (utf8Valid cp) = uiWidth cp := by
  rw [utf8Valid]
  split
  · simp only [uiWidth]
    rw [if_neg (by decide), if_neg (by omega)]
  · rfl

/-- A glyph that is written has its width. -/
theorem putCell_glyph (columns x cp fg bg : ℕ) :
    uiWidth (utf8Valid (putCell columns x cp fg bg).shown) =
      (putCell columns x cp fg bg).width := by
  rw [uiWidth_utf8Valid, TcUiCell.shown, putCell]
  split
  · rfl
  · dsimp only
    by_cases hcontrol : cp < 32 ∨ (127 ≤ cp ∧ cp < 160)
    · rw [if_pos hcontrol]
      have hwidth : uiWidth cp = 1 := if_neg (by omega)
      rw [hwidth]
      rfl
    · rw [if_neg hcontrol, if_neg (by omega)]

namespace Paired

variable {cells : List TcUiCell}

theorem caret (h : Paired columns rows cells) (x y : ℤ) :
    Paired columns rows ((DrawOp.caret x y).apply columns rows cells) := by
  have hcell (x' y' : ℕ) :
      (cellAt columns ((DrawOp.caret x y).apply columns rows cells) x' y').width =
          (cellAt columns cells x' y').width ∧
        (cellAt columns ((DrawOp.caret x y).apply columns rows cells) x' y').shown =
          (cellAt columns cells x' y').shown := by
    obtain ⟨fg, bg, hat⟩ := cellAt_caret columns rows cells x y x' y'
    rw [hat]
    exact ⟨rfl, rfl⟩
  constructor
  · rw [length_drawOp, h.length]
  · intro i j hi hj hwide
    rw [(hcell i j).1] at hwide
    rw [(hcell (i + 1) j).1]
    exact h.wide i j hi hj hwide
  · intro i j hi hj hhalf
    rw [(hcell i j).1] at hhalf
    obtain ⟨k, rfl, hk⟩ := h.half i j hi hj hhalf
    exact ⟨k, rfl, by rw [(hcell k j).1, hk]⟩
  · intro i j hi hj hne
    rw [(hcell i j).1] at hne ⊢
    rw [(hcell i j).2]
    exact h.glyph i j hi hj hne

/-- A put that splits no wide glyph keeps the halves together. -/
theorem put (h : Paired columns rows cells) {x y : ℕ} (hx : x < columns) (hy : y < rows)
    (cp fg bg : ℕ) (hfirst : (cellAt columns cells x y).width ≠ 0)
    (hbehind : x + glyphColumns columns x cp < columns →
      (cellAt columns cells (x + glyphColumns columns x cp) y).width ≠ 0) :
    Paired columns rows ((DrawOp.put x y cp fg bg).apply columns rows cells) := by
  have hcell {i j : ℕ} (hi : i < columns) := cellAt_put h.length hx hy hi j cp fg bg
  have hcases := glyphColumns_cases columns x cp
  constructor
  · rw [length_drawOp, h.length]
  · intro i j hi hj hwide
    rw [hcell hi] at hwide
    split_ifs at hwide with hself htail
    · obtain ⟨rfl, rfl⟩ := hself
      rw [putCell_width_eq] at hwide
      have hnext : i + 1 < columns := by omega
      rw [hcell hnext, if_neg (by omega), if_pos ⟨hwide, rfl, rfl⟩]
      exact ⟨hnext, rfl⟩
    · cases hwide
    · obtain ⟨hnext, hzero⟩ := h.wide i j hi hj hwide
      refine ⟨hnext, ?_⟩
      rw [hcell hnext]
      split_ifs with hover
      · obtain ⟨rfl, rfl⟩ := hover
        exact absurd hzero hfirst
      · rfl
      · exact hzero
  · intro i j hi hj hhalf
    rw [hcell hi] at hhalf
    split_ifs at hhalf with hself htail
    · rw [putCell_width_eq] at hhalf
      omega
    · obtain ⟨htwo, rfl, rfl⟩ := htail
      exact ⟨x, rfl, by rw [hcell hx, if_pos ⟨rfl, rfl⟩, putCell_width_eq, htwo]⟩
    · obtain ⟨k, rfl, hk⟩ := h.half i j hi hj hhalf
      refine ⟨k, rfl, ?_⟩
      rw [hcell (by omega)]
      split_ifs with hover hover'
      · obtain ⟨rfl, rfl⟩ := hover
        have hone : glyphColumns columns k cp = 1 := by omega
        rw [hone] at hbehind
        exact absurd hhalf (hbehind hi)
      · obtain ⟨htwo, rfl, rfl⟩ := hover'
        rw [htwo] at hbehind
        exact absurd hhalf (hbehind hi)
      · exact hk
  · intro i j hi hj hne
    rw [hcell hi] at hne ⊢
    by_cases hself : i = x ∧ j = y
    · rw [if_pos hself]
      exact putCell_glyph columns x cp fg bg
    · rw [if_neg hself] at hne ⊢
      by_cases htail : glyphColumns columns x cp = 2 ∧ i = x + 1 ∧ j = y
      · rw [if_pos htail] at hne
        exact absurd rfl hne
      · rw [if_neg htail] at hne ⊢
        exact h.glyph i j hi hj hne

/-- An operation that splits no wide glyph keeps the halves together. -/
theorem apply (h : Paired columns rows cells) {op : DrawOp}
    (hkeeps : op.KeepsGlyphs columns rows cells) :
    Paired columns rows (op.apply columns rows cells) := by
  cases op with
  | caret x y => exact h.caret x y
  | put x y cp fg bg =>
      by_cases hout : x < 0 ∨ columns ≤ x ∨ y < 0 ∨ rows ≤ y
      · rw [DrawOp.apply, DrawOp.stores, putStores_outside hout]
        exact h
      · push Not at hout
        obtain ⟨i, rfl⟩ := Int.eq_ofNat_of_zero_le hout.1
        obtain ⟨j, rfl⟩ := Int.eq_ofNat_of_zero_le hout.2.2.1
        have hi : i < columns := by omega
        have hj : j < rows := by omega
        obtain ⟨hfirst, hbehind⟩ := hkeeps i j rfl rfl hi hj
        exact h.put hi hj cp fg bg hfirst hbehind

theorem clear (columns rows fg bg : ℕ) :
    Paired columns rows (List.replicate (columns * rows) (TcUi.blank fg bg)) := by
  have hcell {x y : ℕ} (hx : x < columns) (hy : y < rows) :
      cellAt columns (List.replicate (columns * rows) (TcUi.blank fg bg)) x y =
        TcUi.blank fg bg := by
    rw [cellAt, List.getD_eq_getElem?_getD, List.getElem?_replicate, if_pos (cell_lt hx hy)]
    rfl
  constructor
  · rw [List.length_replicate]
  · intro x y hx hy hwide
    rw [hcell hx hy] at hwide
    cases hwide
  · intro x y hx hy hhalf
    rw [hcell hx hy] at hhalf
    cases hhalf
  · intro x y hx hy _
    rw [hcell hx hy]
    rfl

/-! ## Rows -/

/-- The widths ahead of a column add up to the column, with one more where the column is
the second half of a glyph. -/
theorem sum_take (h : Paired columns rows cells) {y : ℕ} (hy : y < rows) {x : ℕ}
    (hx : x ≤ columns) :
    ((List.range x).map fun i ↦ (cellAt columns cells i y).width).sum =
      x + if x ≠ 0 ∧ (cellAt columns cells (x - 1) y).width = 2 then 1 else 0 := by
  induction x with
  | zero => simp
  | succ x ih =>
      rw [List.range_succ, List.map_append, List.sum_append, ih (by omega), List.map_singleton,
        List.sum_singleton, Nat.add_sub_cancel]
      by_cases hhalf : x ≠ 0 ∧ (cellAt columns cells (x - 1) y).width = 2
      · have hzero := (h.wide (x - 1) y (by omega) hy hhalf.2).2
        rw [Nat.sub_add_cancel (by omega)] at hzero
        rw [if_pos hhalf, hzero, if_neg (by omega)]
      · have hne : (cellAt columns cells x y).width ≠ 0 := fun hzero ↦ by
          obtain ⟨k, rfl, hk⟩ := h.half x y hx hy hzero
          exact hhalf ⟨Nat.succ_ne_zero k, hk⟩
        have hglyph := h.glyph x y hx hy hne
        have hcases := uiWidth_cases (utf8Valid (cellAt columns cells x y).shown)
        rw [if_neg hhalf]
        split_ifs <;> omega

theorem sum_row (h : Paired columns rows cells) {y : ℕ} (hy : y < rows) :
    ((List.range columns).map fun i ↦ (cellAt columns cells i y).width).sum = columns := by
  rw [h.sum_take hy le_rfl, if_neg, add_zero]
  rintro ⟨hne, hwide⟩
  have hnext := (h.wide (columns - 1) y (by omega) hy hwide).1
  omega

end Paired

/-- A snapshot gives a row the columns of its cells. -/
theorem sum_snapshotRow {ui : TcUi} (h : Paired ui.width ui.height ui.back) {y : ℕ}
    (hy : y < ui.height) :
    ((ui.snapshotRow y).map fun cp ↦ uiWidth (utf8Valid cp)).sum = ui.width := by
  have hrow : ∀ l : List ℕ, (∀ x ∈ l, x < ui.width) →
      ((l.filterMap fun x ↦ if (cellAt ui.width ui.back x y).width = 0 then none
          else some (cellAt ui.width ui.back x y).shown).map fun cp ↦
            uiWidth (utf8Valid cp)).sum =
        (l.map fun x ↦ (cellAt ui.width ui.back x y).width).sum := by
    intro l hl
    induction l with
    | nil => rfl
    | cons x l ih =>
        have hrest := ih fun i hi ↦ hl i (List.mem_cons_of_mem _ hi)
        by_cases hzero : (cellAt ui.width ui.back x y).width = 0
        · rw [List.filterMap_cons_none (by rw [if_pos hzero]), hrest, List.map_cons, List.sum_cons,
            hzero, zero_add]
        · rw [List.filterMap_cons_some (by rw [if_neg hzero]), List.map_cons, List.sum_cons, hrest,
            List.map_cons, List.sum_cons, h.glyph x y (hl x List.mem_cons_self) hy hzero]
  exact (hrow _ fun x hx ↦ List.mem_range.mp hx).trans (h.sum_row hy)

/-! ## Runs of calls -/

/-- The calls that draw in a window; a frame is drawn for the tree that the window then
has. -/
inductive UiCall where
  | clear (foreground background : ℕ)
  | put (x y : ℤ) (codepoint foreground background : ℕ)
  | text (x y : ℤ) (text : List UInt8) (foreground background : ℕ)
  | draw (root : Option TcWidget) (focus : Option ℕ)

def TcUi.call (ui : TcUi) : UiCall → TcUi
  | .clear fg bg => ui.clear fg bg
  | .put x y cp fg bg => ui.put x y cp fg bg
  | .text x y s fg bg => ui.text x y s fg bg
  | .draw root focus => ({ ui with root := root, focus := focus } : TcUi).draw

/-- No operation of the list splits a wide glyph of the cells it finds. -/
def KeepAll (columns rows : ℕ) : List TcUiCell → List DrawOp → Prop
  | _, [] => True
  | cells, op :: rest =>
      op.KeepsGlyphs columns rows cells ∧ KeepAll columns rows (op.apply columns rows cells) rest

/-- No put that the call makes splits a wide glyph. -/
def UiCall.KeepsGlyphs (ui : TcUi) : UiCall → Prop
  | .clear _ _ => True
  | .put x y cp fg bg => KeepAll ui.width ui.height ui.back [.put x y cp fg bg]
  | .text x y s fg bg =>
      KeepAll ui.width ui.height ui.back (textClip x y s fg bg (ui.width - x))
  | .draw none _ => True
  | .draw (some root) focus =>
      KeepAll ui.width ui.height (ui.clear 0xe6edf3 0x101820).back
        ((root.layout ⟨0, 0, ui.width, ui.height⟩).draw focus)

def CallsKeepGlyphs : TcUi → List UiCall → Prop
  | _, [] => True
  | ui, call :: rest => call.KeepsGlyphs ui ∧ CallsKeepGlyphs (ui.call call) rest

theorem Paired.drawOps {cells : List TcUiCell} (h : Paired columns rows cells)
    {ops : List DrawOp} (hkeep : KeepAll columns rows cells ops) :
    Paired columns rows (drawOps columns rows cells ops) := by
  induction ops generalizing cells with
  | nil => exact h
  | cons op ops ih => exact ih (h.apply hkeep.1) hkeep.2

theorem Paired.call {ui : TcUi} (h : Paired ui.width ui.height ui.back) {call : UiCall}
    (hkeep : call.KeepsGlyphs ui) :
    Paired (ui.call call).width (ui.call call).height (ui.call call).back := by
  cases call with
  | clear fg bg => exact Paired.clear ui.width ui.height fg bg
  | put x y cp fg bg => exact h.drawOps hkeep
  | text x y s fg bg => exact h.drawOps hkeep
  | draw root focus =>
      have hclear := Paired.clear ui.width ui.height 0xe6edf3 0x101820
      cases root with
      | none => exact hclear
      | some root => exact hclear.drawOps hkeep

theorem Paired.calls {ui : TcUi} (h : Paired ui.width ui.height ui.back) {calls : List UiCall}
    (hkeep : CallsKeepGlyphs ui calls) :
    Paired (calls.foldl TcUi.call ui).width (calls.foldl TcUi.call ui).height
      (calls.foldl TcUi.call ui).back := by
  induction calls generalizing ui with
  | nil => exact h
  | cons call calls ih => exact ih (h.call hkeep.1) hkeep.2

/-- From a clear on, as long as no put splits a wide glyph, the halves of the wide glyphs
stay together, and the cells and the snapshot of every row have the width of the window. -/
theorem calls_keep_glyphs (ui : TcUi) (fg bg : ℕ) (calls : List UiCall)
    (hkeep : CallsKeepGlyphs (ui.clear fg bg) calls) :
    let after := calls.foldl TcUi.call (ui.clear fg bg)
    Paired after.width after.height after.back ∧
      ∀ y < after.height,
        ((List.range after.width).map fun x ↦ (cellAt after.width after.back x y).width).sum =
            after.width ∧
          ((after.snapshotRow y).map fun cp ↦ uiWidth (utf8Valid cp)).sum = after.width := by
  intro after
  have hstart : Paired (ui.clear fg bg).width (ui.clear fg bg).height (ui.clear fg bg).back :=
    Paired.clear ui.width ui.height fg bg
  have hpaired : Paired after.width after.height after.back := hstart.calls hkeep
  exact ⟨hpaired, fun y hy ↦ ⟨hpaired.sum_row hy, sum_snapshotRow hpaired hy⟩⟩

/-- A wide glyph in a window of two cells. -/
theorem calls_keep_glyphs_wide :
    Paired 2 1 (([.put 0 0 0x65e5 1 2] : List UiCall).foldl TcUi.call
      (TcUi.clear ⟨2, 1, [], [], none, none, 0⟩ 1 2)).back := by
  refine (calls_keep_glyphs ⟨2, 1, [], [], none, none, 0⟩ 1 2 [.put 0 0 0x65e5 1 2] ?_).1
  refine ⟨⟨?_, trivial⟩, trivial⟩
  rintro i j hi hj - -
  obtain rfl : i = 0 := by omega
  obtain rfl : j = 0 := by omega
  decide

/-- A letter over the second half of a wide glyph leaves the first half alone. -/
theorem calls_split_glyph :
    ¬ ∀ (ui : TcUi) (fg bg : ℕ) (calls : List UiCall),
      Paired (calls.foldl TcUi.call (ui.clear fg bg)).width
        (calls.foldl TcUi.call (ui.clear fg bg)).height
        (calls.foldl TcUi.call (ui.clear fg bg)).back := by
  intro hall
  have hpaired := hall ⟨2, 1, [], [], none, none, 0⟩ 1 2 [.put 0 0 0x65e5 1 2, .put 1 0 97 1 2]
  have hwide := hpaired.wide 0 0 (by decide) (by decide) (by decide)
  exact absurd hwide (by decide)

end TinyCPlus.Tui
