import TinyCPlus.Tui.Render

/-!
# A terminal shows what was rendered

The cells ahead of the current one are shown as in the back buffer, and the ones from it
on as in the front buffer, but for the second half of a glyph that was just written.
-/

namespace TinyCPlus.Tui

open TinyCPlus.Library

/-! ## The bytes for a cell -/

theorem three_bytes {colour : ℕ} (h : colour ≤ 0xffffff) :
    (colour >>> 16 &&& 255) * 65536 + (colour >>> 8 &&& 255) * 256 + (colour &&& 255) = colour := by
  have hmod : ∀ n : ℕ, n &&& 255 = n % 256 := fun n ↦ Nat.and_two_pow_sub_one_eq_mod n 8
  simp only [hmod, Nat.shiftRight_eq_div_pow]
  omega

namespace Render

/-- The variables of the loops tell where the cursor is, once they have been assigned. -/
def TracksCursor (r : Render) (t : Terminal) : Prop :=
  (r.lastX = t.x ∧ r.lastY = t.y) ∨ r.lastX < 0

/-- They tell which colours are set, once they have been assigned. -/
def TracksColours (r : Render) (t : Terminal) : Prop :=
  (r.fg = t.foreground ∧ r.bg = t.background) ∨ r.fg = 0xffffffff

variable {r : Render} {t : Terminal}

theorem feed_move (h : r.TracksCursor t) (hground : t.mode = .ground) (x y : ℕ) :
    t.feed (r.move x y) = { t with x := x, y := y } := by
  rw [move]
  split
  · rw [Terminal.feed_sequence hground _ _ (by decide)]
    rfl
  · rename_i hthere
    obtain ⟨hy, hx⟩ : r.lastY = y ∧ r.lastX = x := by
      simpa only [not_or, not_not] using hthere
    rcases h with ⟨htx, hty⟩ | hneg
    · have hxt : t.x = x := by omega
      have hyt : t.y = y := by omega
      rw [Terminal.feed_nil, ← hxt, ← hyt]
    · omega

theorem feed_foreground (hground : t.mode = .ground) {colour : ℕ} (h : colour ≤ 0xffffff) :
    t.feed (Terminal.sequence (colourParams 38 colour) 109) = { t with foreground := colour } := by
  rw [colourParams, Terminal.feed_sequence hground _ _ (by decide)]
  conv_rhs => rw [← three_bytes h]
  rfl

theorem feed_background (hground : t.mode = .ground) {colour : ℕ} (h : colour ≤ 0xffffff) :
    t.feed (Terminal.sequence (colourParams 48 colour) 109) = { t with background := colour } := by
  rw [colourParams, Terminal.feed_sequence hground _ _ (by decide)]
  conv_rhs => rw [← three_bytes h]
  rfl

theorem feed_colour (h : r.TracksColours t) (hground : t.mode = .ground) {cell : TcUiCell}
    (hfg : cell.foreground ≤ 0xffffff) (hbg : cell.background ≤ 0xffffff) :
    t.feed (r.colour cell) =
      { t with foreground := cell.foreground, background := cell.background } := by
  unfold colour
  split
  · rw [Terminal.feed_append, feed_foreground hground hfg]
    exact feed_background (t := { t with foreground := cell.foreground }) hground hbg
  · rename_i hsame
    obtain ⟨hf, hb⟩ : r.fg = cell.foreground ∧ r.bg = cell.background := by
      simpa only [not_or, not_not] using hsame
    rcases h with ⟨htf, htb⟩ | hnone
    · rw [Terminal.feed_nil, ← hf, ← hb, htf, htb]
    · omega

/-- The terminal at a cell, in the colours of the cell. -/
def atCell (t : Terminal) (x y : ℕ) (cell : TcUiCell) : Terminal :=
  { t with x := x, y := y, foreground := cell.foreground, background := cell.background }

/-- The bytes for a cell put its glyph where the cell is. -/
theorem feed_cell (hcursor : r.TracksCursor t) (hcolours : r.TracksColours t)
    (hground : t.mode = .ground) {x y : ℕ} {cell : TcUiCell} (hfg : cell.foreground ≤ 0xffffff)
    (hbg : cell.background ≤ 0xffffff) (hshown : ¬ isControl cell.shown)
    (hfits : x + uiWidth (utf8Valid cell.shown) ≤ t.columns) :
    t.feed (r.move x y ++ r.colour cell ++ utf8Encode cell.shown) =
      (atCell t x y cell).put (utf8Valid cell.shown) := by
  have hvalid : ¬ isControl (utf8Valid cell.shown) := by
    rw [utf8Valid]
    split
    · decide
    · exact hshown
  have hmoved : (t.feed (r.move x y)).feed (r.colour cell) = atCell t x y cell := by
    rw [feed_move hcursor hground]
    exact feed_colour (t := { t with x := x, y := y }) hcolours hground hfg hbg
  have hthere : (atCell t x y cell).mode = .ground := hground
  rw [Terminal.feed_append, Terminal.feed_append, hmoved, Terminal.feed_utf8Encode hthere hshown,
    Terminal.print, if_neg hvalid]
  exact if_pos hfits

/-! ## One turn of the loops -/

/-- The cells that the loops have passed at column `x` of row `y`. -/
def Passed (x y x' y' : ℕ) : Prop := y' < y ∨ (y' = y ∧ x' < x)

/-- The state of the loops and of the terminal at column `x` of row `y`. -/
structure Reached (columns rows : ℕ) (old new : List TcUiCell) (r : Render) (t : Terminal)
    (x y : ℕ) : Prop where
  ready : t.Ready columns
  cursor : r.TracksCursor t
  colours : r.TracksColours t
  length : r.front.length = columns * rows
  front_new : ∀ x' y', x' < columns → y' < rows → Passed x y x' y' →
    cellAt columns r.front x' y' = cellAt columns new x' y'
  front_old : ∀ x' y', x' < columns → y' < rows → ¬ Passed x y x' y' →
    cellAt columns r.front x' y' = cellAt columns old x' y'
  shows_new : ∀ x' y', x' < columns → y' < rows → Passed x y x' y' →
    t.ShowsCell x' y' (cellAt columns new x' y')
  shows_old : ∀ x' y', x' < columns → y' < rows → ¬ Passed x y x' y' →
    (x' = x → y' = y → (cellAt columns new x y).width ≠ 0) →
    t.ShowsCell x' y' (cellAt columns old x' y')

theorem passed_succ {x y x' y' : ℕ} :
    Passed (x + 1) y x' y' ↔ Passed x y x' y' ∨ (x' = x ∧ y' = y) := by
  simp only [Passed]
  omega

theorem not_passed_row {x x' y : ℕ} : ¬ Passed x y x' y ↔ x ≤ x' := by
  unfold Passed
  omega

variable {columns rows : ℕ} {old new : List TcUiCell}

/-- A turn that leaves the terminal as it is. -/
theorem Reached.silent {r' : Render} {x y : ℕ} (h : Reached columns rows old new r t x y)
    (hx : x < columns) (hy : y < rows) (hcursor : r'.TracksCursor t)
    (hcolours : r'.TracksColours t) (hlength : r'.front.length = columns * rows)
    (hfront : ∀ x' y', x' < columns → y' < rows → ¬ (x' = x ∧ y' = y) →
      cellAt columns r'.front x' y' = cellAt columns r.front x' y')
    (hself : cellAt columns r'.front x y = cellAt columns new x y)
    (hshown : t.ShowsCell x y (cellAt columns new x y)) :
    Reached columns rows old new r' t (x + 1) y := by
  constructor
  · exact h.ready
  · exact hcursor
  · exact hcolours
  · exact hlength
  · intro x' y' hx' hy' hpassed
    by_cases hhere : x' = x ∧ y' = y
    · obtain ⟨rfl, rfl⟩ := hhere
      exact hself
    · rw [hfront x' y' hx' hy' hhere]
      exact h.front_new x' y' hx' hy' ((passed_succ.mp hpassed).resolve_right hhere)
  · intro x' y' hx' hy' hpassed
    obtain ⟨hbefore, hhere⟩ := not_or.mp (mt passed_succ.mpr hpassed)
    rw [hfront x' y' hx' hy' hhere]
    exact h.front_old x' y' hx' hy' hbefore
  · intro x' y' hx' hy' hpassed
    rcases passed_succ.mp hpassed with hbefore | ⟨rfl, rfl⟩
    · exact h.shows_new x' y' hx' hy' hbefore
    · exact hshown
  · intro x' y' hx' hy' hpassed _
    obtain ⟨hbefore, hhere⟩ := not_or.mp (mt passed_succ.mpr hpassed)
    exact h.shows_old x' y' hx' hy' hbefore fun hxx hyy ↦ absurd ⟨hxx, hyy⟩ hhere

theorem cellAt_front {front : List TcUiCell} (hlen : front.length = columns * rows) {x y x' : ℕ}
    (hx : x < columns) (hy : y < rows) (hx' : x' < columns) (y' : ℕ) (cell : TcUiCell) :
    cellAt columns (Store.apply front ⟨y * columns + x, fun _ ↦ cell⟩) x' y' =
      if x' = x ∧ y' = y then cell else cellAt columns front x' y' :=
  cellAt_store hlen hx hy hx' _

/-- The screen after a glyph has been put at a cell. -/
theorem shows_put {x y x' y' : ℕ} {cell other : TcUiCell} (hready : t.Ready columns)
    (hshows : t.ShowsCell x' y' other)
    (hapart : y' = y → x' + other.width ≤ x ∨
      x + uiWidth (utf8Valid cell.shown) ≤ x') :
    ((atCell t x y cell).put (utf8Valid cell.shown)).ShowsCell x' y' other := by
  intro hwidth
  have hold := hshows hwidth
  simp only [Terminal.put, atCell, Function.update_apply]
  by_cases hrow : y' = y
  · subst hrow
    rw [if_pos rfl]
    exact GlyphRow.overwrite_keeps (hready.whole y') hold (hapart rfl) (uiWidth_cases _)
  · rw [if_neg hrow]
    exact hold

theorem ready_put {x y : ℕ} {cell : TcUiCell} (hready : t.Ready columns) :
    ((atCell t x y cell).put (utf8Valid cell.shown)).Ready columns := by
  refine ⟨hready.mode, hready.columns, ?_⟩
  intro y'
  simp only [Terminal.put, atCell, Function.update_apply]
  by_cases hrow : y' = y
  · rw [if_pos hrow]
    exact (hready.whole y).overwrite (uiWidth_cases _)
  · rw [if_neg hrow]
    exact hready.whole y'

/-- A cell that changed is written. -/
theorem Reached.written {x y : ℕ} (hnew : Frame columns rows new)
    (h : Reached columns rows old new r t x y) (hx : x < columns) (hy : y < rows)
    {r' : Render} (hwidth : (cellAt columns new x y).width ≠ 0)
    (hfront : r'.front = Store.apply r.front ⟨y * columns + x, fun _ ↦ cellAt columns new x y⟩)
    (hlastX : r'.lastX = x + (cellAt columns new x y).width) (hlastY : r'.lastY = y)
    (hfg : r'.fg = (cellAt columns new x y).foreground)
    (hbg : r'.bg = (cellAt columns new x y).background) :
    Reached columns rows old new r'
      ((atCell t x y (cellAt columns new x y)).put (utf8Valid (cellAt columns new x y).shown))
      (x + 1) y := by
  obtain ⟨-, hglyph⟩ := hnew.glyph x y hx hy hwidth
  have hcell : ∀ x' y', x' < columns → _ := fun x' y' hx' ↦
    cellAt_front h.length hx hy hx' y' (cellAt columns new x y)
  constructor
  · exact ready_put h.ready
  · left
    rw [hlastX, hlastY]
    refine ⟨?_, rfl⟩
    simp only [Terminal.put, atCell, hglyph, Nat.cast_add]
  · exact .inl ⟨hfg, hbg⟩
  · rw [hfront, Store.apply, List.length_modify, h.length]
  · intro x' y' hx' hy' hpassed
    rw [hfront, hcell x' y' hx']
    split
    · rename_i hhere
      rw [hhere.1, hhere.2]
    · rename_i hhere
      exact h.front_new x' y' hx' hy' ((passed_succ.mp hpassed).resolve_right hhere)
  · intro x' y' hx' hy' hpassed
    obtain ⟨hbefore, hhere⟩ := not_or.mp (mt passed_succ.mpr hpassed)
    rw [hfront, hcell x' y' hx', if_neg hhere]
    exact h.front_old x' y' hx' hy' hbefore
  · intro x' y' hx' hy' hpassed
    rcases passed_succ.mp hpassed with hbefore | ⟨rfl, rfl⟩
    · apply shows_put h.ready (h.shows_new x' y' hx' hy' hbefore)
      rintro rfl
      -- a wide glyph behind the passed cell would cover the current one
      have hlt : x' < x := by
        simp only [Passed] at hbefore
        omega
      by_cases hzero : (cellAt columns new x' y').width = 0
      · omega
      · obtain ⟨-, hother⟩ := hnew.glyph x' y' hx' hy' hzero
        rcases uiWidth_cases (utf8Valid (cellAt columns new x' y').shown) with hone | htwo
        · omega
        · have hnext := (hnew.wide x' y' hx' hy' (by omega)).2
          have hne : x' + 1 ≠ x := by
            rintro rfl
            exact hwidth hnext
          omega
    · intro _
      simp only [Terminal.put, atCell, Function.update_self, GlyphRow.overwrite_self, hglyph]
  · intro x' y' hx' hy' hpassed hcovered
    obtain ⟨hbefore, hhere⟩ := not_or.mp (mt passed_succ.mpr hpassed)
    have hshows := h.shows_old x' y' hx' hy' hbefore fun hxx hyy ↦ absurd ⟨hxx, hyy⟩ hhere
    apply shows_put h.ready hshows
    rintro rfl
    right
    have hle := not_passed_row.mp hbefore
    have hlt : x < x' := lt_of_le_of_ne hle fun he ↦ hhere ⟨he.symm, rfl⟩
    rcases uiWidth_cases (utf8Valid (cellAt columns new x y').shown) with hone | htwo
    · omega
    · -- the second half of the new glyph is not looked at
      have hnext := (hnew.wide x y' hx hy' (by omega)).2
      have hne : x' ≠ x + 1 := fun he ↦ hcovered he rfl hnext
      omega

/-! ## The loops -/

/-- A turn reaches the next column, and it feeds the terminal the bytes that it adds. -/
theorem Reached.cell {t₀ : Terminal} {x y : ℕ} (hnew : Frame columns rows new)
    (h : Reached columns rows old new r (t₀.feed r.bytes) x y) (hx : x < columns)
    (hy : y < rows) :
    Reached columns rows old new (cell columns new y r x)
      (t₀.feed (cell columns new y r x).bytes) (x + 1) y := by
  have hself : ¬ Passed x y x y := fun hpassed ↦
    lt_irrefl x (lt_of_not_ge fun hle ↦ not_passed_row.mpr hle hpassed)
  have hfront := h.front_old x y hx hy hself
  unfold Render.cell
  dsimp only
  by_cases hsame : cellAt columns new x y = cellAt columns r.front x y
  · rw [if_pos hsame]
    apply h.silent hx hy h.cursor h.colours h.length
    · exact fun _ _ _ _ _ ↦ rfl
    · exact hsame.symm
    · intro hwidth
      rw [hsame, hfront] at hwidth ⊢
      refine h.shows_old x y hx hy hself (fun _ _ ↦ ?_) hwidth
      rwa [hsame, hfront]
  · rw [if_neg hsame]
    by_cases hwidth : (cellAt columns new x y).width = 0
    · rw [if_pos hwidth]
      apply h.silent hx hy
      · exact h.cursor
      · exact h.colours
      · rw [Store.apply, List.length_modify, h.length]
      · intro x' y' hx' _ hother
        rw [cellAt_front h.length hx hy hx', if_neg hother]
      · rw [cellAt_front h.length hx hy hx, if_pos ⟨rfl, rfl⟩]
      · exact fun hne ↦ absurd hwidth hne
    · rw [if_neg hwidth]
      obtain ⟨hshown, hglyph⟩ := hnew.glyph x y hx hy hwidth
      obtain ⟨hfg, hbg⟩ := hnew.colours x y hx hy
      have hfits : x + uiWidth (utf8Valid (cellAt columns new x y).shown) ≤
          (t₀.feed r.bytes).columns := by
        rw [h.ready.columns]
        rcases uiWidth_cases (utf8Valid (cellAt columns new x y).shown) with hone | htwo
        · omega
        · have hnext := (hnew.wide x y hx hy (by omega)).1
          omega
      dsimp only
      rw [Terminal.feed_append, feed_cell h.cursor h.colours h.ready.mode hfg hbg hshown hfits]
      exact h.written hnew hx hy hwidth rfl rfl rfl rfl rfl

theorem foldl_range {β : Type*} {P : ℕ → β → Prop} {f : β → ℕ → β} {n : ℕ} {b : β}
    (hb : P 0 b) (hstep : ∀ i < n, ∀ c, P i c → P (i + 1) (f c i)) :
    P n ((List.range n).foldl f b) := by
  induction n with
  | zero => exact hb
  | succ n ih =>
      rw [List.range_succ, List.foldl_append]
      apply hstep n (Nat.lt_succ_self n)
      exact ih fun i hi ↦ hstep i (hi.trans (Nat.lt_succ_self n))

theorem passed_row {x' y y' : ℕ} (hx' : x' < columns) :
    Passed 0 (y + 1) x' y' ↔ Passed columns y x' y' := by
  unfold Passed
  omega

/-- The end of a row is the start of the next one. -/
theorem Reached.next_row {y : ℕ} (h : Reached columns rows old new r t columns y) :
    Reached columns rows old new r t 0 (y + 1) where
  ready := h.ready
  cursor := h.cursor
  colours := h.colours
  length := h.length
  front_new x' y' hx' hy' hpassed := h.front_new x' y' hx' hy' ((passed_row hx').mp hpassed)
  front_old x' y' hx' hy' hpassed :=
    h.front_old x' y' hx' hy' (mt (passed_row hx').mpr hpassed)
  shows_new x' y' hx' hy' hpassed := h.shows_new x' y' hx' hy' ((passed_row hx').mp hpassed)
  shows_old x' y' hx' hy' hpassed _ :=
    h.shows_old x' y' hx' hy' (mt (passed_row hx').mpr hpassed) fun he ↦ absurd he hx'.ne

theorem Reached.row {t₀ : Terminal} {y : ℕ} (hnew : Frame columns rows new)
    (h : Reached columns rows old new r (t₀.feed r.bytes) 0 y) (hy : y < rows) :
    Reached columns rows old new (row columns new r y)
      (t₀.feed (row columns new r y).bytes) 0 (y + 1) := by
  apply Reached.next_row
  exact foldl_range (P := fun x r ↦ Reached columns rows old new r (t₀.feed r.bytes) x y) h
    fun x hx r hr ↦ hr.cell hnew hx hy

/-- Two buffers with the same cells are equal. -/
theorem cells_ext {front : List TcUiCell} (hfront : front.length = columns * rows)
    (hnew : new.length = columns * rows)
    (h : ∀ x y, x < columns → y < rows → cellAt columns front x y = cellAt columns new x y) :
    front = new := by
  apply List.ext_getElem (hfront.trans hnew.symm)
  intro i hi hi'
  have hlt : i < columns * rows := hfront ▸ hi
  have hpos : 0 < columns := Nat.pos_of_mul_pos_right (Nat.zero_lt_of_lt hlt)
  have hcell := h (i % columns) (i / columns) (Nat.mod_lt i hpos) (Nat.div_lt_of_lt_mul hlt)
  have hindex : i / columns * columns + i % columns = i := Nat.div_add_mod' i columns
  rw [cellAt, cellAt, hindex, List.getD_eq_getElem _ _ hi, List.getD_eq_getElem _ _ hi'] at hcell
  exact hcell

/-- Nothing is written for a cell that is in the front buffer. -/
theorem cell_same (h : r.front = new) (x y : ℕ) : cell columns new y r x = r := by
  rw [cell, h]
  exact if_pos rfl

theorem rendered_same {rows : ℕ} (h : r.front = new) :
    (List.range rows).foldl (row columns new) r = r := by
  have hrow : ∀ y, row columns new r y = r := fun y ↦
    foldl_range (P := fun _ s ↦ s = r) rfl fun x _ s hs ↦ by rw [hs, cell_same h]
  exact foldl_range (P := fun _ s ↦ s = r) rfl fun y _ s hs ↦ by rw [hs, hrow]

theorem reached_start (hready : t.Ready columns) (hlength : old.length = columns * rows)
    (hshows : t.Shows columns rows old) :
    Reached columns rows old new ⟨old, [], 0, -2, -2, 0xffffffff, 0xffffffff⟩ t 0 0 := by
  have hpassed : ∀ {x' y'}, ¬ Passed 0 0 x' y' := by
    intro x' y'
    unfold Passed
    omega
  constructor
  · exact hready
  · exact .inr (show (-2 : ℤ) < 0 by decide)
  · exact .inr rfl
  · exact hlength
  · exact fun _ _ _ _ h ↦ absurd h hpassed
  · exact fun _ _ _ _ _ ↦ rfl
  · exact fun _ _ _ _ h ↦ absurd h hpassed
  · exact fun x' y' hx' hy' _ _ ↦ hshows x' y' hx' hy'

end Render

/-- The state of the loops of `tc_ui_render` at their end. -/
theorem TcUi.rendered_reached {ui : TcUi} {t : Terminal}
    (hback : Frame ui.width ui.height ui.back)
    (hfront : ui.front.length = ui.width * ui.height) (hready : t.Ready ui.width)
    (hshows : t.Shows ui.width ui.height ui.front) :
    Render.Reached ui.width ui.height ui.front ui.back ui.rendered (t.feed ui.rendered.bytes)
      0 ui.height :=
  Render.foldl_range
    (P := fun y r ↦ Render.Reached ui.width ui.height ui.front ui.back r (t.feed r.bytes) 0 y)
    (Render.reached_start hready hfront hshows) fun _ hy _ hr ↦ hr.row hback hy

/-- A terminal that shows the front buffer shows the back buffer after the bytes of
`tc_ui_render`, and the next call returns none. -/
theorem render_shows_back {ui : TcUi} {t : Terminal} (hback : Frame ui.width ui.height ui.back)
    (hfront : ui.front.length = ui.width * ui.height) (hready : t.Ready ui.width)
    (hshows : t.Shows ui.width ui.height ui.front) :
    (t.feed ui.render.2).Shows ui.width ui.height ui.back ∧
      (t.feed ui.render.2).Ready ui.width ∧ ui.render.1.render.2 = [] := by
  have hreached := TcUi.rendered_reached hback hfront hready hshows
  have hpassed : ∀ {x' y'}, y' < ui.height → Render.Passed 0 ui.height x' y' := fun h ↦ .inl h
  refine ⟨?_, hreached.ready, ?_⟩
  · exact fun x y hx hy ↦ hreached.shows_new x y hx hy (hpassed hy)
  · have hsame : ui.rendered.front = ui.back := by
      apply Render.cells_ext hreached.length hback.length
      exact fun x y hx hy ↦ hreached.front_new x y hx hy (hpassed hy)
    exact congrArg Render.bytes
      (Render.rendered_same (r := ⟨_, [], 0, -2, -2, 0xffffffff, 0xffffffff⟩) hsame)

/-- A terminal of spaces. -/
def blankTerminal (columns : ℕ) : Terminal :=
  ⟨columns, fun _ _ ↦ .glyph ⟨32, 0, 0⟩ 1, 0, 0, 0, 0, .ground⟩

theorem blankTerminal_ready (columns : ℕ) : (blankTerminal columns).Ready columns := by
  refine ⟨rfl, rfl, fun _ ↦ ⟨?_, ?_, ?_⟩⟩
  · rintro _ _ _ ⟨⟩
    exact .inl rfl
  · rintro _ _ ⟨⟩
  · rintro _ ⟨⟩

/-- A window of two columns that shows spaces and is to show the given cells. -/
def smallWindow (back : List TcUiCell) : TcUi :=
  ⟨2, 1, List.replicate 2 ⟨32, 0, 0, 0, 1⟩, back, none, none, 0⟩

theorem blankTerminal_shows (back : List TcUiCell) :
    (blankTerminal 2).Shows 2 1 (smallWindow back).front := by
  intro x y hx hy
  interval_cases y
  interval_cases x <;> exact fun _ ↦ rfl

theorem frame_wide : Frame 2 1 [⟨0x65e5, 255, 0, 0, 2⟩, ⟨0, 255, 0, 0, 0⟩] := by
  refine ⟨⟨rfl, ?_, ?_, ?_⟩, ?_⟩
  · intro x y hx hy
    interval_cases y
    interval_cases x <;> decide
  · intro x y hx hy
    interval_cases y
    interval_cases x
    · exact fun hzero ↦ absurd hzero (by decide)
    · exact fun _ ↦ ⟨0, rfl, rfl⟩
  · intro x y hx hy
    interval_cases y
    interval_cases x <;> decide
  · intro x y hx hy
    interval_cases y
    interval_cases x <;> decide

theorem render_shows_back_wide :
    ((blankTerminal 2).feed
        (smallWindow [⟨0x65e5, 255, 0, 0, 2⟩, ⟨0, 255, 0, 0, 0⟩]).render.2).Shows 2 1
      [⟨0x65e5, 255, 0, 0, 2⟩, ⟨0, 255, 0, 0, 0⟩] :=
  (@render_shows_back (smallWindow _) _ frame_wide rfl (blankTerminal_ready 2)
    (blankTerminal_shows _)).1

/-- A cell of width one that holds a wide code point takes two columns of the terminal. -/
theorem narrow_cell_with_wide_glyph :
    ¬ ∀ (ui : TcUi) (t : Terminal), Halves ui.width ui.height ui.front →
      Halves ui.width ui.height ui.back → t.Ready ui.width →
      t.Shows ui.width ui.height ui.front →
      (t.feed ui.render.2).Shows ui.width ui.height ui.back := by
  intro h
  have hfront : Halves 2 1 (List.replicate 2 (⟨32, 0, 0, 0, 1⟩ : TcUiCell)) := by
    refine ⟨rfl, ?_, ?_, ?_⟩ <;>
    · intro x y hx hy
      interval_cases y
      interval_cases x <;> simp [cellAt]
  have hback : Halves 2 1 [⟨0x65e5, 0, 0, 0, 1⟩, ⟨33, 0, 0, 0, 1⟩] := by
    refine ⟨rfl, ?_, ?_, ?_⟩ <;>
    · intro x y hx hy
      interval_cases y
      interval_cases x <;> simp [cellAt]
  have hshown := h (smallWindow [⟨0x65e5, 0, 0, 0, 1⟩, ⟨33, 0, 0, 0, 1⟩]) (blankTerminal 2)
    hfront hback (blankTerminal_ready 2) (blankTerminal_shows _) 0 0 (by decide) (by decide)
    (by decide)
  exact absurd hshown (by decide +kernel)

end TinyCPlus.Tui
