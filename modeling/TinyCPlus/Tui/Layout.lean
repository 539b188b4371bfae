import TinyCPlus.Library.FairShare
import TinyCPlus.Tui.Widget

/-!
# What the layout of a widget tree satisfies

Every widget of a tree that has been laid out stands to its children as `LaidOut`
says.  The sizes along the main axis are computed apart from the areas, so that the
hand-out of the flexible space is that of `fairShares`.
-/

namespace TinyCPlus.Tui

open TinyCPlus.Library

/-! ## Areas -/

namespace Rect

/-- The cell at `x` and `y` belongs to the area. -/
def Mem (r : Rect) (x y : ℤ) : Prop :=
  r.x ≤ x ∧ x < r.x + r.width ∧ r.y ≤ y ∧ y < r.y + r.height

/-- An area whose sides are not negative. -/
def Nonneg (r : Rect) : Prop := 0 ≤ r.width ∧ 0 ≤ r.height

/-- `r` lies inside `outer`. -/
def Inside (r outer : Rect) : Prop :=
  outer.x ≤ r.x ∧ r.x + r.width ≤ outer.x + outer.width ∧
    outer.y ≤ r.y ∧ r.y + r.height ≤ outer.y + outer.height

def Disjoint (r s : Rect) : Prop := ∀ x y, r.Mem x y → ¬ s.Mem x y

/-- From `position` on the areas follow each other along the main axis of `content`,
each with its full cross size. -/
def Contiguous (content : Rect) (vertical : Bool) : ℤ → List Rect → Prop
  | _, [] => True
  | position, r :: rest =>
      r = content.slice vertical position (r.main vertical) ∧ 0 ≤ r.main vertical ∧
        Contiguous content vertical (position + r.main vertical) rest

theorem Inside.trans {r s t : Rect} (hrs : r.Inside s) (hst : s.Inside t) : r.Inside t := by
  obtain ⟨h1, h2, h3, h4⟩ := hrs
  obtain ⟨h5, h6, h7, h8⟩ := hst
  exact ⟨h5.trans h1, h2.trans h6, h7.trans h3, h4.trans h8⟩

theorem Inside.mem {r s : Rect} (h : r.Inside s) {x y : ℤ} (hmem : r.Mem x y) : s.Mem x y := by
  obtain ⟨h1, h2, h3, h4⟩ := h
  obtain ⟨m1, m2, m3, m4⟩ := hmem
  exact ⟨h1.trans m1, m2.trans_le h2, h3.trans m3, m4.trans_le h4⟩

@[simp] theorem main_slice (r : Rect) (vertical : Bool) (position size : ℤ) :
    (r.slice vertical position size).main vertical = size := by
  cases vertical <;> rfl

/-- A slice within the main size lies inside. -/
theorem slice_inside (r : Rect) (vertical : Bool) {position size : ℤ} (hpos : 0 ≤ position)
    (hle : position + size ≤ r.main vertical) : (r.slice vertical position size).Inside r := by
  cases vertical
  · have hle : position + size ≤ r.width := hle
    refine ⟨?_, ?_, ?_, ?_⟩ <;> simp [slice] <;> omega
  · have hle : position + size ≤ r.height := hle
    refine ⟨?_, ?_, ?_, ?_⟩ <;> simp [slice] <;> omega

/-- Slices at positions that do not overlap are disjoint. -/
theorem slice_disjoint (r : Rect) (vertical : Bool) {p q m n : ℤ} (h : p + m ≤ q) :
    (r.slice vertical p m).Disjoint (r.slice vertical q n) := by
  intro x y hp hq
  obtain ⟨-, hx, -, hy⟩ := hp
  obtain ⟨hx', -, hy', -⟩ := hq
  cases vertical <;> simp [slice] at hx hy hx' hy' <;> omega

/-- The slices of the given sizes, one after the other. -/
def slices (content : Rect) (vertical : Bool) : ℤ → List ℤ → List Rect
  | _, [] => []
  | position, size :: rest =>
      content.slice vertical position size :: slices content vertical (position + size) rest

variable (content : Rect) (vertical : Bool)

@[simp] theorem length_slices (position : ℤ) (sizes : List ℤ) :
    (slices content vertical position sizes).length = sizes.length := by
  induction sizes generalizing position with
  | nil => rfl
  | cons size rest ih => rw [slices, List.length_cons, ih, List.length_cons]

theorem map_main_slices (position : ℤ) (sizes : List ℤ) :
    (slices content vertical position sizes).map (·.main vertical) = sizes := by
  induction sizes generalizing position with
  | nil => rfl
  | cons size rest ih => rw [slices, List.map_cons, main_slice, ih]

theorem contiguous_slices (position : ℤ) {sizes : List ℤ} (h : ∀ s ∈ sizes, 0 ≤ s) :
    Contiguous content vertical position (slices content vertical position sizes) := by
  induction sizes generalizing position with
  | nil => trivial
  | cons size rest ih =>
      rw [slices, Contiguous, main_slice]
      exact ⟨rfl, h size List.mem_cons_self, ih _ fun s hs ↦ h s (List.mem_cons_of_mem _ hs)⟩

/-- A slice starts at its position or behind it. -/
theorem exists_of_mem_slices {position : ℤ} {sizes : List ℤ} (h : ∀ s ∈ sizes, 0 ≤ s) {r : Rect}
    (hr : r ∈ slices content vertical position sizes) :
    ∃ q n, position ≤ q ∧ 0 ≤ n ∧ q + n ≤ position + sizes.sum ∧
      r = content.slice vertical q n := by
  induction sizes generalizing position with
  | nil => cases hr
  | cons size rest ih =>
      have hsize := h size List.mem_cons_self
      have hrest : ∀ s ∈ rest, 0 ≤ s := fun s hs ↦ h s (List.mem_cons_of_mem _ hs)
      rw [slices, List.mem_cons] at hr
      rw [List.sum_cons]
      rcases hr with rfl | hr
      · have hsum : 0 ≤ rest.sum := List.sum_nonneg hrest
        exact ⟨position, size, le_rfl, hsize, by omega, rfl⟩
      · obtain ⟨q, n, hq, hn, hle, hslice⟩ := ih hrest hr
        exact ⟨q, n, by omega, hn, by omega, hslice⟩

theorem disjoint_slices (position : ℤ) {sizes : List ℤ} (h : ∀ s ∈ sizes, 0 ≤ s) :
    (slices content vertical position sizes).Pairwise Disjoint := by
  induction sizes generalizing position with
  | nil => exact List.Pairwise.nil
  | cons size rest ih =>
      have hrest : ∀ s ∈ rest, 0 ≤ s := fun s hs ↦ h s (List.mem_cons_of_mem _ hs)
      rw [slices, List.pairwise_cons]
      refine ⟨fun r hr ↦ ?_, ih _ hrest⟩
      obtain ⟨q, n, hq, -, -, rfl⟩ := exists_of_mem_slices content vertical hrest hr
      exact slice_disjoint content vertical hq

end Rect

/-! ## Sizes along the main axis -/

/-- The sizes that the second loop gives to children with the given natural sizes. -/
def childSizes (available : ℤ) : List ℤ → ℤ → ℤ → ℤ → List ℤ
  | [], _, _, _ => []
  | natural :: rest, total, flex, position =>
      let granted := if natural = 0 then flexSize available total flex else natural
      let size := clampSize available position granted
      size :: childSizes available rest (if natural = 0 then total + granted else total)
        (if natural = 0 then flex - 1 else flex) (position + size)

section Sizes

variable {available total flex position : ℤ}

theorem length_childSizes (naturals : List ℤ) :
    (childSizes available naturals total flex position).length = naturals.length := by
  induction naturals generalizing total flex position with
  | nil => rfl
  | cons natural rest ih => rw [childSizes, List.length_cons, ih, List.length_cons]

theorem clampSize_nonneg (size : ℤ) : 0 ≤ clampSize available position size := by
  simp only [clampSize]
  split_ifs <;> omega

theorem clampSize_le (h : position ≤ available) (size : ℤ) :
    position + clampSize available position size ≤ available := by
  simp only [clampSize]
  split_ifs <;> omega

theorem clampSize_of_fits {size : ℤ} (h : 0 ≤ size) (hfits : position + size ≤ available) :
    clampSize available position size = size := by
  simp only [clampSize]
  split_ifs <;> omega

theorem childSizes_nonneg (naturals : List ℤ) :
    ∀ s ∈ childSizes available naturals total flex position, 0 ≤ s := by
  induction naturals generalizing total flex position with
  | nil => exact fun s hs ↦ absurd hs List.not_mem_nil
  | cons natural rest ih =>
      intro s hs
      rw [childSizes, List.mem_cons] at hs
      rcases hs with rfl | hs
      · exact clampSize_nonneg _
      · exact ih s hs

/-- The children do not run over the end. -/
theorem childSizes_sum_le (naturals : List ℤ) (h : position ≤ available) :
    position + (childSizes available naturals total flex position).sum ≤ available := by
  induction naturals generalizing total flex position with
  | nil => simpa [childSizes] using h
  | cons natural rest ih =>
      rw [childSizes, List.sum_cons, ← add_assoc]
      exact ih (clampSize_le h _)

/-- Fixed sizes with the flexible ones put in their places. -/
def fillFlexible : List ℤ → List ℤ → List ℤ
  | [], _ => []
  | natural :: rest, shares =>
      if natural = 0 then shares.headD 0 :: fillFlexible rest shares.tail
      else natural :: fillFlexible rest shares

/-- Where the fixed sizes fit, the flexible children get the fair shares of the rest. -/
theorem childSizes_of_fits {naturals : List ℤ} (hnat : ∀ n ∈ naturals, 0 ≤ n)
    (hroom : 0 ≤ available - total) (htotal : position + naturals.sum = total) :
    childSizes available naturals total (naturals.count 0) position =
      fillFlexible naturals (fairShares (naturals.count 0) (available - total)) := by
  induction naturals generalizing total position with
  | nil => rfl
  | cons natural rest ih =>
      have hrest : ∀ n ∈ rest, 0 ≤ n := fun n hn ↦ hnat n (List.mem_cons_of_mem _ hn)
      have hsum : 0 ≤ rest.sum := List.sum_nonneg hrest
      rw [List.sum_cons] at htotal
      rw [childSizes, fillFlexible]
      by_cases hzero : natural = 0
      · subst hzero
        have hcount : (0 :: rest).count (0 : ℤ) = rest.count 0 + 1 := List.count_cons_self
        have hshare : 0 ≤ (available - total) / (rest.count 0 + 1 : ℕ) :=
          Int.ediv_nonneg hroom (by omega)
        have hle : (available - total) / (rest.count 0 + 1 : ℕ) ≤ available - total :=
          Int.ediv_le_self _ hroom
        have hflex : flexSize available total (rest.count 0 + 1 : ℕ) =
            (available - total) / (rest.count 0 + 1 : ℕ) := by
          have hne : ((rest.count 0 + 1 : ℕ) : ℤ) ≠ 0 := by omega
          simp only [flexSize, Int.tdiv_eq_ediv_of_nonneg hroom, if_pos hne,
            if_neg (not_lt.mpr hshare)]
        have hclamp : clampSize available position ((available - total) / (rest.count 0 + 1 : ℕ)) =
            (available - total) / (rest.count 0 + 1 : ℕ) :=
          clampSize_of_fits hshare (by omega)
        have hpred : ((rest.count 0 + 1 : ℕ) : ℤ) - 1 = rest.count 0 := by omega
        have hroom' : 0 ≤ available - (total + (available - total) / (rest.count 0 + 1 : ℕ)) := by
          omega
        have hih := ih hrest hroom' (by omega : position +
          (available - total) / (rest.count 0 + 1 : ℕ) + rest.sum = _)
        simp only [hcount, if_true, hflex, hclamp, hpred, hih, fairShares, List.headD_cons,
          List.tail_cons, sub_add_eq_sub_sub]
      · have hpos := hnat natural List.mem_cons_self
        have hclamp : clampSize available position natural = natural :=
          clampSize_of_fits hpos (by omega)
        have hih := ih hrest hroom (by omega : position + natural + rest.sum = total)
        simp only [List.count_cons_of_ne hzero, if_neg hzero, hclamp, hih]

theorem sum_fillFlexible {naturals shares : List ℤ} (h : shares.length = naturals.count 0) :
    (fillFlexible naturals shares).sum = naturals.sum + shares.sum := by
  induction naturals generalizing shares with
  | nil =>
      rw [List.count_nil, List.length_eq_zero_iff] at h
      rw [h]
      rfl
  | cons natural rest ih =>
      rw [fillFlexible, List.sum_cons]
      by_cases hzero : natural = 0
      · subst hzero
        rw [List.count_cons_self] at h
        cases shares with
        | nil => cases h
        | cons share shares =>
            rw [if_pos rfl, List.sum_cons, List.headD_cons, List.tail_cons,
              ih (Nat.succ.inj h), List.sum_cons]
            ring
      · rw [List.count_cons_of_ne hzero] at h
        rw [if_neg hzero, List.sum_cons, ih h, add_assoc]

/-- A flexible child has one of the shares. -/
theorem mem_of_mem_zip_fillFlexible {naturals shares : List ℤ}
    (h : shares.length = naturals.count 0) {size : ℤ}
    (hmem : (0, size) ∈ naturals.zip (fillFlexible naturals shares)) : size ∈ shares := by
  induction naturals generalizing shares with
  | nil => cases hmem
  | cons natural rest ih =>
      rw [fillFlexible] at hmem
      by_cases hzero : natural = 0
      · subst hzero
        rw [List.count_cons_self] at h
        cases shares with
        | nil => cases h
        | cons share shares =>
            rw [if_pos rfl, List.zip_cons_cons, List.mem_cons, List.headD_cons,
              List.tail_cons] at hmem
            rcases hmem with heq | hmem
            · rw [Prod.mk.injEq] at heq
              exact heq.2 ▸ List.mem_cons_self
            · exact List.mem_cons_of_mem _ (ih (Nat.succ.inj h) hmem)
      · rw [List.count_cons_of_ne hzero] at h
        rw [if_neg hzero, List.zip_cons_cons, List.mem_cons] at hmem
        rcases hmem with heq | hmem
        · rw [Prod.mk.injEq] at heq
          exact absurd heq.1.symm hzero
        · exact ih h hmem

end Sizes

/-! ## Trees -/

/-- How a widget that has been laid out stands to its children. -/
structure TcWidget.LaidOut (w : TcWidget) : Prop where
  inside : ∀ c ∈ w.children, 0 < c.own.area.width → 0 < c.own.area.height →
    c.own.area.Inside (contentRect w.own.kind w.own.area)
  stack : w.own.kind = .stack → ∀ c ∈ w.children,
    c.own.area = contentRect w.own.kind w.own.area
  contiguous : w.own.kind ≠ .stack →
    Rect.Contiguous (contentRect w.own.kind w.own.area) (w.own.kind ≠ .row) 0
      (w.children.map (·.own.area))
  disjoint : w.own.kind ≠ .stack → (w.children.map (·.own.area)).Pairwise Rect.Disjoint
  fills : w.own.kind ≠ .stack → (∃ c ∈ w.children, c.natural (w.own.kind ≠ .row) = 0) →
    (w.children.map (·.natural (w.own.kind ≠ .row))).sum ≤
      (contentRect w.own.kind w.own.area).main (w.own.kind ≠ .row) →
    (w.children.map (·.own.area.main (w.own.kind ≠ .row))).sum =
      (contentRect w.own.kind w.own.area).main (w.own.kind ≠ .row)
  even : w.own.kind ≠ .stack →
    (w.children.map (·.natural (w.own.kind ≠ .row))).sum ≤
      (contentRect w.own.kind w.own.area).main (w.own.kind ≠ .row) →
    ∀ c ∈ w.children, ∀ d ∈ w.children, c.natural (w.own.kind ≠ .row) = 0 →
      d.natural (w.own.kind ≠ .row) = 0 →
      c.own.area.main (w.own.kind ≠ .row) - d.own.area.main (w.own.kind ≠ .row) ≤ 1

namespace TcWidget

theorem natural_nonneg (w : TcWidget) (vertical : Bool) : 0 ≤ w.natural vertical := by
  simp only [natural]
  split_ifs <;> omega

@[simp] theorem own_layout (w : TcWidget) (area : Rect) :
    (w.layout area).own = { w.own with area := area } := by
  cases w
  rfl

@[simp] theorem kind_layout (w : TcWidget) (area : Rect) :
    (w.layout area).own.kind = w.own.kind := by
  rw [own_layout]

@[simp] theorem area_layout (w : TcWidget) (area : Rect) : (w.layout area).own.area = area := by
  rw [own_layout]

@[simp] theorem natural_layout (w : TcWidget) (area : Rect) (vertical : Bool) :
    (w.layout area).natural vertical = w.natural vertical := by
  simp only [natural, own_layout]

/-- The first loop adds the natural sizes and counts those that are zero. -/
theorem childTotals_eq (vertical : Bool) (children : List TcWidget) :
    childTotals vertical children = ((children.map (·.natural vertical)).sum,
      ((children.map (·.natural vertical)).count 0 : ℤ)) := by
  induction children with
  | nil => rfl
  | cons child rest ih =>
      rw [childTotals, ih, List.map_cons, List.sum_cons]
      by_cases hzero : child.natural vertical = 0
      · simp [hzero]
      · simp [hzero, add_comm]

/-- Outside a stack the children take the slices of the computed sizes. -/
theorem map_layoutChildren {kind : WidgetKind} (hkind : kind ≠ .stack) (vertical : Bool)
    (content : Rect) (children : List TcWidget) (total flex position : ℤ) :
    (layoutChildren kind vertical content children total flex position).map
        (fun c ↦ (c.natural vertical, c.own.area)) =
      (children.map (·.natural vertical)).zip (Rect.slices content vertical position
        (childSizes (content.main vertical) (children.map (·.natural vertical)) total flex
          position)) := by
  induction children generalizing total flex position with
  | nil => rfl
  | cons child rest ih =>
      rw [layoutChildren, if_neg hkind, List.map_cons, ih, List.map_cons, childSizes, Rect.slices,
        List.zip_cons_cons, natural_layout, own_layout]

theorem mem_layoutChildren_stack {kind : WidgetKind} (hkind : kind = .stack) (vertical : Bool)
    (content : Rect) (children : List TcWidget) (total flex position : ℤ) :
    ∀ c ∈ layoutChildren kind vertical content children total flex position,
      c.own.area = content := by
  induction children with
  | nil => exact fun c hc ↦ absurd hc List.not_mem_nil
  | cons child rest ih =>
      intro c hc
      rw [layoutChildren, if_pos hkind, List.mem_cons] at hc
      rcases hc with rfl | hc
      · rw [own_layout]
      · exact ih c hc

theorem contentRect_main_nonneg (kind : WidgetKind) (area : Rect) (vertical : Bool) :
    0 ≤ (contentRect kind area).main vertical := by
  cases vertical <;> simp only [contentRect, Rect.main] <;> split_ifs <;> omega

section Children

variable {kind : WidgetKind} (hkind : kind ≠ .stack) (vertical : Bool) (content : Rect)
  (children : List TcWidget)

/-- The laid-out children of a widget, from position zero. -/
def laidChildren (kind : WidgetKind) (vertical : Bool) (content : Rect)
    (children : List TcWidget) : List TcWidget :=
  layoutChildren kind vertical content children (childTotals vertical children).1
    (childTotals vertical children).2 0

/-- The sizes of these children. -/
def laidSizes (vertical : Bool) (content : Rect) (children : List TcWidget) : List ℤ :=
  childSizes (content.main vertical) (children.map (·.natural vertical))
    (children.map (·.natural vertical)).sum ((children.map (·.natural vertical)).count 0) 0

include hkind

theorem laidChildren_map :
    (laidChildren kind vertical content children).map
        (fun c ↦ (c.natural vertical, c.own.area)) =
      (children.map (·.natural vertical)).zip
        (Rect.slices content vertical 0 (laidSizes vertical content children)) := by
  rw [laidChildren, map_layoutChildren hkind, childTotals_eq, laidSizes]

theorem laidChildren_areas :
    (laidChildren kind vertical content children).map (·.own.area) =
      Rect.slices content vertical 0 (laidSizes vertical content children) := by
  have hmap := congrArg (List.map Prod.snd) (laidChildren_map hkind vertical content children)
  rw [List.map_map, List.map_snd_zip] at hmap
  · exact hmap
  · rw [Rect.length_slices, laidSizes, length_childSizes]

theorem laidChildren_naturals :
    (laidChildren kind vertical content children).map (·.natural vertical) =
      children.map (·.natural vertical) := by
  have hmap := congrArg (List.map Prod.fst) (laidChildren_map hkind vertical content children)
  rw [List.map_map, List.map_fst_zip] at hmap
  · exact hmap
  · rw [Rect.length_slices, laidSizes, length_childSizes]

theorem laidChildren_mains :
    (laidChildren kind vertical content children).map (·.own.area.main vertical) =
      laidSizes vertical content children := by
  have hmap := congrArg (List.map (Rect.main · vertical))
    (laidChildren_areas hkind vertical content children)
  rwa [List.map_map, Rect.map_main_slices] at hmap

theorem laidChildren_inside (hcontent : 0 ≤ content.main vertical) :
    ∀ c ∈ laidChildren kind vertical content children, c.own.area.Inside content := by
  intro c hc
  have hmem : c.own.area ∈ (laidChildren kind vertical content children).map (·.own.area) :=
    List.mem_map_of_mem hc
  rw [laidChildren_areas hkind] at hmem
  obtain ⟨q, n, hq, -, hle, harea⟩ :=
    Rect.exists_of_mem_slices content vertical (childSizes_nonneg _) hmem
  have hsum : 0 + (laidSizes vertical content children).sum ≤ content.main vertical :=
    childSizes_sum_le _ hcontent
  rw [harea]
  exact Rect.slice_inside content vertical hq (hle.trans hsum)

omit hkind in
/-- Where the fixed sizes fit, the sizes are the fixed ones and the fair shares. -/
theorem laidSizes_of_fits
    (hfits : (children.map (·.natural vertical)).sum ≤ content.main vertical) :
    laidSizes vertical content children = fillFlexible (children.map (·.natural vertical))
      (fairShares ((children.map (·.natural vertical)).count 0)
        (content.main vertical - (children.map (·.natural vertical)).sum)) := by
  refine childSizes_of_fits (fun n hn ↦ ?_) (Int.sub_nonneg_of_le hfits) (zero_add _)
  obtain ⟨c, -, rfl⟩ := List.mem_map.mp hn
  exact c.natural_nonneg vertical

theorem laidChildren_fills
    (hflex : ∃ c ∈ laidChildren kind vertical content children, c.natural vertical = 0)
    (hfits : (children.map (·.natural vertical)).sum ≤ content.main vertical) :
    ((laidChildren kind vertical content children).map (·.own.area.main vertical)).sum =
      content.main vertical := by
  have hcount : (children.map (·.natural vertical)).count 0 ≠ 0 := by
    obtain ⟨c, hc, hzero⟩ := hflex
    rw [← laidChildren_naturals hkind vertical content, Ne, List.count_eq_zero, not_not, ← hzero]
    exact List.mem_map_of_mem hc
  rw [laidChildren_mains hkind, laidSizes_of_fits vertical content children hfits,
    sum_fillFlexible (length_fairShares _ _), sum_fairShares hcount]
  exact add_sub_cancel _ _

/-- A flexible child has one of the fair shares. -/
theorem laidChildren_share
    (hfits : (children.map (·.natural vertical)).sum ≤ content.main vertical) {c : TcWidget}
    (hc : c ∈ laidChildren kind vertical content children) (hzero : c.natural vertical = 0) :
    c.own.area.main vertical ∈ fairShares ((children.map (·.natural vertical)).count 0)
      (content.main vertical - (children.map (·.natural vertical)).sum) := by
  have hzip : (laidChildren kind vertical content children).map
      (fun c ↦ (c.natural vertical, c.own.area.main vertical)) =
        (children.map (·.natural vertical)).zip (laidSizes vertical content children) := by
    rw [← laidChildren_mains hkind, ← laidChildren_naturals hkind vertical content]
    exact List.zip_map'.symm
  have hmem : (c.natural vertical, c.own.area.main vertical) ∈
      (children.map (·.natural vertical)).zip (laidSizes vertical content children) := by
    rw [← hzip]
    exact List.mem_map_of_mem (f := fun c : TcWidget ↦
      (c.natural vertical, c.own.area.main vertical)) hc
  rw [hzero, laidSizes_of_fits vertical content children hfits] at hmem
  exact mem_of_mem_zip_fillFlexible (length_fairShares _ _) hmem

end Children

theorem laidOut_layout (w : TcWidget) (area : Rect) : (w.layout area).LaidOut := by
  obtain ⟨own, children⟩ := w
  have hcontent := contentRect_main_nonneg own.kind area (own.kind ≠ .row)
  have hchildren : ((mk own children).layout area).children =
      laidChildren own.kind (own.kind ≠ .row) (contentRect own.kind area) children := rfl
  constructor <;> simp only [kind_layout, area_layout, own_mk, hchildren]
  · intro c hc hwidth hheight
    by_cases hkind : own.kind = .stack
    · have harea := mem_layoutChildren_stack hkind _ _ _ _ _ _ c hc
      rw [harea]
      exact ⟨le_rfl, le_rfl, le_rfl, le_rfl⟩
    · exact laidChildren_inside hkind _ _ _ hcontent c hc
  · intro hkind c hc
    exact mem_layoutChildren_stack hkind _ _ _ _ _ _ c hc
  · intro hkind
    rw [laidChildren_areas hkind]
    exact Rect.contiguous_slices _ _ _ (childSizes_nonneg _)
  · intro hkind
    rw [laidChildren_areas hkind]
    exact Rect.disjoint_slices _ _ _ (childSizes_nonneg _)
  · intro hkind hflex hfits
    rw [laidChildren_naturals hkind] at hfits
    exact laidChildren_fills hkind _ _ _ hflex hfits
  · intro hkind hfits c hc d hd hzero hzero'
    rw [laidChildren_naturals hkind] at hfits
    exact fairShares_sub_le (laidChildren_share hkind _ _ _ hfits hc hzero)
      (laidChildren_share hkind _ _ _ hfits hd hzero')

mutual

/-- Every widget of a tree that has been laid out stands to its children as it should. -/
theorem layout_subtrees (w : TcWidget) (area : Rect) :
    ∀ v ∈ (w.layout area).subtrees, v.LaidOut :=
  match w with
  | .mk own children => by
      intro v hv
      rw [layout, subtrees, List.mem_cons] at hv
      rcases hv with rfl | hv
      · exact laidOut_layout (.mk own children) area
      · exact layoutChildren_subtrees children _ _ _ _ _ _ v hv

theorem layoutChildren_subtrees (children : List TcWidget) (kind : WidgetKind) (vertical : Bool)
    (content : Rect) (total flex position : ℤ) :
    ∀ v ∈ allSubtrees (layoutChildren kind vertical content children total flex position),
      v.LaidOut :=
  match children with
  | [] => fun v hv ↦ absurd hv List.not_mem_nil
  | child :: rest => by
      intro v hv
      rw [layoutChildren] at hv
      split at hv
      · rw [allSubtrees, List.mem_append] at hv
        rcases hv with hv | hv
        · exact layout_subtrees child _ v hv
        · exact layoutChildren_subtrees rest _ _ _ _ _ _ v hv
      · rw [allSubtrees, List.mem_append] at hv
        rcases hv with hv | hv
        · exact layout_subtrees child _ v hv
        · exact layoutChildren_subtrees rest _ _ _ _ _ _ v hv

end

theorem contentRect_nonneg (kind : WidgetKind) (area : Rect) : (contentRect kind area).Nonneg :=
  ⟨contentRect_main_nonneg kind area false, contentRect_main_nonneg kind area true⟩

theorem slice_nonneg {r : Rect} (h : r.Nonneg) (vertical : Bool) (position : ℤ) {size : ℤ}
    (hsize : 0 ≤ size) : (r.slice vertical position size).Nonneg := by
  cases vertical
  · exact ⟨hsize, h.2⟩
  · exact ⟨h.1, hsize⟩

mutual

theorem layout_nonneg (w : TcWidget) (area : Rect) (h : area.Nonneg) :
    ∀ v ∈ (w.layout area).subtrees, v.own.area.Nonneg :=
  match w with
  | .mk own children => by
      intro v hv
      rw [layout, subtrees, List.mem_cons] at hv
      rcases hv with rfl | hv
      · exact h
      · exact layoutChildren_nonneg children _ _ _ _ _ _ (contentRect_nonneg _ _) v hv

theorem layoutChildren_nonneg (children : List TcWidget) (kind : WidgetKind) (vertical : Bool)
    (content : Rect) (total flex position : ℤ) (h : content.Nonneg) :
    ∀ v ∈ allSubtrees (layoutChildren kind vertical content children total flex position),
      v.own.area.Nonneg :=
  match children with
  | [] => fun v hv ↦ absurd hv List.not_mem_nil
  | child :: rest => by
      intro v hv
      rw [layoutChildren] at hv
      split at hv
      · rw [allSubtrees, List.mem_append] at hv
        rcases hv with hv | hv
        · exact layout_nonneg child _ h v hv
        · exact layoutChildren_nonneg rest _ _ _ _ _ _ h v hv
      · rw [allSubtrees, List.mem_append] at hv
        rcases hv with hv | hv
        · exact layout_nonneg child _ (slice_nonneg h vertical _ (clampSize_nonneg _)) v hv
        · exact layoutChildren_nonneg rest _ _ _ _ _ _ h v hv

end

theorem contentRect_eq_self {kind : WidgetKind} (hkind : kind ≠ .panel) {area : Rect}
    (h : area.Nonneg) : contentRect kind area = area := by
  simp only [contentRect, if_neg hkind, if_neg (not_lt.mpr h.1), if_neg (not_lt.mpr h.2)]

/-- After the layout of a tree in an area with non-negative sides, every widget of the
tree has such an area too and stands to its children as `LaidOut` says; the content of a
widget that is not a panel is its own area. -/
theorem layout_lays_out (w : TcWidget) (area : Rect) (h : area.Nonneg) :
    ∀ v ∈ (w.layout area).subtrees,
      v.LaidOut ∧ v.own.area.Nonneg ∧
        (v.own.kind ≠ .panel → contentRect v.own.kind v.own.area = v.own.area) := by
  intro v hv
  have hnonneg := layout_nonneg w area h v hv
  exact ⟨layout_subtrees w area v hv, hnonneg, fun hkind ↦ contentRect_eq_self hkind hnonneg⟩

/-- A label, a text box and a row with a button, in a column of eight lines. -/
theorem layout_lays_out_column :
    let tree := mk (.create 0 .column [] 0 0) [mk (.create 1 .label [84] 0 1) [],
      mk (.create 2 .textbox [] 0 0) [], mk (.create 3 .row [] 0 1) [mk (.create 4 .button [83] 0 1) []]]
    (tree.layout ⟨0, 0, 30, 8⟩).LaidOut ∧
      (tree.layout ⟨0, 0, 30, 8⟩).children.map (·.own.area) =
        [⟨0, 0, 30, 1⟩, ⟨0, 1, 30, 6⟩, ⟨0, 7, 30, 1⟩] := by
  intro tree
  have hself : tree.layout ⟨0, 0, 30, 8⟩ ∈ (tree.layout ⟨0, 0, 30, 8⟩).subtrees :=
    List.mem_cons_self
  exact ⟨(layout_lays_out tree ⟨0, 0, 30, 8⟩ ⟨by decide, by decide⟩ _ hself).1, by decide⟩

end TcWidget

end TinyCPlus.Tui
