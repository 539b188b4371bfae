import TinyCPlus.Runtime.GapSimulation

/-!
# The dirty flag of the gap buffer

A call that changes the text sets the flag, and only `tc_gap_clean` clears it.  So a
clean buffer holds the text that it held when it was last known to be clean.
-/

namespace TinyCPlus.Runtime

/-- `tc_gap_clean` -/
def TcGap.clean (g : TcGap) : TcGap := { g with dirty := false }

@[simp] theorem TcGap.dirty_seekImpl (g : TcGap) (p : ℕ) : (g.seekImpl p).dirty = g.dirty := by
  simp only [TcGap.seekImpl]
  split_ifs <;> rfl

@[simp] theorem TcGap.dirty_vertical (g : TcGap) (direction : ℤ) :
    (g.vertical direction).dirty = g.dirty := by
  simp only [TcGap.vertical]
  split_ifs <;> simp

theorem Editor.text_vertical (e : Editor) (direction : ℤ) :
    (e.vertical direction).text = e.text := by
  simp only [Editor.vertical]
  split_ifs <;> rfl

/-- The buffer holds a text within the limit, and the text is `saved` if the buffer is
clean. -/
structure KeepsSaved (g : TcGap) (saved : List UInt8) : Prop where
  holds : ∃ e, Holds g e
  clean : g.dirty = false → g.text = saved

variable {g g' : TcGap} {e e' : Editor} {saved : List UInt8}

theorem Holds.text_eq (h : Holds g e) : g.text = e.text := by
  rw [TcGap.Represents.text_eq h, Holds.append_eq]

namespace KeepsSaved

theorem of_holds (h : KeepsSaved g saved) (he : Holds g e) (he' : Holds g' e')
    (hkeep : g'.dirty = false → g.dirty = false ∧ e'.text = e.text) : KeepsSaved g' saved where
  holds := ⟨e', he'⟩
  clean hdirty := by
    obtain ⟨hclean, htext⟩ := hkeep hdirty
    rw [he'.text_eq, htext, ← he.text_eq, h.clean hclean]

/-- A buffer that is marked clean once its text has been saved. -/
theorem of_clean (h : KeepsSaved g saved) : KeepsSaved g.clean g.text where
  holds := by
    obtain ⟨e, hlayout, hstart⟩ := h.holds
    exact ⟨e, hlayout, hstart⟩
  clean _ := rfl

theorem create {input : List UInt8} (h : input.length ≤ gapLimit) :
    ∃ g, TcGap.create input = some g ∧ g.dirty = false ∧ KeepsSaved g input := by
  obtain ⟨g, hcreate, hrep⟩ := TcGap.create_represents h
  have hdirty : g.dirty = false := by
    rw [TcGap.create, if_neg (not_lt.mpr h)] at hcreate
    rw [← Option.some.inj hcreate]
  have htext : g.text = input := TcGap.Represents.text_eq hrep
  exact ⟨g, hcreate, hdirty, ⟨Editor.ofText input h, Holds.ofText h hrep⟩, fun _ ↦ htext⟩

theorem seekImpl (h : KeepsSaved g saved) (p : ℕ) : KeepsSaved (g.seekImpl p) saved := by
  obtain ⟨e, he⟩ := h.holds
  exact h.of_holds he (he.seekImpl p) fun hdirty ↦ ⟨by rwa [TcGap.dirty_seekImpl] at hdirty, rfl⟩

theorem vertical (h : KeepsSaved g saved) (direction : ℤ) :
    KeepsSaved (g.vertical direction) saved := by
  obtain ⟨e, he⟩ := h.holds
  exact h.of_holds he (he.vertical direction) fun hdirty ↦
    ⟨by rwa [TcGap.dirty_vertical] at hdirty, e.text_vertical direction⟩

theorem insert (h : KeepsSaved g saved) (input : List UInt8) :
    KeepsSaved (g.insert input).1 saved := by
  obtain ⟨e, he⟩ := h.holds
  have hins := (he.insert input).1
  by_cases hempty : input = []
  · subst hempty
    have hsame : (g.insert []).1 = g := by
      simp [TcGap.insert]
    rwa [hsame]
  · refine h.of_holds he hins fun hdirty ↦ ?_
    have hlen : input.length ≠ 0 := fun hzero ↦ hempty (List.length_eq_zero_iff.mp hzero)
    by_cases hfull : gapLimit - g.size < input.length
    · have hsame : (g.insert input).1 = g := by rw [TcGap.insert, if_pos hfull]
      have hcode : (g.insert input).2 = 8 := by rw [TcGap.insert, if_pos hfull]
      rw [hsame] at hdirty
      refine ⟨hdirty, ?_⟩
      rw [(he.insert input).2] at hcode
      rw [Editor.insert, dif_neg]
      intro hfits
      rw [if_pos hfits] at hcode
      cases hcode
    · simp only [TcGap.insert, if_neg hfull, if_pos hlen] at hdirty
      cases hdirty

theorem backspace (h : KeepsSaved g saved) : KeepsSaved g.backspace saved := by
  obtain ⟨e, he⟩ := h.holds
  by_cases hmoves : g.previous g.start ≠ g.start
  · refine h.of_holds he he.backspace fun hdirty ↦ ?_
    rw [TcGap.backspace, if_pos hmoves] at hdirty
    cases hdirty
  · rwa [TcGap.backspace, if_neg hmoves]

theorem delete (h : KeepsSaved g saved) : KeepsSaved g.delete saved := by
  obtain ⟨e, he⟩ := h.holds
  refine h.of_holds he he.delete fun hdirty ↦ ?_
  by_cases hmoves : g.next g.start - g.start ≠ 0
  · simp only [TcGap.delete, if_pos hmoves] at hdirty
    cases hdirty
  · simp only [TcGap.delete, if_neg hmoves] at hdirty
    refine ⟨hdirty, ?_⟩
    have hnext := Editor.le_nextChar e.text e.cursor
    have hstay : Editor.nextChar e.text e.cursor = e.cursor := by
      rw [he.next_eq, he.start_eq, not_not] at hmoves
      omega
    simp only [Editor.delete, Editor.erase, hstay]
    exact List.take_append_drop _ _

theorem cutLine (h : KeepsSaved g saved) : KeepsSaved g.cutLine.1 saved := by
  obtain ⟨e, he⟩ := h.holds
  refine h.of_holds he he.cutLine.1 fun hdirty ↦ ?_
  have hstop : (if g.lineEnd g.start < g.size then g.lineEnd g.start + 1
      else g.lineEnd g.start) = e.lineStop := by
    rw [he.lineEnd_eq, he.start_eq, he.size_eq, Editor.lineStop]
  simp only [TcGap.cutLine, hstop, he.lineStart_start, TcGap.dirty_seekImpl] at hdirty
  have hle : Editor.lineStart e.text e.cursor ≤ e.lineStop :=
    (Editor.lineStart_le _ _).trans e.cursor_le_lineStop
  by_cases hcuts : Editor.lineStart e.text e.cursor < e.lineStop
  · rw [if_pos hcuts] at hdirty
    cases hdirty
  · rw [if_neg hcuts] at hdirty
    have hsame : e.lineStop = Editor.lineStart e.text e.cursor := by omega
    refine ⟨hdirty, ?_⟩
    simp only [Editor.cutLine, Editor.erase, hsame]
    exact List.take_append_drop _ _

end KeepsSaved

end TinyCPlus.Runtime
