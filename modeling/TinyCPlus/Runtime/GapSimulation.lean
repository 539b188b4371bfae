import TinyCPlus.Runtime.GapRefinement

/-!
# Every run of the gap buffer is a run of the plain editor

The relation `Holds` between a buffer and an editor state is kept by every
call, and related states answer alike.  The runs from a freshly created buffer
follow.
-/

namespace TinyCPlus.Runtime

open TinyCPlus.Library

/-- The buffer holds the editor's text, split at the editor's cursor. -/
def Holds (g : TcGap) (e : Editor) : Prop :=
  g.Represents (e.text.take e.cursor) (e.text.drop e.cursor)

namespace Holds

variable {g : TcGap} {e : Editor}

theorem append_eq (e : Editor) :
    e.text.take e.cursor ++ e.text.drop e.cursor = e.text :=
  List.take_append_drop _ _

theorem length_take (e : Editor) : (e.text.take e.cursor).length = e.cursor := by
  rw [List.length_take, Nat.min_eq_left e.cursor_le]

theorem start_eq (h : Holds g e) : g.start = e.cursor := by
  rw [TcGap.Represents.start_eq h, length_take]

theorem size_eq (h : Holds g e) : g.size = e.text.length := by
  rw [TcGap.Represents.size_eq h, append_eq]

theorem start_le (h : Holds g e) : g.start ≤ e.text.length := by
  rw [h.start_eq]
  exact e.cursor_le

theorem view_eq (h : Holds g e) : g.view = e.view :=
  TcGap.Represents.view_eq h (append_eq e).symm (length_take e).symm

theorem lineStart_eq (h : Holds g e) {p : ℕ} (hp : p ≤ e.text.length) :
    g.lineStart p = Editor.lineStart e.text p := by
  rw [TcGap.Represents.lineStart_eq h (by rwa [append_eq]), append_eq]

theorem lineStart_start (h : Holds g e) :
    g.lineStart g.start = Editor.lineStart e.text e.cursor := by
  rw [h.lineStart_eq h.start_le, h.start_eq]

theorem lineEnd_eq (h : Holds g e) (p : ℕ) :
    g.lineEnd p = Editor.lineEnd e.text p := by
  rw [TcGap.Represents.lineEnd_eq h, append_eq]

theorem next_eq (h : Holds g e) : g.next g.start = Editor.nextChar e.text e.cursor := by
  rw [TcGap.Represents.next_eq h, append_eq, h.start_eq]

theorem previous_eq (h : Holds g e) :
    g.previous g.start = Editor.prevChar e.text e.cursor := by
  rw [TcGap.Represents.previous_eq h (TcGap.Represents.start_le h), append_eq,
    h.start_eq]

/-! ## The calls that move the cursor -/

theorem seekImpl (h : Holds g e) (p : ℕ) : Holds (g.seekImpl p) (e.moveTo p) := by
  have hrep := TcGap.Represents.seekImpl h p
  rw [append_eq] at hrep
  have htake : e.text.take (min p e.text.length) = e.text.take p :=
    List.take_eq_take_min.symm
  have hdrop : e.text.drop (min p e.text.length) = e.text.drop p := by
    rcases le_total p e.text.length with hp | hp
    · rw [Nat.min_eq_left hp]
    · rw [Nat.min_eq_right hp, List.drop_length, List.drop_of_length_le hp]
  rw [Holds, Editor.moveTo]
  simp only [htake, hdrop]
  exact hrep

theorem seek (h : Holds g e) (p : ℕ) : Holds (g.seek p) (e.moveTo p) := by
  rw [TcGap.seek_eq_seekImpl]
  exact h.seekImpl p

theorem vertical (h : Holds g e) (direction : ℤ) :
    Holds (g.vertical direction) (e.vertical direction) := by
  have hcolumn : g.column = Editor.column e.text e.cursor := by
    rw [TcGap.Represents.column_eq h, append_eq, h.start_eq]
  have hwalk : ∀ p ≤ e.text.length, ∀ column : ℕ,
      g.advance (g.lineEnd p) column p = Editor.inLine e.text p column := by
    intro p hp column
    rw [TcGap.Represents.advance_inLine h column (by rwa [append_eq]), append_eq]
  have hle : Editor.lineStart e.text e.cursor ≤ e.text.length :=
    (Editor.lineStart_le _ _).trans e.cursor_le
  rw [TcGap.vertical, Editor.vertical]
  simp only [h.lineStart_start, hcolumn, h.lineEnd_eq, h.size_eq]
  by_cases hup : direction < 0
  · rw [if_pos hup, if_pos hup]
    by_cases htop : Editor.lineStart e.text e.cursor = 0
    · rwa [if_pos htop, if_pos htop]
    · have hprev : Editor.lineStart e.text (Editor.lineStart e.text e.cursor - 1) ≤
          e.text.length := (Editor.lineStart_le _ _).trans (by omega)
      rw [if_neg htop, if_neg htop, h.lineStart_eq (by omega), ← h.lineEnd_eq,
        hwalk _ hprev]
      exact h.seekImpl _
  · rw [if_neg hup, if_neg hup]
    have hend := TcGap.lineEnd_le e.text hle
    by_cases hlast : Editor.lineEnd e.text (Editor.lineStart e.text e.cursor) =
        e.text.length
    · rwa [if_pos hlast, if_pos hlast]
    · rw [if_neg hlast, if_neg hlast, ← h.lineEnd_eq (_ + 1),
        hwalk _ (by omega)]
      exact h.seekImpl _

theorem gotoLine (h : Holds g e) (line : ℤ) :
    Holds (g.gotoLine line) (e.moveTo (Editor.lineOffset e.text line)) := by
  have hloop := TcGap.Represents.gotoLoop_eq h line 0 g.size 0
    (by rw [h.size_eq, append_eq]; rfl)
  rw [append_eq, Nat.zero_add, List.drop_zero, sub_zero] at hloop
  rw [TcGap.gotoLine, hloop]
  exact h.seekImpl _

/-! ## The calls that change the text -/

theorem insert (h : Holds g e) (input : List UInt8) :
    Holds (g.insert input).1 (e.insert input) ∧
      (g.insert input).2 =
        if e.text.length + input.length ≤ gapLimit then 0 else 8 := by
  have hins := TcGap.Represents.insert h input (by rw [append_eq]; exact e.text_le)
  rw [append_eq] at hins
  by_cases hfits : e.text.length + input.length ≤ gapLimit
  · rw [if_pos hfits] at hins
    rw [if_pos hfits, Editor.insert, dif_pos hfits]
    refine ⟨?_, hins.2⟩
    have hlen : (e.text.take e.cursor ++ input).length = e.cursor + input.length := by
      rw [List.length_append, length_take]
    have hpre : (e.text.take e.cursor ++ input ++ e.text.drop e.cursor).take
        (e.cursor + input.length) = e.text.take e.cursor ++ input := by
      rw [← hlen, List.take_left]
    have hpost : (e.text.take e.cursor ++ input ++ e.text.drop e.cursor).drop
        (e.cursor + input.length) = e.text.drop e.cursor := by
      rw [← hlen, List.drop_left]
    rw [Holds]
    simp only [hpre, hpost]
    exact hins.1
  · rw [if_neg hfits] at hins
    rw [if_neg hfits, Editor.insert, dif_neg hfits, hins]
    exact ⟨h, rfl⟩

/-- What the buffer must represent after the text between `p` and `q` is
erased. -/
theorem of_erase {p q : ℕ} (hp : p ≤ e.text.length) (hpq : p ≤ q)
    (hrep : g.Represents (e.text.take p) (e.text.drop q)) :
    Holds g (e.erase p q hp hpq) := by
  have hlen : (e.text.take p).length = p := by
    rw [List.length_take, Nat.min_eq_left hp]
  have hpre : (e.text.take p ++ e.text.drop q).take p = e.text.take p := by
    conv_lhs => rw [← hlen]
    rw [hlen, List.take_left' hlen]
  have hpost : (e.text.take p ++ e.text.drop q).drop p = e.text.drop q :=
    List.drop_left' hlen
  rw [Holds, Editor.erase]
  simp only [hpre, hpost]
  exact hrep

theorem backspace (h : Holds g e) : Holds g.backspace e.backspace := by
  have hle := Editor.prevChar_le e.text e.cursor
  have hcursor := h.start_eq
  rw [TcGap.backspace, Editor.backspace]
  simp only [h.previous_eq]
  apply of_erase
  by_cases hmoves : Editor.prevChar e.text e.cursor ≠ g.start
  · rw [if_pos hmoves]
    have hrep := TcGap.Represents.shrinkLeft h
      (q := Editor.prevChar e.text e.cursor) (by rwa [length_take]) true
    rwa [List.take_take, Nat.min_eq_left hle] at hrep
  · rw [if_neg hmoves]
    have heq : Editor.prevChar e.text e.cursor = e.cursor := by omega
    rw [heq]
    exact h

theorem delete (h : Holds g e) : Holds g.delete e.delete := by
  have hle := Editor.le_nextChar e.text e.cursor
  have hnext : Editor.nextChar e.text e.cursor ≤ max e.cursor e.text.length := by
    by_cases hlt : e.cursor < e.text.length
    · exact (TcGap.nextChar_le _ hlt (le_refl _)
        fun hbad ↦ absurd hbad (lt_irrefl _)).trans (le_max_right _ _)
    · rw [Editor.nextChar, if_neg hlt]
      exact le_max_left _ _
  have hcursor := e.cursor_le
  have hn : g.next g.start - g.start =
      Editor.nextChar e.text e.cursor - e.cursor := by
    rw [h.next_eq, h.start_eq]
  rw [TcGap.delete, Editor.delete]
  simp only [hn]
  apply of_erase
  have hrep := TcGap.Represents.shrinkRight h
    (n := Editor.nextChar e.text e.cursor - e.cursor)
    (by rw [List.length_drop]; omega)
    (if Editor.nextChar e.text e.cursor - e.cursor ≠ 0 then true else g.dirty)
  rwa [List.drop_drop, Nat.add_sub_cancel' hle] at hrep

/-- The bytes a line cut returns are those between its two positions. -/
theorem cutBytes_eq (h : Holds g e) {p q : ℕ} (hq : q ≤ e.text.length) :
    (List.range (q - p)).map (fun i ↦ g.byte (p + i)) =
      (e.text.take q).drop p := by
  apply List.ext_getElem
  · simp only [List.length_map, List.length_range, List.length_drop,
      List.length_take]
    omega
  · intro i hi _
    rw [List.length_map, List.length_range] at hi
    have hlt : p + i < (e.text.take e.cursor ++ e.text.drop e.cursor).length := by
      rw [append_eq]
      omega
    rw [List.getElem_map, List.getElem_range, List.getElem_drop,
      List.getElem_take, TcGap.Represents.byte_eq h hlt]
    simp only [append_eq]

theorem cutLine (h : Holds g e) :
    Holds g.cutLine.1 e.cutLine.1 ∧ g.cutLine.2 = e.cutLine.2 := by
  have hstop : (if g.lineEnd g.start < g.size then g.lineEnd g.start + 1
      else g.lineEnd g.start) = e.lineStop := by
    rw [h.lineEnd_eq, h.start_eq, h.size_eq, Editor.lineStop]
  have hstople : e.lineStop ≤ e.text.length := by
    have hend := TcGap.lineEnd_le e.text e.cursor_le
    rw [Editor.lineStop]
    split <;> omega
  have hle : Editor.lineStart e.text e.cursor ≤ e.lineStop :=
    (Editor.lineStart_le _ _).trans e.cursor_le_lineStop
  have hmoved := TcGap.Represents.seekImpl h (Editor.lineStart e.text e.cursor)
  rw [append_eq] at hmoved
  rw [TcGap.cutLine, Editor.cutLine]
  simp only [h.lineStart_start, hstop]
  refine ⟨?_, h.cutBytes_eq hstople⟩
  apply of_erase
  have hrep := hmoved.shrinkRight
    (n := e.lineStop - Editor.lineStart e.text e.cursor)
    (by rw [List.length_drop]; omega)
    (if Editor.lineStart e.text e.cursor < e.lineStop then true
      else (g.seekImpl (Editor.lineStart e.text e.cursor)).dirty)
  rwa [List.drop_drop, Nat.add_sub_cancel' hle] at hrep

/-! ## Whole runs -/

/-- One call on the buffer answers and moves as the call on the editor. -/
theorem apply (h : Holds g e) (op : EditorOp) :
    Holds (g.apply op).1 (e.apply findNonempty op).1 ∧
      (g.apply op).2 = (e.apply findNonempty op).2 := by
  cases op with
  | seek p => exact ⟨h.seek p, rfl⟩
  | insert input =>
      refine ⟨(h.insert input).1, ?_⟩
      simp only [TcGap.apply, Editor.apply, (h.insert input).2]
  | left =>
      simp only [TcGap.apply, Editor.apply, TcGap.left, h.previous_eq]
      exact ⟨h.seekImpl _, trivial⟩
  | right =>
      simp only [TcGap.apply, Editor.apply, TcGap.right, h.next_eq]
      exact ⟨h.seekImpl _, trivial⟩
  | backspace => exact ⟨h.backspace, rfl⟩
  | delete => exact ⟨h.delete, rfl⟩
  | home =>
      simp only [TcGap.apply, Editor.apply, TcGap.home,
        h.lineStart_start]
      exact ⟨h.seekImpl _, trivial⟩
  | toEnd =>
      simp only [TcGap.apply, Editor.apply, TcGap.toEnd, h.lineEnd_eq, h.start_eq]
      exact ⟨h.seekImpl _, trivial⟩
  | vertical direction => exact ⟨h.vertical direction, rfl⟩
  | gotoLine line => exact ⟨h.gotoLine line, rfl⟩
  | cutLine =>
      refine ⟨h.cutLine.1, ?_⟩
      simp only [TcGap.apply, Editor.apply, h.cutLine.2]
  | find needle start =>
      refine ⟨h, ?_⟩
      simp only [TcGap.apply, Editor.apply, TcGap.Represents.find_eq h, append_eq]
  | text =>
      refine ⟨h, ?_⟩
      simp only [TcGap.apply, Editor.apply, TcGap.Represents.text_eq h, append_eq]

theorem simulates :
    Machine.Simulates gapMachine (editorMachine findNonempty) Holds := by
  intro g e op h
  obtain ⟨hnext, hanswer⟩ := h.apply op
  exact ⟨hnext, Prod.ext hanswer hnext.view_eq⟩

theorem ofText {input : List UInt8} (h : input.length ≤ gapLimit)
    (hrep : g.Represents [] input) : Holds g (Editor.ofText input h) := by
  simpa [Holds, Editor.ofText] using hrep

theorem layout (h : Holds g e) :
    g.data.take g.start ++ g.data.drop g.stop = e.text := by
  obtain ⟨⟨gap, hdata, hstop, -⟩, hstart⟩ := h
  conv_rhs => rw [← append_eq e]
  rw [hdata, hstart, hstop, ← List.length_append, List.drop_left,
    List.append_assoc, List.take_left]

theorem insert_full (h : Holds g e) (input : List UInt8)
    (hfull : (g.insert input).2 = 8) : (g.insert input).1 = g := by
  have hins := TcGap.Represents.insert h input (by rw [append_eq]; exact e.text_le)
  rw [append_eq] at hins
  split at hins
  · rw [hins.2] at hfull
    exact absurd hfull (by decide)
  · rw [hins]

end Holds

/-- Every sequence of calls on a buffer created from a text within the limit
answers, and after every call shows, what the plain editor does; the layout
invariant holds in every state reached, the text stays within the limit, and
a refused insertion changes nothing.  A search for an empty needle is reported
as absent. -/
theorem gap_runs_as_editor (input : List UInt8) (h : input.length ≤ gapLimit)
    (ops : List EditorOp) :
    ∃ g, TcGap.create input = some g ∧
      gapMachine.answers g ops =
        (editorMachine findNonempty).answers (Editor.ofText input h) ops ∧
      ∃ e, e = (editorMachine findNonempty).run (Editor.ofText input h) ops ∧
        (gapMachine.run g ops).WellFormed ∧
        (gapMachine.run g ops).data.take (gapMachine.run g ops).start ++
          (gapMachine.run g ops).data.drop (gapMachine.run g ops).stop = e.text ∧
        (gapMachine.run g ops).start = e.cursor ∧
        (gapMachine.run g ops).view = e.view ∧
        e.text.length ≤ gapLimit ∧
        ∀ s, ((gapMachine.run g ops).insert s).2 = 8 →
          ((gapMachine.run g ops).insert s).1 = gapMachine.run g ops := by
  obtain ⟨g, hcreate, hrep⟩ := TcGap.create_represents h
  have hstart : Holds g (Editor.ofText input h) := Holds.ofText h hrep
  have hend := Holds.simulates.run hstart ops
  refine ⟨g, hcreate, Holds.simulates.answers hstart ops, _, rfl, ?_⟩
  exact ⟨TcGap.Represents.wellFormed hend, hend.layout, hend.start_eq,
    hend.view_eq, Editor.text_le _, hend.insert_full⟩

theorem gap_runs_as_editor_hi :
    ∃ g, TcGap.create [104, 105] = some g ∧
      gapMachine.answers g [.right, .backspace, .text] =
        (editorMachine findNonempty).answers
          (Editor.ofText [104, 105] (by decide)) [.right, .backspace, .text] := by
  obtain ⟨g, hcreate, hanswers, -⟩ :=
    gap_runs_as_editor [104, 105] (by decide) [.right, .backspace, .text]
  exact ⟨g, hcreate, hanswers⟩

/-- An empty needle occurs at every position, and the buffer does not report
it. -/
theorem gap_find_empty_needle :
    ¬ ∀ (input : List UInt8) (h : input.length ≤ gapLimit) (ops : List EditorOp),
      ∃ g, TcGap.create input = some g ∧
        gapMachine.answers g ops =
          (editorMachine findAny).answers (Editor.ofText input h) ops := by
  intro hall
  obtain ⟨g, -, hanswers⟩ := hall [] (by decide) [.find [] 0]
  have hcode : EditorAnswer.code (g.find [] 0) = .code (findAny [] [] 0) :=
    congrArg Prod.fst (List.cons.inj hanswers).1
  have hgap : g.find [] 0 = -1 := rfl
  have hplain : findAny [] [] 0 = 0 := by decide
  rw [hgap, hplain] at hcode
  exact absurd hcode (by decide)

end TinyCPlus.Runtime
