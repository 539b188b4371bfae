import TinyCPlus.Runtime.CodePoints

/-!
# The gap buffer keeps to code points

Positions that the gap buffer computes from the boundary of a code point are
boundaries again, and they are the ones that the editor of code points computes.
-/

namespace TinyCPlus.Runtime

open TinyCPlus.Library

namespace CodePointEditor

/-! ## Positions -/

section Positions

variable {cs : List Char} {k : ℕ}

theorem nextChar_offset (hk : k ≤ cs.length) :
    Editor.nextChar (utf8.text cs) (utf8.offset cs k) =
      utf8.offset cs (min (k + 1) cs.length) := by
  rw [Editor.nextChar]
  rcases Nat.lt_or_ge k cs.length with hlt | hge
  · have hin : utf8.offset cs k < (utf8.text cs).length := by
      rw [← utf8.offset_length]
      exact utf8.offset_lt cs hlt hlt
    have htail : ((utf8.text cs).drop (utf8.offset cs k + 1)).takeWhile isContinuation =
        utf8.tail cs[k] := utf8.takeWhile_drop cs hlt
    rw [if_pos hin, htail, min_eq_left hlt, utf8.offset_succ cs hlt, utf8.encode_eq,
      List.length_cons]
    omega
  · have hend : k = cs.length := le_antisymm hk hge
    rw [if_neg, min_eq_right (by omega), hend]
    rw [hend, utf8.offset_length]
    exact lt_irrefl _

theorem prevChar_offset (hk : k ≤ cs.length) :
    Editor.prevChar (utf8.text cs) (utf8.offset cs k) = utf8.offset cs (k - 1) := by
  rw [Editor.prevChar, utf8.take_offset]
  cases k with
  | zero => simp
  | succ k =>
      have htake : cs.take (k + 1) = cs.take k ++ [cs[k]] :=
        List.take_succ_eq_append_getElem hk
      have htail : ((utf8.text (cs.take k) ++ utf8.encode cs[k]).tail.reverse.takeWhile
          isContinuation).length = (utf8.tail cs[k]).length := utf8.takeWhile_reverse _ _
      rw [htake, utf8.text_append, utf8.text_cons, utf8.text_nil, List.append_nil, htail,
        utf8.offset_succ cs hk, utf8.encode_eq, List.length_cons]
      simp

/-- The part of the cursor's line ahead of the cursor. -/
theorem take_eq_line (hk : k ≤ cs.length) :
    cs.take k = cs.take (lineStart cs k) ++ ((cs.take k).reverse.takeWhile (· ≠ '\n')).reverse := by
  have hsuffix : ((cs.take k).reverse.takeWhile (· ≠ '\n')).reverse <:+ cs.take k :=
    List.reverse_prefix.mp (by
      rw [List.reverse_reverse]
      exact List.takeWhile_prefix _)
  have heq := List.suffix_iff_eq_append.mp hsuffix
  rw [List.length_reverse, List.length_take, min_eq_left hk, List.take_take,
    min_eq_left (Nat.sub_le _ _)] at heq
  exact heq.symm

theorem lineStart_offset (hk : k ≤ cs.length) :
    Editor.lineStart (utf8.text cs) (utf8.offset cs k) = utf8.offset cs (lineStart cs k) := by
  have hline := newline_isUnit.takeWhile_reverse (cs.take k)
  have hsplit : utf8.offset cs k = utf8.offset cs (lineStart cs k) +
      (utf8.text ((cs.take k).reverse.takeWhile (· ≠ '\n')).reverse).length := by
    rw [BlockCode.offset]
    conv_lhs => rw [take_eq_line hk, utf8.text_append, List.length_append]
    rfl
  rw [Editor.lineStart, utf8.take_offset, hline]
  omega

theorem lineEnd_offset :
    Editor.lineEnd (utf8.text cs) (utf8.offset cs k) = utf8.offset cs (lineEnd cs k) := by
  have htaken := List.prefix_iff_eq_take.mp
    (List.takeWhile_prefix (l := cs.drop k) (· ≠ '\n'))
  rw [Editor.lineEnd, utf8.drop_offset, newline_isUnit.takeWhile_text, lineEnd, utf8.offset_add]
  conv_lhs => rw [htaken]
  rfl

theorem lineEnd_le_length (hk : k ≤ cs.length) :
    lineEnd cs k ≤ cs.length := by
  have hle : ((cs.drop k).takeWhile (· ≠ '\n')).length ≤ (cs.drop k).length :=
    (List.takeWhile_prefix _).length_le
  rw [List.length_drop] at hle
  rw [lineEnd]
  omega

theorem countP_text (l : List Char) :
    (utf8.text l).countP (fun b ↦ !isContinuation b) = l.length := by
  induction l with
  | nil => rfl
  | cons c l ih =>
      have htail : (utf8.tail c).countP (fun b ↦ !isContinuation b) = 0 :=
        List.countP_eq_zero.mpr fun b hb ↦ by
          have hcont : isContinuation b = true := utf8.tail_cont c b hb
          simp [hcont]
      have hlead : isContinuation (utf8.lead c) = false := utf8.lead_not_cont c
      rw [utf8.text_cons, utf8.encode_eq, List.cons_append, List.countP_cons_of_pos (by simp [hlead]),
        List.countP_append, htail, ih, zero_add, List.length_cons]

/-- The characters of a piece of text are its code points. -/
theorem charCount_text (l : List Char) : Editor.charCount (utf8.text l) = l.length := by
  have hcount := countP_text l
  cases l with
  | nil => rfl
  | cons c l =>
      have hlead : isContinuation (utf8.lead c) = false := utf8.lead_not_cont c
      rw [utf8.text_cons, utf8.encode_eq, List.cons_append] at hcount ⊢
      rw [List.countP_cons_of_pos (by simp [hlead])] at hcount
      rw [Editor.charCount]
      omega

theorem column_le (hk : k ≤ cs.length) : column cs k ≤ k := by
  have hle : ((cs.take k).reverse.takeWhile (· ≠ '\n')).length ≤ (cs.take k).reverse.length :=
    (List.takeWhile_prefix _).length_le
  rw [List.length_reverse, List.length_take, min_eq_left hk] at hle
  exact hle

theorem column_offset (hk : k ≤ cs.length) :
    Editor.column (utf8.text cs) (utf8.offset cs k) = column cs k := by
  have hstart := lineStart_le cs k
  have hcolumn := column_le hk
  have hoffset : utf8.offset cs (lineStart cs k) = utf8.offset (cs.take k) (lineStart cs k) := by
    simp only [BlockCode.offset, List.take_take, min_eq_left hstart]
  rw [Editor.column, lineStart_offset hk, utf8.take_offset, hoffset, utf8.drop_offset,
    charCount_text, List.length_drop, List.length_take, min_eq_left hk, lineStart]
  omega

theorem skipChars_offset (n : ℕ) (hk : k ≤ cs.length) :
    Editor.skipChars (utf8.text cs) n (utf8.offset cs k) =
      utf8.offset cs (min (k + n) cs.length) := by
  induction n generalizing k with
  | zero => rw [Editor.skipChars, add_zero, min_eq_left hk]
  | succ n ih =>
      rw [Editor.skipChars, nextChar_offset hk, ih (min_le_right _ _)]
      congr 1
      omega

theorem inLine_offset (hk : k ≤ cs.length) (column : ℕ) :
    Editor.inLine (utf8.text cs) (utf8.offset cs k) column =
      utf8.offset cs (inLine cs k column) := by
  have hend := lineEnd_le_length hk
  rw [Editor.inLine, lineEnd_offset, skipChars_offset column hk, ← utf8.offset_min, inLine]
  congr 1
  omega

theorem lineOffset_of_nonpos (t : List UInt8) {n : ℤ} (hn : n ≤ 0) : Editor.lineOffset t n = 0 := by
  cases t with
  | nil => rfl
  | cons b t => rw [Editor.lineOffset, if_neg (not_lt.mpr hn)]

theorem lineOffset_append {bytes : List UInt8} (hbytes : ∀ b ∈ bytes, (b == newline) = false)
    (t : List UInt8) {n : ℤ} (hn : 0 < n) :
    Editor.lineOffset (bytes ++ t) n = bytes.length + Editor.lineOffset t n := by
  induction bytes with
  | nil => simp
  | cons b bytes ih =>
      rw [List.cons_append, Editor.lineOffset, if_pos hn, hbytes b List.mem_cons_self,
        if_neg Bool.false_ne_true, ih fun c hc ↦ hbytes c (List.mem_cons_of_mem _ hc),
        List.length_cons]
      omega

theorem lineOffset_text (cs : List Char) (n : ℤ) :
    Editor.lineOffset (utf8.text cs) n = utf8.offset cs (lineOffset cs n) := by
  induction cs generalizing n with
  | nil => rfl
  | cons c cs ih =>
      rw [lineOffset]
      split
      · rename_i hn
        have hoffset (j : ℕ) : utf8.offset (c :: cs) (1 + j) =
            (utf8.encode c).length + utf8.offset cs j := by
          rw [utf8.offset_add]
          simp [BlockCode.offset]
        rw [hoffset, ← ih, utf8.text_cons]
        by_cases hc : c = '\n'
        · rw [hc, newline_isUnit.encode, List.singleton_append, Editor.lineOffset, if_pos hn]
          rfl
        · have hnone : ∀ b ∈ utf8.encode c, (b == newline) = false := fun b hb ↦ by
            refine beq_eq_false_iff_ne.mpr fun hbn ↦ hc (newline_isUnit.only c (hbn ▸ hb))
          rw [lineOffset_append hnone _ hn, if_neg hc]
      · rename_i hn
        exact lineOffset_of_nonpos _ (not_lt.mp hn)

/-- A match of a needle stands at a boundary. -/
theorem offset_of_match {needle : List Char} (hneedle : needle ≠ []) {p : ℕ}
    (h : (utf8.text needle).isPrefixOf ((utf8.text cs).drop p) = true) :
    ∃ k < cs.length, p = utf8.offset cs k := by
  obtain ⟨c, rest, rfl⟩ := List.exists_cons_of_ne_nil hneedle
  obtain ⟨t, ht⟩ := List.isPrefixOf_iff_prefix.mp h
  have hlead : (utf8.text cs)[p]? = some (utf8.lead c) := by
    have hhead := congrArg (·[0]?) ht
    simp only [List.getElem?_drop, add_zero, utf8.text_cons, utf8.encode_eq, List.cons_append,
      List.getElem?_cons_zero] at hhead
    exact hhead.symm
  exact utf8.exists_offset cs hlead (utf8.lead_not_cont c)

theorem leastMatch_text (cs needle : List Char) (hneedle : needle ≠ []) (start : ℕ) :
    Editor.leastMatch (utf8.text cs) (utf8.text needle) start =
      (found cs needle start).map (utf8.offset cs) := by
  have hmatch {p : ℕ} (hp : start ≤ p)
      (h : (utf8.text needle).isPrefixOf ((utf8.text cs).drop p) = true) :
      ∃ k < cs.length, p = utf8.offset cs k ∧ (start ≤ utf8.offset cs k ∧
        (utf8.text needle).isPrefixOf (utf8.text (cs.drop k)) = true) := by
    obtain ⟨k, hk, rfl⟩ := offset_of_match hneedle h
    rw [utf8.drop_offset] at h
    exact ⟨k, hk, rfl, hp, h⟩
  cases hfound : found cs needle start with
  | none =>
      rw [found, List.find?_range_eq_none] at hfound
      refine List.find?_range'_eq_none.mpr fun p hp _ ↦ ?_
      by_contra hcontra
      obtain ⟨k, hk, -, hboth⟩ := hmatch hp (by simpa using hcontra)
      have hno := hfound k (Nat.lt_succ_of_lt hk)
      simp [hboth] at hno
  | some k =>
      rw [found, List.find?_range_eq_some] at hfound
      obtain ⟨hk, hmem, hleast⟩ := hfound
      obtain ⟨hstart, hfront⟩ := of_decide_eq_true hk
      have hle := utf8.offset_le cs k
      refine List.find?_range'_eq_some.mpr ⟨?_, List.mem_range'_1.mpr ⟨hstart, ?_⟩, ?_⟩
      · rw [utf8.drop_offset]
        exact hfront
      · omega
      · intro p hp hlt
        by_contra hcontra
        obtain ⟨j, hj, rfl, hboth⟩ := hmatch hp (by simpa using hcontra)
        have hjk : j < k := by
          by_contra hge
          exact absurd (utf8.offset_mono cs (not_lt.mp hge)) (not_le.mpr hlt)
        have hno := hleast j hjk
        simp [hboth] at hno

end Positions

/-! ## Calls -/

theorem toEditor_ext {e : Editor} {d : CodePointEditor} (htext : e.text = utf8.text d.chars)
    (hcursor : e.cursor = utf8.offset d.chars d.cursor) : e = d.toEditor := by
  cases e
  cases htext
  cases hcursor
  rfl

theorem toEditor_moveTo (d : CodePointEditor) (k : ℕ) :
    d.toEditor.moveTo (utf8.offset d.chars k) = (d.moveTo k).toEditor := by
  refine toEditor_ext rfl ?_
  rw [moveTo, utf8.offset_min, utf8.offset_length]
  rfl

theorem toEditor_erase (d : CodePointEditor) (j k : ℕ) (hj : j ≤ d.chars.length) (hjk : j ≤ k)
    {p q : ℕ} (hp : p = utf8.offset d.chars j) (hq : q = utf8.offset d.chars k)
    (hp' : p ≤ d.toEditor.text.length) (hpq : p ≤ q) :
    d.toEditor.erase p q hp' hpq = (d.erase j k hj hjk).toEditor := by
  subst hp hq
  refine toEditor_ext ?_ ?_
  · simp only [Editor.erase, toEditor, erase, utf8.take_offset, utf8.drop_offset,
      utf8.text_append]
  · simp only [Editor.erase, erase, BlockCode.offset]
    rw [List.take_append_of_le_length (by rw [List.length_take]; omega), List.take_take, min_self]

theorem toEditor_left (d : CodePointEditor) :
    d.toEditor.moveTo (Editor.prevChar d.toEditor.text d.toEditor.cursor) =
      (d.moveTo (d.cursor - 1)).toEditor := by
  have hprev := prevChar_offset d.cursor_le
  rw [← toEditor_moveTo, ← hprev]
  rfl

theorem moveTo_min (d : CodePointEditor) (k : ℕ) :
    d.moveTo (min k d.chars.length) = d.moveTo k := by
  simp only [moveTo, min_assoc, min_self]

theorem toEditor_right (d : CodePointEditor) :
    d.toEditor.moveTo (Editor.nextChar d.toEditor.text d.toEditor.cursor) =
      (d.moveTo (d.cursor + 1)).toEditor := by
  have hnext := nextChar_offset d.cursor_le
  rw [← moveTo_min, ← toEditor_moveTo, ← hnext]
  rfl

theorem erase_min (d : CodePointEditor) (j k : ℕ) (hj : j ≤ d.chars.length) (hjk : j ≤ k) :
    d.erase j (min k d.chars.length) hj (le_min hjk hj) = d.erase j k hj hjk := by
  have hdrop : d.chars.drop (min k d.chars.length) = d.chars.drop k := by
    rcases le_total k d.chars.length with hle | hle
    · rw [min_eq_left hle]
    · rw [min_eq_right hle, List.drop_length, List.drop_of_length_le hle]
  simp only [erase, hdrop]

theorem toEditor_backspace (d : CodePointEditor) :
    d.toEditor.backspace = (d.apply .backspace).toEditor :=
  d.toEditor_erase _ _ ((Nat.sub_le _ _).trans d.cursor_le) (Nat.sub_le _ _)
    (prevChar_offset d.cursor_le) rfl _ _

theorem toEditor_delete (d : CodePointEditor) :
    d.toEditor.delete = (d.apply .delete).toEditor := by
  have herase := d.toEditor_erase d.cursor (min (d.cursor + 1) d.chars.length) d.cursor_le
    (le_min (Nat.le_succ _) d.cursor_le) rfl (nextChar_offset d.cursor_le)
    (utf8.offset_le _ _) (Editor.le_nextChar _ _)
  rw [erase_min d d.cursor (d.cursor + 1) d.cursor_le (Nat.le_succ _)] at herase
  exact herase

/-- The end of a line is the end of the text for the bytes when it is for the code points. -/
theorem lineEnd_eq_length_iff (cs : List Char) {k : ℕ} (hk : k ≤ cs.length) :
    Editor.lineEnd (utf8.text cs) (utf8.offset cs k) = (utf8.text cs).length ↔
      lineEnd cs k = cs.length := by
  have hend := lineEnd_le_length hk
  rw [lineEnd_offset, ← utf8.offset_length]
  constructor
  · intro heq
    by_contra hne
    have hlt : lineEnd cs k < cs.length := lt_of_le_of_ne hend hne
    exact absurd heq (Nat.ne_of_lt (utf8.offset_lt cs hlt hlt))
  · exact fun heq ↦ by rw [heq]

theorem getElem?_length_takeWhile (p : Char → Bool) (l : List Char) :
    l[(l.takeWhile p).length]? = (l.dropWhile p).head? := by
  induction l with
  | nil => rfl
  | cons c l ih =>
      by_cases hc : p c = true
      · simpa [hc] using ih
      · simp [hc]

/-- Behind the end of a line that has a newline, the bytes and the code points go on at
the same boundary. -/
theorem lineEnd_succ_offset (cs : List Char) {k : ℕ} (hk : k ≤ cs.length)
    (hne : lineEnd cs k ≠ cs.length) :
    Editor.lineEnd (utf8.text cs) (utf8.offset cs k) + 1 = utf8.offset cs (lineEnd cs k + 1) := by
  have hlt : lineEnd cs k < cs.length := lt_of_le_of_ne (lineEnd_le_length hk) hne
  have hnewline : cs[lineEnd cs k] = '\n' := by
    have hget : (cs.drop k)[((cs.drop k).takeWhile (· ≠ '\n')).length]? =
        some cs[lineEnd cs k] := by
      rw [List.getElem?_drop, ← lineEnd, List.getElem?_eq_getElem hlt]
    have hstop := List.head?_dropWhile_not (· ≠ '\n') (cs.drop k)
    rw [← getElem?_length_takeWhile, hget] at hstop
    simpa using hstop
  rw [lineEnd_offset, utf8.offset_succ cs hlt, hnewline, newline_isUnit.encode]
  rfl

/-- Ahead of the start of a line that is not the first stands the newline of the one
above. -/
theorem lineStart_pred_offset {cs : List Char} {k : ℕ} (hk : k ≤ cs.length)
    (hne : lineStart cs k ≠ 0) :
    utf8.offset cs (lineStart cs k) - 1 = utf8.offset cs (lineStart cs k - 1) := by
  have hstart := lineStart_le cs k
  have hlt : lineStart cs k - 1 < cs.length := by omega
  have hcolumn := column_le hk
  have hnewline : cs[lineStart cs k - 1] = '\n' := by
    have hget : (cs.take k).reverse[((cs.take k).reverse.takeWhile (· ≠ '\n')).length]? =
        some cs[lineStart cs k - 1] := by
      have hindex : (cs.take k).length - 1 - column cs k = lineStart cs k - 1 := by
        rw [List.length_take, min_eq_left hk, lineStart]
        omega
      rw [← column, List.getElem?_reverse (by rw [List.length_take]; rw [lineStart] at hne; omega),
        hindex, List.getElem?_take_of_lt (by omega), List.getElem?_eq_getElem hlt]
    have hstop := List.head?_dropWhile_not (· ≠ '\n') (cs.take k).reverse
    rw [← getElem?_length_takeWhile, hget] at hstop
    simpa using hstop
  have hsucc := utf8.offset_succ cs hlt
  rw [hnewline, newline_isUnit.encode, Nat.sub_add_cancel (Nat.pos_of_ne_zero hne)] at hsucc
  rw [hsucc]
  rfl

theorem toEditor_vertical (d : CodePointEditor) (direction : ℤ) :
    d.toEditor.vertical direction = (d.vertical direction).toEditor := by
  have hstart := lineStart_offset d.cursor_le
  have hcolumn := column_offset d.cursor_le
  have hle : lineStart d.chars d.cursor ≤ d.chars.length := (lineStart_le _ _).trans d.cursor_le
  have hzero : utf8.offset d.chars (lineStart d.chars d.cursor) = 0 ↔
      lineStart d.chars d.cursor = 0 := by
    constructor
    · intro h
      by_contra hne
      have hpos := utf8.offset_lt d.chars (Nat.pos_of_ne_zero hne) (by omega)
      rw [utf8.offset_zero] at hpos
      omega
    · exact fun h ↦ by rw [h, utf8.offset_zero]
  have hend := lineEnd_eq_length_iff d.chars hle
  rw [Editor.vertical, vertical]
  simp only [toEditor] at *
  simp only [hstart, hcolumn, hzero, hend]
  by_cases hup : direction < 0
  · rw [if_pos hup, if_pos hup]
    by_cases htop : lineStart d.chars d.cursor = 0
    · rw [if_pos htop, if_pos htop]
    · have hprev := lineStart_pred_offset d.cursor_le htop
      have hbefore : lineStart d.chars d.cursor - 1 ≤ d.chars.length := (Nat.sub_le _ _).trans hle
      rw [if_neg htop, if_neg htop, hprev, lineStart_offset hbefore, inLine_offset]
      · exact toEditor_moveTo d _
      · exact (lineStart_le _ _).trans hbefore
  · rw [if_neg hup, if_neg hup]
    by_cases hlast : lineEnd d.chars (lineStart d.chars d.cursor) = d.chars.length
    · rw [if_pos hlast, if_pos hlast]
    · have hnext := lineEnd_succ_offset d.chars hle hlast
      rw [if_neg hlast, if_neg hlast, hnext, inLine_offset]
      · exact toEditor_moveTo d _
      · exact Nat.lt_of_le_of_ne (lineEnd_le_length hle) hlast

theorem toEditor_cutLine (d : CodePointEditor) :
    d.toEditor.cutLine.1 = (d.apply .cutLine).toEditor := by
  have hstop : d.toEditor.lineStop = utf8.offset d.chars d.lineStop := by
    have hend := lineEnd_eq_length_iff d.chars d.cursor_le
    have hle := lineEnd_le_length d.cursor_le
    have hbytes : Editor.lineEnd (utf8.text d.chars) (utf8.offset d.chars d.cursor) ≤
        (utf8.text d.chars).length := by
      rw [lineEnd_offset]
      exact utf8.offset_le _ _
    rw [Editor.lineStop, lineStop]
    by_cases hlast : lineEnd d.chars d.cursor = d.chars.length
    · have hshort : ¬ Editor.lineEnd d.toEditor.text d.toEditor.cursor < d.toEditor.text.length :=
        not_lt.mpr (hend.mpr hlast).ge
      rw [if_neg hshort, if_neg (by omega)]
      exact lineEnd_offset
    · have hnext := lineEnd_succ_offset d.chars d.cursor_le hlast
      have hlonger : Editor.lineEnd d.toEditor.text d.toEditor.cursor < d.toEditor.text.length :=
        lt_of_le_of_ne hbytes (mt hend.mp hlast)
      rw [if_pos hlonger, if_pos (lt_of_le_of_ne hle hlast)]
      exact hnext
  exact d.toEditor_erase (lineStart d.chars d.cursor) d.lineStop
    ((lineStart_le _ _).trans d.cursor_le) ((lineStart_le _ _).trans d.cursor_le_lineStop)
    (lineStart_offset d.cursor_le) hstop ((Editor.lineStart_le _ _).trans d.toEditor.cursor_le)
    ((Editor.lineStart_le _ _).trans d.toEditor.cursor_le_lineStop)

theorem toEditor_insert (d : CodePointEditor) (input : List Char) :
    d.toEditor.insert (utf8.text input) = (d.insert input).toEditor := by
  rw [Editor.insert, insert]
  by_cases hfits : (utf8.text d.chars).length + (utf8.text input).length ≤ gapLimit
  · rw [dif_pos hfits, dif_pos (show d.toEditor.text.length + _ ≤ gapLimit from hfits)]
    have hcursor : (d.chars.take d.cursor ++ input).length = d.cursor + input.length := by
      rw [List.length_append, List.length_take, min_eq_left d.cursor_le]
    apply toEditor_ext
    · simp only [toEditor, utf8.take_offset, utf8.drop_offset, utf8.text_append]
    · simp only [toEditor, BlockCode.offset]
      rw [← hcursor, List.take_left, utf8.text_append, List.length_append]
  · rw [dif_neg hfits, dif_neg (show ¬ d.toEditor.text.length + _ ≤ gapLimit from hfits)]

end CodePointEditor

/-! ## Runs -/

namespace Holds

variable {g : TcGap} {d : CodePointEditor}

/-- A seek to what a search for a non-empty needle has found. -/
theorem seekFound (h : Holds g d.toEditor) (needle : List Char) (start : ℕ)
    (hneedle : needle ≠ []) :
    Holds (g.applyCodePoint (.seekFound needle start hneedle))
      (d.apply (.seekFound needle start hneedle)).toEditor := by
  have hbytes : utf8.text needle ≠ [] := by
    obtain ⟨c, rest, rfl⟩ := List.exists_cons_of_ne_nil hneedle
    rw [utf8.text_cons, utf8.encode_eq]
    exact List.cons_ne_nil _ _
  have hfind : g.find (utf8.text needle) start =
      searchIndex ((CodePointEditor.found d.chars needle start).map (utf8.offset d.chars)) := by
    rw [TcGap.Represents.find_eq h, append_eq, findNonempty, if_neg hbytes, findAny]
    simp only [CodePointEditor.toEditor]
    rw [CodePointEditor.leastMatch_text _ _ hneedle]
  simp only [TcGap.applyCodePoint, CodePointEditor.apply, hfind]
  cases CodePointEditor.found d.chars needle start with
  | none => exact h
  | some k =>
      have hmove := h.seek (utf8.offset d.chars k)
      rw [CodePointEditor.toEditor_moveTo] at hmove
      simpa [searchIndex] using hmove

/-- One call keeps the buffer at the encoding of the editor's text, split at a boundary. -/
theorem applyCodePoint (h : Holds g d.toEditor) (op : CodePointOp) :
    Holds (g.applyCodePoint op) (d.apply op).toEditor := by
  cases op with
  | left =>
      have hleft := (h.apply .left).1
      rwa [Editor.apply, CodePointEditor.toEditor_left] at hleft
  | right =>
      have hright := (h.apply .right).1
      rwa [Editor.apply, CodePointEditor.toEditor_right] at hright
  | backspace =>
      rw [← CodePointEditor.toEditor_backspace]
      exact h.backspace
  | delete =>
      rw [← CodePointEditor.toEditor_delete]
      exact h.delete
  | home =>
      have hhome := (h.apply .home).1
      have hstart := CodePointEditor.lineStart_offset d.cursor_le
      simp only [Editor.apply, CodePointEditor.toEditor, hstart] at hhome
      exact d.toEditor_moveTo _ ▸ hhome
  | toEnd =>
      have hend := (h.apply .toEnd).1
      simp only [Editor.apply, CodePointEditor.toEditor, CodePointEditor.lineEnd_offset] at hend
      exact d.toEditor_moveTo _ ▸ hend
  | vertical direction =>
      have hvertical := h.vertical direction
      rwa [CodePointEditor.toEditor_vertical] at hvertical
  | gotoLine line =>
      have hline := h.gotoLine line
      simp only [CodePointEditor.toEditor, CodePointEditor.lineOffset_text] at hline
      exact d.toEditor_moveTo _ ▸ hline
  | cutLine =>
      rw [← CodePointEditor.toEditor_cutLine]
      exact h.cutLine.1
  | insert input =>
      have hinsert := (h.insert (utf8.text input)).1
      rwa [CodePointEditor.toEditor_insert] at hinsert
  | seekFound needle start hneedle => exact h.seekFound needle start hneedle

theorem runCodePoints (h : Holds g d.toEditor) (ops : List CodePointOp) :
    Holds (ops.foldl TcGap.applyCodePoint g) (ops.foldl CodePointEditor.apply d).toEditor := by
  induction ops generalizing g d with
  | nil => exact h
  | cons op ops ih => exact ih (h.applyCodePoint op)

end Holds

/-- From a buffer that holds the encoding of a text, split at a boundary, every
sequence of calls leads to the encoding of the text that the editor of code points
reaches, split at that editor's cursor. -/
theorem gap_runs_by_code_points {g : TcGap} (d : CodePointEditor)
    (h : g.Represents (utf8.text (d.chars.take d.cursor)) (utf8.text (d.chars.drop d.cursor)))
    (ops : List CodePointOp) :
    let e := ops.foldl CodePointEditor.apply d
    let g' := ops.foldl TcGap.applyCodePoint g
    g'.Represents (utf8.text (e.chars.take e.cursor)) (utf8.text (e.chars.drop e.cursor)) ∧
      g'.text = utf8.text e.chars ∧ g'.start = utf8.offset e.chars e.cursor := by
  have hold : Holds g d.toEditor := by
    simpa only [Holds, CodePointEditor.toEditor, utf8.take_offset, utf8.drop_offset] using h
  have hrun := hold.runCodePoints ops
  refine ⟨?_, ?_, hrun.start_eq⟩
  · simpa only [Holds, CodePointEditor.toEditor, utf8.take_offset, utf8.drop_offset] using hrun
  · rw [TcGap.Represents.text_eq hrun, Holds.append_eq]
    rfl

/-- The text `é\nd` from its start: down to the second line, and up again. -/
def accented : CodePointEditor where
  chars := ['é', '\n', 'd']
  cursor := 0
  cursor_le := Nat.zero_le _
  chars_le := by decide

theorem gap_runs_by_code_points_accented :
    ∃ g, TcGap.create [0xc3, 0xa9, 10, 100] = some g ∧
      ([.right, .vertical 1, .vertical (-1)].foldl TcGap.applyCodePoint g).start = 2 := by
  have hlimit : ([0xc3, 0xa9, 10, 100] : List UInt8).length ≤ gapLimit := by decide
  obtain ⟨g, hcreate, hrep⟩ := TcGap.create_represents hlimit
  have hrun := gap_runs_by_code_points accented hrep [.right, .vertical 1, .vertical (-1)]
  refine ⟨g, hcreate, hrun.2.2.trans ?_⟩
  decide

end TinyCPlus.Runtime
