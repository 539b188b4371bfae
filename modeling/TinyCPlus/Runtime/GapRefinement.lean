import TinyCPlus.Runtime.GapRepresentation

/-!
# The gap buffer refines the plain editor

The scans of the C code are the plain editor's positions on the text held, so
every call on the buffer answers and moves as the call on the plain editor,
in every reachable state.
-/

namespace TinyCPlus.Runtime

open TinyCPlus.Library

namespace TcGap

variable {g : TcGap} {pre post : List UInt8}

/-! ## Positions -/

theorem Represents.lineStart_eq (h : Represents g pre post) {p : ℕ}
    (hp : p ≤ (pre ++ post).length) :
    g.lineStart p = Editor.lineStart (pre ++ post) p := by
  have hlen : ((pre ++ post).take p).length = p := by
    rw [List.length_take, Nat.min_eq_left hp]
  have hscan := scanDown_eq_takeWhile (fun i ↦ g.byte (i - 1) != newline)
    (· != newline) ((pre ++ post).take p) (by
      intro j hj
      rw [List.getElem_take]
      simp only [Nat.add_sub_cancel]
      rw [h.byte_eq (by omega)])
  rw [hlen] at hscan
  exact hscan

theorem Represents.lineEnd_eq (h : Represents g pre post) (p : ℕ) :
    g.lineEnd p = Editor.lineEnd (pre ++ post) p := by
  have hlen : ((pre ++ post).drop p).length = g.size - p := by
    rw [List.length_drop, h.size_eq]
  have hscan := scanUp_eq_takeWhile (fun i ↦ g.byte i != newline)
    (· != newline) ((pre ++ post).drop p) p (by
      intro j hj
      rw [List.length_drop] at hj
      rw [List.getElem_drop, h.byte_eq (by omega)])
  rw [hlen] at hscan
  exact hscan

theorem Represents.next_eq (h : Represents g pre post) (p : ℕ) :
    g.next p = Editor.nextChar (pre ++ post) p := by
  rw [next, Editor.nextChar, h.size_eq]
  by_cases hp : p < (pre ++ post).length
  · rw [if_pos hp, if_pos hp]
    have hlen : ((pre ++ post).drop (p + 1)).length =
        (pre ++ post).length - (p + 1) := List.length_drop
    rw [← hlen]
    apply scanUp_eq_takeWhile
    intro j hj
    rw [List.length_drop] at hj
    rw [List.getElem_drop, h.byte_eq (by omega)]
  · rw [if_neg hp, if_neg hp]

theorem Represents.previous_eq (h : Represents g pre post) {p : ℕ}
    (hp : p ≤ (pre ++ post).length) :
    g.previous p = Editor.prevChar (pre ++ post) p := by
  rw [previous, Editor.prevChar]
  by_cases hzero : p = 0
  · simp [hzero]
  · have hlen : ((pre ++ post).take p).tail.length = p - 1 := by
      rw [List.length_tail, List.length_take, Nat.min_eq_left hp]
    have hscan := scanDown_eq_takeWhile (fun i ↦ isContinuation (g.byte i))
      isContinuation ((pre ++ post).take p).tail (by
        intro j hj
        rw [List.getElem_tail, List.getElem_take, h.byte_eq (by omega)])
    rw [hlen] at hscan
    rw [if_pos hzero]
    exact hscan

/-! ## Lines and columns -/

theorem Represents.line_eq (h : Represents g pre post) :
    g.line = Editor.line (pre ++ post) g.start := by
  have hcount : ∀ n ≤ (pre ++ post).length,
      (List.range n).foldl
        (fun line p ↦ if g.byte p == newline then line + 1 else line) 0 =
        ((pre ++ post).take n).count newline := by
    intro n hn
    induction n with
    | zero => simp
    | succ n ih =>
        rw [List.range_succ, List.foldl_append, ih (by omega),
          List.take_succ_eq_append_getElem (by omega), List.count_append,
          List.count_singleton]
        simp only [List.foldl_cons, List.foldl_nil, h.byte_eq (by omega : n < _)]
        split <;> rfl
  exact hcount g.start h.start_le

/-- Behind the first byte of a piece of text, its characters are those of the
piece left after the continuation bytes. -/
theorem charCount_dropWhile (rest : List UInt8) :
    Editor.charCount (rest.dropWhile isContinuation) =
      rest.countP (fun b ↦ !isContinuation b) := by
  induction rest with
  | nil => rfl
  | cons b rest ih =>
      cases hb : isContinuation b with
      | true => simpa [hb] using ih
      | false => simp [hb, Editor.charCount, Nat.add_comm]

theorem charCount_step (t : List UInt8) {p c : ℕ} (hpc : p < c)
    (hc : c ≤ t.length) :
    Editor.charCount ((t.take c).drop p) =
      1 + Editor.charCount ((t.take c).drop (Editor.nextChar t p)) := by
  have hp : p < t.length := by omega
  have hcons : (t.take c).drop p = t[p] :: (t.take c).drop (p + 1) := by
    rw [List.drop_eq_getElem_cons (by simp; omega), List.getElem_take]
  have hskip : ((t.take c).drop (p + 1)).dropWhile isContinuation =
      (t.take c).drop (Editor.nextChar t p) := by
    rw [List.drop_take, dropWhile_take, Editor.nextChar, if_pos hp,
      ← List.drop_take, List.drop_drop]
  rw [hcons, Editor.charCount, ← charCount_dropWhile, hskip]

theorem lt_nextChar (t : List UInt8) {p : ℕ} (hp : p < t.length) :
    p < Editor.nextChar t p := by
  rw [Editor.nextChar, if_pos hp]
  omega

theorem Represents.columnLoop_eq (h : Represents g pre post) (fuel p column : ℕ)
    (hfuel : g.start - p ≤ fuel) :
    g.columnLoop fuel p column =
      column + Editor.charCount (((pre ++ post).take g.start).drop p) := by
  have hstart := h.start_le
  induction fuel generalizing p column with
  | zero =>
      rw [columnLoop, List.drop_of_length_le (by simp; omega)]
      rfl
  | succ fuel ih =>
      rw [columnLoop]
      by_cases hp : p < g.start
      · have hlt := lt_nextChar (pre ++ post) (by omega : p < (pre ++ post).length)
        rw [if_pos hp, h.next_eq, ih _ _ (by omega),
          charCount_step (pre ++ post) hp hstart]
        omega
      · rw [if_neg hp, List.drop_of_length_le (by simp; omega)]
        rfl

theorem Represents.column_eq (h : Represents g pre post) :
    g.column = Editor.column (pre ++ post) g.start := by
  rw [column, h.lineStart_eq h.start_le, h.columnLoop_eq _ _ _ (le_refl _),
    Nat.zero_add, Editor.column]

theorem Represents.view_eq (h : Represents g pre post) {e : Editor}
    (htext : e.text = pre ++ post) (hcursor : e.cursor = pre.length) :
    g.view = e.view := by
  simp only [TcGap.view, Editor.view, TcGap.length, TcGap.position, h.text_eq,
    h.size_eq, h.line_eq, h.column_eq, h.start_eq, htext, hcursor]

/-! ## Walking inside a line -/

theorem nextChar_le (t : List UInt8) {p stop : ℕ} (hp : p < stop)
    (hstop : stop ≤ t.length)
    (hbyte : ∀ h : stop < t.length, isContinuation t[stop] = false) :
    Editor.nextChar t p ≤ stop := by
  rw [Editor.nextChar, if_pos (by omega)]
  by_cases hend : stop = t.length
  · have hle := (List.takeWhile_prefix isContinuation (l := t.drop (p + 1))).length_le
    rw [List.length_drop] at hle
    omega
  · have hlt : stop < t.length := by omega
    have hle := length_takeWhile_le_of_not isContinuation (t.drop (p + 1))
      (stop - (p + 1)) (by rw [List.length_drop]; omega) (by
        rw [List.getElem_drop]
        have hidx : p + 1 + (stop - (p + 1)) = stop := by omega
        simpa only [hidx] using hbyte hlt)
    omega

theorem le_skipChars (t : List UInt8) (n p : ℕ) : p ≤ Editor.skipChars t n p := by
  induction n generalizing p with
  | zero => exact le_refl p
  | succ n ih => exact (Editor.le_nextChar t p).trans (ih _)

theorem lineEnd_le (t : List UInt8) {p : ℕ} (hp : p ≤ t.length) :
    Editor.lineEnd t p ≤ t.length := by
  have hle := (List.takeWhile_prefix (· != newline) (l := t.drop p)).length_le
  rw [List.length_drop] at hle
  rw [Editor.lineEnd]
  omega

/-- A line ends at a newline, which continues no character. -/
theorem isContinuation_lineEnd (t : List UInt8) (p : ℕ)
    (h : Editor.lineEnd t p < t.length) :
    isContinuation t[Editor.lineEnd t p] = false := by
  have hlt : ((t.drop p).takeWhile (· != newline)).length < (t.drop p).length := by
    rw [Editor.lineEnd] at h
    rw [List.length_drop]
    omega
  have hnot := not_getElem_length_takeWhile (· != newline) (t.drop p) hlt
  rw [List.getElem_drop] at hnot
  have hnewline : t[Editor.lineEnd t p] = newline := by
    simpa [Editor.lineEnd] using hnot
  rw [hnewline]
  decide

theorem Represents.advance_eq (h : Represents g pre post) {stop : ℕ}
    (hstop : stop ≤ (pre ++ post).length)
    (hbyte : ∀ h : stop < (pre ++ post).length,
      isContinuation (pre ++ post)[stop] = false)
    (column : ℕ) {p : ℕ} (hp : p ≤ stop) :
    g.advance stop column p =
      min stop (Editor.skipChars (pre ++ post) column p) := by
  induction column generalizing p with
  | zero => exact (Nat.min_eq_right hp).symm
  | succ column ih =>
      rw [advance]
      by_cases hlt : p < stop
      · rw [if_pos hlt, h.next_eq, ih (nextChar_le _ hlt hstop hbyte)]
        rfl
      · have heq : p = stop := by omega
        rw [if_neg hlt, Nat.min_eq_left (heq ▸ le_skipChars _ _ _), heq]

theorem Represents.advance_inLine (h : Represents g pre post) (column : ℕ) {p : ℕ}
    (hp : p ≤ (pre ++ post).length) :
    g.advance (g.lineEnd p) column p = Editor.inLine (pre ++ post) p column := by
  rw [h.lineEnd_eq, Editor.inLine]
  exact h.advance_eq (lineEnd_le _ hp) (isContinuation_lineEnd _ _) column
    (Editor.le_lineEnd _ _)

theorem Represents.gotoLoop_eq (h : Represents g pre post) (line current : ℤ)
    (n p : ℕ) (hn : n = (pre ++ post).length - p) :
    g.gotoLoop line n p current =
      p + Editor.lineOffset ((pre ++ post).drop p) (line - current) := by
  induction n generalizing p current with
  | zero =>
      rw [gotoLoop, List.drop_of_length_le (by omega)]
      rfl
  | succ n ih =>
      have hp : p < (pre ++ post).length := by omega
      rw [gotoLoop, List.drop_eq_getElem_cons hp, Editor.lineOffset,
        h.byte_eq hp]
      by_cases hlt : current < line
      · have hpos : 0 < line - current := by omega
        rw [if_pos hlt, if_pos hpos, ih _ _ (by omega)]
        have hline : line - (if (pre ++ post)[p] == newline
            then current + 1 else current) =
            if (pre ++ post)[p] == newline then line - current - 1
            else line - current := by
          split <;> omega
        rw [hline]
        omega
      · have hneg : ¬ 0 < line - current := by omega
        rw [if_neg hlt, if_neg hneg, Nat.add_zero]

/-! ## Searching -/

theorem isPrefixOf_drop_iff (t needle : List UInt8) {p : ℕ}
    (hp : p + needle.length ≤ t.length) :
    needle.isPrefixOf (t.drop p) = true ↔
      ∀ j, j < needle.length → t.getD (p + j) 0 = needle.getD j 0 := by
  rw [List.isPrefixOf_iff_prefix, List.prefix_iff_eq_take]
  constructor
  · intro heq j hj
    rw [List.getD_eq_getElem _ _ (by omega), List.getD_eq_getElem _ _ hj]
    have hlen : j < ((t.drop p).take needle.length).length := by
      rw [← heq]
      exact hj
    calc
      t[p + j] = ((t.drop p).take needle.length)[j] := by
        rw [List.getElem_take, List.getElem_drop]
      _ = needle[j] := by
        simp only [← heq]
  · intro hall
    apply List.ext_getElem
    · simp only [List.length_take, List.length_drop]
      omega
    · intro j hj _
      have hbyte := hall j hj
      rw [List.getD_eq_getElem _ _ (by omega), List.getD_eq_getElem _ _ hj] at hbyte
      rw [List.getElem_take, List.getElem_drop, hbyte]

theorem isPrefixOf_drop_of_lt (t needle : List UInt8) {p : ℕ}
    (hp : t.length < p + needle.length) (hne : needle ≠ []) :
    needle.isPrefixOf (t.drop p) = false := by
  rw [Bool.eq_false_iff, ne_eq, List.isPrefixOf_iff_prefix]
  intro hsign
  have hle := hsign.length_le
  have hpos := List.length_pos_iff.mpr hne
  rw [List.length_drop] at hle
  omega

theorem Represents.findLoop_eq (h : Represents g pre post) (needle : List UInt8)
    (m p : ℕ) (hm : p + m + needle.length ≤ (pre ++ post).length + 1) :
    g.findLoop needle m p =
      searchIndex ((List.range' p m).find? fun q ↦
        needle.isPrefixOf ((pre ++ post).drop q)) := by
  induction m generalizing p with
  | zero => rfl
  | succ m ih =>
      have hp : p + needle.length ≤ (pre ++ post).length := by omega
      have hscan : scanUp (fun j ↦ g.byte (p + j) == needle.getD j 0)
          needle.length 0 = needle.length ↔
          needle.isPrefixOf ((pre ++ post).drop p) = true := by
        rw [isPrefixOf_drop_iff _ _ hp]
        conv_lhs => rhs; rw [← Nat.zero_add needle.length]
        rw [scanUp_eq_add_iff]
        constructor
        · intro hall j hj
          have hbyte := hall j (Nat.zero_le j) (by omega)
          rw [h.byte_eq (by omega)] at hbyte
          rw [List.getD_eq_getElem _ _ (by omega)]
          simpa using hbyte
        · intro hall j _ hj
          have hbyte := hall j (by omega)
          rw [List.getD_eq_getElem _ _ (by omega)] at hbyte
          rw [h.byte_eq (by omega), hbyte]
          simp
      rw [findLoop, List.range'_succ, List.find?_cons]
      by_cases hmatch : needle.isPrefixOf ((pre ++ post).drop p) = true
      · simp only [hscan.mpr hmatch, if_true, hmatch, searchIndex]
      · rw [if_neg (fun heq ↦ hmatch (hscan.mp heq))]
        simp only [Bool.not_eq_true] at hmatch
        simp only [hmatch]
        exact ih (p + 1) (by omega)

theorem Represents.find_eq (h : Represents g pre post) (needle : List UInt8)
    (start : ℕ) :
    g.find needle start = findNonempty (pre ++ post) needle start := by
  rw [find, findNonempty, h.size_eq]
  by_cases hempty : needle = []
  · simp [hempty]
  · have hpos : 0 < needle.length := List.length_pos_iff.mpr hempty
    rw [if_neg hempty, findAny, Editor.leastMatch]
    have hnone : ∀ n, (∀ q, q ∈ List.range' n ((pre ++ post).length + 1 - n) →
        (pre ++ post).length < q + needle.length) →
        (List.range' n ((pre ++ post).length + 1 - n)).find?
          (fun q ↦ needle.isPrefixOf ((pre ++ post).drop q)) = none := by
      intro n hfar
      rw [List.find?_eq_none]
      intro q hq
      rw [isPrefixOf_drop_of_lt _ _ (hfar q hq) hempty]
      simp
    by_cases hout : needle.length = 0 ∨ (pre ++ post).length < start ∨
        (pre ++ post).length < needle.length
    · rw [if_pos hout, hnone]
      · rfl
      · intro q hq
        rw [List.mem_range'_1] at hq
        omega
    · rw [if_neg hout]
      by_cases hroom : start ≤ (pre ++ post).length - needle.length + 1
      · rw [h.findLoop_eq needle _ _ (by omega)]
        generalize hm : (pre ++ post).length - needle.length + 1 - start = m
        have hsplit : List.range' start ((pre ++ post).length + 1 - start) =
            List.range' start m ++
              List.range' (start + m)
                ((pre ++ post).length + 1 - (start + m)) := by
          rw [List.range'_append_1]
          congr 1
          omega
        rw [hsplit, List.find?_append, hnone, Option.or_none]
        intro q hq
        rw [List.mem_range'_1] at hq
        omega
      · have hzero : (pre ++ post).length - needle.length + 1 - start = 0 := by
          omega
        rw [hzero, hnone]
        · rfl
        · intro q hq
          rw [List.mem_range'_1] at hq
          omega

end TcGap

end TinyCPlus.Runtime
