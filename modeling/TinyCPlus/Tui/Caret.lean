import TinyCPlus.Protobuf.Utf8
import TinyCPlus.Runtime.GapRefinement
import TinyCPlus.Tui.Widget

/-!
# The caret of a text box

The caret is computed by one pass over the newline bytes and one over the code points before the
cursor; the text is drawn by a third pass.  All three agree where the cursor stands at the start of
a code point.
-/

namespace TinyCPlus.Tui

open TinyCPlus.Runtime TinyCPlus.Protobuf

/-! ## Bytes of a code point -/

theorem isContinuation_continuation (n : ℕ) : isContinuation (Terminal.continuation n) = true :=
  beq_iff_eq.mpr (Terminal.continuation_bits n).1

/-- The encoding of a newline is the newline byte, and no other encoding has this byte. -/
theorem utf8Encode_count_newline {cp : ℕ} (h : IsScalar cp) :
    (utf8Encode cp).count newline = if cp = 10 then 1 else 0 := by
  rcases utf8Encode_cases h with ⟨hlt, henc⟩ | ⟨hge, lead, ks, henc, hlead⟩
  · rw [henc]
    by_cases hcp : cp = 10
    · subst hcp
      rfl
    · have hne : UInt8.ofNat cp ≠ newline := by
        intro e
        have htoNat := congrArg UInt8.toNat e
        rw [UInt8.toNat_ofNat', Nat.mod_eq_of_lt (by omega)] at htoNat
        exact hcp htoNat
      rw [if_neg hcp, List.count_singleton, beq_eq_false_iff_ne.mpr hne]
      rfl
  · have hten : newline.toNat = 10 := rfl
    rw [henc, if_neg (by omega)]
    refine List.count_eq_zero.mpr fun hmem ↦ ?_
    rcases List.mem_cons.mp hmem with rfl | hmem
    · omega
    · obtain ⟨k, -, hk⟩ := List.mem_map.mp hmem
      have hcont := isContinuation_continuation k
      rw [hk] at hcont
      exact absurd hcont (by decide)

/-- Behind the first byte of a code point there are continuation bytes. -/
theorem isContinuation_of_starts {s : List UInt8} {p cp i : ℕ} (h : Starts s p cp) (hpi : p < i)
    (hi : i < p + (utf8Encode cp).length) : isContinuation (s.getD i 0) = true := by
  have hbyte : s.getD i 0 = (utf8Encode cp).getD (i - p) 0 := by
    have hdrop : (s.drop p).getD (i - p) 0 = s.getD i 0 := by
      rw [List.getD_eq_getElem?_getD, List.getElem?_drop, List.getD_eq_getElem?_getD]
      congr 3
      omega
    rw [← hdrop, h.drop, List.getD_append _ _ _ _ (by omega)]
  rw [hbyte]
  rcases utf8Encode_cases h.1 with ⟨-, henc⟩ | ⟨-, lead, ks, henc, -⟩
  · rw [henc, List.length_singleton] at hi
    omega
  · obtain ⟨j, hj⟩ := Nat.exists_eq_succ_of_ne_zero (by omega : i - p ≠ 0)
    rw [henc, List.length_cons, List.length_map] at hi
    have hjlt : j < (ks.map Terminal.continuation).length := by
      rw [List.length_map]
      omega
    rw [henc, hj, List.getD_cons_succ, List.getD_eq_getElem _ _ hjlt, List.getElem_map]
    exact isContinuation_continuation _

/-! ## The passes over the text -/

/-- The counters of the drawing loop. -/
@[ext]
structure TextCounter where
  p : ℕ
  line : ℤ
  column : ℤ

namespace TextCounter

variable {text : List UInt8} {bottom : ℤ} {c d : TextCounter}

/-- The counters behind the code point at `c.p`. -/
def next (text : List UInt8) (c : TextCounter) : TextCounter :=
  let cp := (utf8Decode text c.p).1
  let p := (utf8Decode text c.p).2
  if cp = 10 then ⟨p, c.line + 1, 0⟩ else ⟨p, c.line, c.column + columnWidth cp c.column⟩

/-- A turn of the drawing loop, with the line below the view. -/
def Turn (text : List UInt8) (bottom : ℤ) (c d : TextCounter) : Prop :=
  c.p < text.length ∧ c.line < bottom ∧ d = c.next text

/-- The drawing loop comes to the counters `c`. -/
def Visits (text : List UInt8) (bottom : ℤ) (c : TextCounter) : Prop :=
  Relation.ReflTransGen (Turn text bottom) ⟨0, 0, 0⟩ c

/-- What the drawing loop draws for the code point at `c.p`. -/
def shown (area : Rect) (scrollLine scrollColumn : ℤ) (text : List UInt8) (c : TextCounter) :
    List DrawOp :=
  let cp := (utf8Decode text c.p).1
  let cw := columnWidth cp c.column
  let x := area.x + c.column - scrollColumn
  let y := area.y + c.line - scrollLine
  if cp ≠ 10 ∧ scrollLine ≤ c.line ∧ scrollColumn ≤ c.column ∧
      c.column + cw ≤ scrollColumn + area.width then
    if cp = 9 then (List.range cw.toNat).map fun (j : ℕ) ↦ .put (x + j) y 32 0xe6edf3 0x101820
    else [.put x y cp 0xe6edf3 0x101820]
  else []

theorem next_p (text : List UInt8) (c : TextCounter) : (c.next text).p = (utf8Decode text c.p).2 := by
  unfold next
  dsimp only
  split_ifs <;> rfl

theorem Turn.lt (h : Turn text bottom c d) : c.p < d.p := by
  obtain ⟨hp, -, rfl⟩ := h
  rw [next_p]
  exact utf8Decode_lt hp

theorem le_of_path (h : Relation.ReflTransGen (Turn text bottom) c d) : c.p ≤ d.p := by
  induction h with
  | refl => exact le_rfl
  | tail _ hturn ih => exact ih.trans hturn.lt.le

theorem take_of_starts {p cp : ℕ} (h : Starts text p cp) :
    text.take (p + (utf8Encode cp).length) = text.take p ++ utf8Encode cp := by
  rw [List.take_add, h.drop, List.take_left']
  rfl

theorem starts_newline {p : ℕ} (hp : p < text.length) (h : text[p] = newline) :
    Starts text p 10 := by
  refine ⟨⟨by decide, by decide⟩, cons_isPrefix_drop.mpr ⟨hp, ?_, List.nil_prefix⟩⟩
  rw [List.getD_eq_getElem _ _ hp, h]
  rfl

/-- The line counter is the number of newlines before the position. -/
theorem next_line (hp : c.p < text.length) (hline : c.line = (text.take c.p).count newline) :
    (c.next text).line = (text.take (c.next text).p).count newline := by
  by_cases hstarts : ∃ cp, Starts text c.p cp
  · obtain ⟨cp, hstarts⟩ := hstarts
    rw [next_p, hstarts.decode, take_of_starts hstarts, List.count_append,
      utf8Encode_count_newline hstarts.1]
    simp only [next, hstarts.decode]
    split_ifs
    · rw [hline]
      rfl
    · exact hline
  · have hdecode := utf8Decode_of_not_starts hp (not_exists.mp hstarts)
    have hbyte : text[c.p] ≠ newline := fun h ↦ hstarts ⟨10, starts_newline hp h⟩
    rw [next_p, hdecode, List.take_succ_eq_append_getElem hp, List.count_append,
      List.count_singleton, beq_eq_false_iff_ne.mpr hbyte]
    simp only [next, hdecode]
    exact hline

/-- A code point before the cursor ends before it, or at it. -/
theorem next_le {start : ℕ} (hp : c.p < start) (hstart : start ≤ text.length)
    (hcursor : ∀ b, text[start]? = some b → isContinuation b = false) :
    (c.next text).p ≤ start := by
  rw [next_p]
  by_cases hstarts : ∃ cp, Starts text c.p cp
  · obtain ⟨cp, hstarts⟩ := hstarts
    rw [hstarts.decode]
    by_contra hover
    have hlt : start < text.length := (not_le.mp hover).trans_le hstarts.le
    have hcont := isContinuation_of_starts hstarts hp (not_le.mp hover)
    rw [List.getD_eq_getElem _ _ hlt, hcursor _ (List.getElem?_eq_getElem hlt)] at hcont
    cases hcont
  · rw [utf8Decode_of_not_starts (hp.trans_le hstart) (not_exists.mp hstarts)]
    exact hp

/-! ### What the loop visits -/

theorem Visits.line (h : Visits text bottom c) : c.line = (text.take c.p).count newline := by
  induction h with
  | refl => rfl
  | tail _ hturn ih =>
    obtain ⟨hp, -, rfl⟩ := hturn
    exact next_line hp ih

/-- The pass for the caret has the column counter of the drawing loop. -/
theorem caretLoop_eq (h : Relation.ReflTransGen (Turn text bottom) d c) {fuel : ℕ}
    (hfuel : c.p ≤ d.p + fuel) : caretLoop text c.p fuel d.p d.column = c.column := by
  induction h using Relation.ReflTransGen.head_induction_on generalizing fuel with
  | refl =>
    cases fuel with
    | zero => rfl
    | succ fuel => rw [caretLoop, if_neg (lt_irrefl _)]
  | head hturn hpath ih =>
    have hlt := hturn.lt
    have hle := le_of_path hpath
    cases fuel with
    | zero => omega
    | succ fuel =>
      rw [caretLoop, if_pos (hlt.trans_le hle), ← @ih fuel (by omega)]
      obtain ⟨-, -, rfl⟩ := hturn
      simp only [next]
      split_ifs <;> rfl

theorem Visits.column (h : Visits text bottom c) : caretLoop text c.p c.p 0 0 = c.column :=
  caretLoop_eq h (Nat.le_add_left _ _)

theorem count_take_le (text : List UInt8) {p q : ℕ} (h : p ≤ q) :
    (text.take p).count newline ≤ (text.take q).count newline :=
  (List.take_sublist_take_left h).count_le _

/-- The loop comes to the cursor where its line is above the bottom of the view. -/
theorem exists_visits {start : ℕ} (hstart : start ≤ text.length)
    (hcursor : ∀ b, text[start]? = some b → isContinuation b = false)
    (hbottom : ((text.take start).count newline : ℤ) < bottom) :
    ∃ c, Visits text bottom c ∧ c.p = start := by
  have hfrom : ∀ n c, Visits text bottom c → c.p ≤ start → start ≤ c.p + n →
      ∃ c, Visits text bottom c ∧ c.p = start := by
    intro n
    induction n with
    | zero => exact fun c h hle hge ↦ ⟨c, h, le_antisymm hle hge⟩
    | succ n ih =>
      intro c h hle hge
      by_cases heq : c.p = start
      · exact ⟨c, h, heq⟩
      have hlt : c.p < start := lt_of_le_of_ne hle heq
      have hline : c.line < bottom := by
        have hcount := count_take_le text hle
        rw [h.line]
        omega
      have hturn : Turn text bottom c (c.next text) := ⟨hlt.trans_le hstart, hline, rfl⟩
      have hmove := hturn.lt
      exact ih _ (h.tail hturn) (next_le hlt hstart hcursor) (by omega)
  exact hfrom start ⟨0, 0, 0⟩ .refl (Nat.zero_le _) (Nat.le_add_left _ _)

/-! ### What is drawn -/

theorem textboxLoop_succ (area : Rect) (scrollLine scrollColumn : ℤ) (text : List UInt8)
    (fuel : ℕ) (c : TextCounter) (hp : c.p < text.length)
    (hline : c.line < scrollLine + area.height) :
    textboxLoop area scrollLine scrollColumn text (fuel + 1) c.p c.line c.column =
      c.shown area scrollLine scrollColumn text ++
        textboxLoop area scrollLine scrollColumn text fuel (c.next text).p (c.next text).line
          (c.next text).column := by
  rw [textboxLoop, if_pos ⟨hp, hline⟩]
  simp only [shown, next]
  by_cases hnewline : (utf8Decode text c.p).1 = 10
  · simp only [hnewline, ne_eq, not_true, false_and, if_true, if_false,
      List.nil_append]
  · simp only [ne_eq, hnewline, not_false_eq_true, true_and, if_false]

/-- The loop at the counters it visits. -/
theorem Visits.textboxLoop {area : Rect} {scrollLine : ℤ} (scrollColumn : ℤ)
    (h : Visits text (scrollLine + area.height) c) :
    ∃ front fuel, text.length ≤ c.p + fuel ∧
      textboxLoop area scrollLine scrollColumn text text.length 0 0 0 =
        front ++ textboxLoop area scrollLine scrollColumn text fuel c.p c.line c.column := by
  induction h with
  | refl => exact ⟨[], text.length, Nat.le_add_left _ _, rfl⟩
  | tail _ hturn ih =>
    obtain ⟨front, fuel, hfuel, hloop⟩ := ih
    have hlt := hturn.lt
    obtain ⟨hp, hline, rfl⟩ := hturn
    cases fuel with
    | zero => omega
    | succ fuel =>
      rw [textboxLoop_succ area scrollLine scrollColumn text fuel _ hp hline] at hloop
      exact ⟨front ++ shown area scrollLine scrollColumn text _, fuel, by omega, by
        rw [hloop, List.append_assoc]⟩

theorem Visits.shown_subset {area : Rect} {scrollLine : ℤ} (scrollColumn : ℤ)
    (h : Visits text (scrollLine + area.height) c) (hp : c.p < text.length)
    (hline : c.line < scrollLine + area.height) :
    c.shown area scrollLine scrollColumn text ⊆
      Tui.textboxLoop area scrollLine scrollColumn text text.length 0 0 0 := by
  obtain ⟨front, fuel, hfuel, hloop⟩ := h.textboxLoop scrollColumn
  cases fuel with
  | zero => omega
  | succ fuel =>
    rw [hloop, textboxLoop_succ area scrollLine scrollColumn text fuel c hp hline]
    exact fun op hop ↦ List.mem_append_right _ (List.mem_append_left _ hop)

end TextCounter

/-! ## The view -/

/-- The caret is in the view of the scroll offset that has followed it. -/
theorem followCaret_spec (caret scroll : ℤ) {size : ℤ} (hsize : 0 < size) :
    followCaret caret scroll size ≤ caret ∧ caret < followCaret caret scroll size + size := by
  unfold followCaret
  dsimp only
  split_ifs <;> constructor <;> omega

theorem columnWidth_pos (cp : ℕ) (column : ℤ) : 0 < columnWidth cp column := by
  unfold columnWidth
  split_ifs
  · have hlt := Int.tmod_lt_of_pos column (by decide : (0 : ℤ) < 4)
    omega
  · rcases uiWidth_cases cp with h | h <;> rw [h] <;> decide

/-- A code point that fits in the view is drawn from the cell of its counters on. -/
theorem put_mem_shown {area : Rect} {scrollLine scrollColumn : ℤ} {text : List UInt8}
    {c : TextCounter} (hnewline : (utf8Decode text c.p).1 ≠ 10) (hline : scrollLine ≤ c.line)
    (hcolumn : scrollColumn ≤ c.column)
    (hfits : c.column + columnWidth (utf8Decode text c.p).1 c.column ≤
      scrollColumn + area.width) :
    .put (area.x + c.column - scrollColumn) (area.y + c.line - scrollLine)
      (if (utf8Decode text c.p).1 = 9 then 32 else (utf8Decode text c.p).1) 0xe6edf3 0x101820 ∈
        c.shown area scrollLine scrollColumn text := by
  simp only [TextCounter.shown]
  rw [if_pos ⟨hnewline, hline, hcolumn, hfits⟩]
  split_ifs with htab
  · have hpos := columnWidth_pos (utf8Decode text c.p).1 c.column
    have hzero : 0 < (columnWidth (utf8Decode text c.p).1 c.column).toNat := by omega
    exact List.mem_map.mpr ⟨0, List.mem_range.mpr hzero, by simp⟩
  · exact List.mem_singleton_self _

theorem caret_notMem_textboxLoop (area : Rect) (scrollLine scrollColumn : ℤ) (text : List UInt8)
    (fuel p : ℕ) (line column x y : ℤ) :
    .caret x y ∉ textboxLoop area scrollLine scrollColumn text fuel p line column := by
  induction fuel generalizing p line column with
  | zero => exact List.not_mem_nil
  | succ fuel ih =>
    intro hop
    rw [textboxLoop] at hop
    dsimp only at hop
    split_ifs at hop
    · exact ih _ _ _ hop
    · rcases List.mem_append.mp hop with hop | hop
      · obtain ⟨j, -, hj⟩ := List.mem_map.mp hop
        cases hj
      · exact ih _ _ _ hop
    · rcases List.mem_append.mp hop with hop | hop
      · cases List.mem_singleton.mp hop
      · exact ih _ _ _ hop
    · rw [List.nil_append] at hop
      exact ih _ _ _ hop
    · cases hop

/-- The caret of a focused text box is in its view, in the cell where the drawing loop stands at
the cursor. -/
theorem textbox_caret (own : WidgetFields) {g : TcGap} {pre post : List UInt8}
    (hg : g.Represents pre post) (hwidth : 0 < own.area.width) (hheight : 0 < own.area.height)
    (hcursor : ∀ b, g.text[g.start]? = some b → isContinuation b = false) :
    ((own.scrolled g).scrollLine ≤ g.line ∧
      g.line < (own.scrolled g).scrollLine + own.area.height) ∧
    ((own.scrolled g).scrollColumn ≤ caretColumn g ∧
      caretColumn g < (own.scrolled g).scrollColumn + own.area.width) ∧
    ∃ c : TextCounter, c.Visits g.text ((own.scrolled g).scrollLine + own.area.height) ∧
      c.p = g.start ∧ c.line = g.line ∧ c.column = caretColumn g ∧
      (∀ d : TextCounter, d.Visits g.text ((own.scrolled g).scrollLine + own.area.height) →
        d.p = g.start → d = c) ∧
      (∀ x y, .caret x y ∈ drawTextbox own g true ↔
        x = own.area.x + c.column - (own.scrolled g).scrollColumn ∧
          y = own.area.y + c.line - (own.scrolled g).scrollLine) ∧
      (c.p < g.text.length → (utf8Decode g.text c.p).1 ≠ 10 →
        c.column + columnWidth (utf8Decode g.text c.p).1 c.column ≤
          (own.scrolled g).scrollColumn + own.area.width →
        .put (own.area.x + c.column - (own.scrolled g).scrollColumn)
          (own.area.y + c.line - (own.scrolled g).scrollLine)
          (if (utf8Decode g.text c.p).1 = 9 then 32 else (utf8Decode g.text c.p).1)
          0xe6edf3 0x101820 ∈ drawTextbox own g true) := by
  have hline := followCaret_spec g.line own.scrollLine hheight
  have hcolumn := followCaret_spec (caretColumn g) own.scrollColumn hwidth
  refine ⟨hline, hcolumn, ?_⟩
  have hstart : g.start ≤ g.text.length := by
    rw [hg.text_eq, hg.start_eq, List.length_append]
    exact Nat.le_add_right _ _
  have hcount : g.line = (g.text.take g.start).count newline := by
    rw [hg.line_eq, hg.text_eq]
    rfl
  have hat : ∀ d : TextCounter, d.Visits g.text ((own.scrolled g).scrollLine + own.area.height) →
      d.p = g.start → d = ⟨g.start, g.line, caretColumn g⟩ := by
    intro d hd hp
    have hdline := hd.line
    have hdcolumn := hd.column
    rw [hp] at hdline hdcolumn
    exact TextCounter.ext hp (by rw [hdline, hcount]) hdcolumn.symm
  have hbottom : ((g.text.take g.start).count newline : ℤ) <
      (own.scrolled g).scrollLine + own.area.height := by
    rw [← hcount]
    exact hline.2
  obtain ⟨c, hvisits, hp⟩ := TextCounter.exists_visits hstart hcursor hbottom
  obtain rfl := hat c hvisits hp
  refine ⟨_, hvisits, rfl, rfl, rfl, hat, fun x y ↦ ?_, fun hlt hnewline hfits ↦ ?_⟩
  · have hbounds : own.area.x ≤ own.area.x + caretColumn g - (own.scrolled g).scrollColumn ∧
        own.area.x + caretColumn g - (own.scrolled g).scrollColumn <
          own.area.x + own.area.width ∧
        own.area.y ≤ own.area.y + g.line - (own.scrolled g).scrollLine ∧
        own.area.y + g.line - (own.scrolled g).scrollLine < own.area.y + own.area.height := by
      obtain ⟨hline₁, hline₂⟩ : (own.scrolled g).scrollLine ≤ g.line ∧
        g.line < (own.scrolled g).scrollLine + own.area.height := hline
      obtain ⟨hcolumn₁, hcolumn₂⟩ : (own.scrolled g).scrollColumn ≤ caretColumn g ∧
        caretColumn g < (own.scrolled g).scrollColumn + own.area.width := hcolumn
      exact ⟨by omega, by omega, by omega, by omega⟩
    simp only [drawTextbox]
    rw [if_pos ⟨trivial, hbounds⟩, List.mem_append, List.mem_singleton]
    constructor
    · rintro (hop | hop)
      · exact absurd hop (caret_notMem_textboxLoop _ _ _ _ _ _ _ _ _ _)
      · exact DrawOp.caret.inj hop
    · rintro ⟨rfl, rfl⟩
      exact Or.inr rfl
  · unfold drawTextbox
    exact List.mem_append_left _ (hvisits.shown_subset _ hlt hline.2
      (put_mem_shown hnewline hline.1 hcolumn.1 hfits))

def tabBox : WidgetFields :=
  ⟨0, .textbox, ⟨0, 0, 10, 2⟩, 10, 2, 0, 0, [], none, false⟩

/-- `a` and a tab before the cursor. -/
def tabText : TcGap := ⟨[97, 9, 98], 2, 2, 3, false⟩

theorem textbox_caret_tab : .caret 4 0 ∈ drawTextbox tabBox tabText true := by
  have hg : tabText.Represents [97, 9] [98] := ⟨⟨[], rfl, rfl, rfl⟩, rfl⟩
  have hcursor : ∀ b, tabText.text[tabText.start]? = some b → isContinuation b = false := by
    intro b hb
    obtain rfl : (98 : UInt8) = b := Option.some.inj hb
    decide
  obtain ⟨-, -, c, -, -, hline, hcolumn, -, hcaret, -⟩ :=
    textbox_caret tabBox hg (by decide) (by decide) hcursor
  refine (hcaret 4 0).mpr ?_
  rw [hline, hcolumn]
  decide

end TinyCPlus.Tui
