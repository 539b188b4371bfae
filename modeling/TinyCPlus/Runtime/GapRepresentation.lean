import TinyCPlus.Runtime.PlainEditor

/-!
# What a gap buffer holds

`Represents g pre post` says that the buffer holds the text `pre ++ post` with
the cursor between the two parts.  Each operation has one lemma that says
which parts the resulting buffer represents, and each position query is the
plain editor's query on the text held.
-/

namespace TinyCPlus.Runtime.TcGap

open TinyCPlus.Library

/-- The layout of the buffer: the two parts of the text with a gap between. -/
structure Represents (g : TcGap) (pre post : List UInt8) : Prop where
  layout : ∃ gap, g.data = pre ++ gap ++ post ∧
    g.stop = pre.length + gap.length ∧
    g.capacity = pre.length + gap.length + post.length
  start_eq : g.start = pre.length

/-- The indices are ordered and the block has the size recorded for it. -/
structure WellFormed (g : TcGap) : Prop where
  start_le_stop : g.start ≤ g.stop
  stop_le_capacity : g.stop ≤ g.capacity
  length_data : g.data.length = g.capacity

variable {g : TcGap} {pre post : List UInt8}

theorem Represents.wellFormed (h : Represents g pre post) : WellFormed g := by
  obtain ⟨⟨gap, hdata, hstop, hcap⟩, hstart⟩ := h
  refine ⟨by omega, by omega, ?_⟩
  rw [hdata, hcap]
  simp [Nat.add_assoc]

theorem Represents.size_eq (h : Represents g pre post) :
    g.size = (pre ++ post).length := by
  obtain ⟨⟨gap, -, hstop, hcap⟩, hstart⟩ := h
  rw [size, List.length_append]
  omega

theorem Represents.text_eq (h : Represents g pre post) :
    g.text = pre ++ post := by
  obtain ⟨⟨gap, hdata, hstop, hcap⟩, hstart⟩ := h
  have hpost : g.capacity - g.stop = post.length := by omega
  have htail : g.data.drop g.stop = post := by
    rw [hdata, hstop, ← List.length_append, List.drop_left]
  have hhead : g.data.take g.start = pre := by
    rw [hdata, hstart, List.append_assoc, List.take_left]
  rw [text, bytesAt, bytesAt, List.drop_zero, hhead, htail, hpost,
    List.take_length]

theorem Represents.start_le (h : Represents g pre post) :
    g.start ≤ (pre ++ post).length := by
  rw [h.start_eq, List.length_append]
  omega

/-- A byte read inside the text stays inside the allocation and is the byte
of the text at that position. -/
theorem Represents.byte_eq (h : Represents g pre post) {p : ℕ}
    (hp : p < (pre ++ post).length) : g.byte p = (pre ++ post)[p] := by
  obtain ⟨⟨gap, hdata, hstop, -⟩, hstart⟩ := h
  rw [List.length_append] at hp
  rw [byte, hdata]
  by_cases hlt : p < g.start
  · rw [if_pos hlt, List.append_assoc,
      List.getD_eq_getElem _ _ (by simp; omega)]
    rw [List.getElem_append_left (by omega),
      List.getElem_append_left (by omega)]
  · rw [if_neg hlt, List.getD_eq_getElem _ _ (by simp; omega)]
    rw [List.getElem_append_right (by simp; omega),
      List.getElem_append_right (by omega)]
    congr 1
    simp only [List.length_append]
    omega

/-! ## Moving the cursor -/

theorem memmove_left (pre gap post : List UInt8) {p : ℕ} (hp : p ≤ pre.length) :
    ∃ gap', gap'.length = gap.length ∧
      memmove (pre ++ gap ++ post) (p + gap.length) p (pre.length - p) =
        pre.take p ++ gap' ++ (pre.drop p ++ post) := by
  refine ⟨((pre ++ gap).take (p + gap.length)).drop p, ?_, ?_⟩
  · simp only [List.length_drop, List.length_take, List.length_append]
    omega
  · have hread : bytesAt (pre ++ gap ++ post) p (pre.length - p) =
        pre.drop p := by
      rw [bytesAt, List.append_assoc, List.drop_append_of_le_length hp,
        List.take_append_of_le_length (by simp), List.take_of_length_le (by simp)]
    have hfront : (pre ++ gap ++ post).take (p + gap.length) =
        pre.take p ++ ((pre ++ gap).take (p + gap.length)).drop p := by
      rw [List.take_append_of_le_length (by simp; omega)]
      conv_lhs =>
        rw [← List.take_append_drop p ((pre ++ gap).take (p + gap.length))]
      rw [List.take_take, Nat.min_eq_left (Nat.le_add_right _ _),
        List.take_append_of_le_length hp]
    have hback : (pre ++ gap ++ post).drop (p + gap.length + (pre.drop p).length) =
        post := by
      have hlen : p + gap.length + (pre.drop p).length =
          (pre ++ gap).length := by
        rw [List.length_drop, List.length_append]
        omega
      rw [hlen, List.drop_left]
    rw [memmove, hread, memcpy, hfront, hback]
    simp only [List.append_assoc]

theorem memmove_right (pre gap post : List UInt8) {n : ℕ} (hn : n ≤ post.length) :
    ∃ gap', gap'.length = gap.length ∧
      memmove (pre ++ gap ++ post) pre.length (pre.length + gap.length) n =
        (pre ++ post.take n) ++ gap' ++ post.drop n := by
  refine ⟨(gap ++ post.take n).drop n, ?_, ?_⟩
  · simp only [List.length_drop, List.length_take, List.length_append]
    omega
  · have hread : bytesAt (pre ++ gap ++ post) (pre.length + gap.length) n =
        post.take n := by
      rw [bytesAt, ← List.length_append, List.drop_left]
    have hfront : (pre ++ gap ++ post).take pre.length = pre := by
      rw [List.append_assoc, List.take_left]
    have hback : (pre ++ gap ++ post).drop (pre.length + (post.take n).length) =
        (gap ++ post.take n).drop n ++ post.drop n := by
      have hlen : (post.take n).length = n := by simp [hn]
      rw [hlen, List.append_assoc, ← List.drop_drop, List.drop_left]
      conv_lhs => rw [← List.take_append_drop n post, ← List.append_assoc]
      rw [List.drop_append_of_le_length (by simp [hn])]
    rw [memmove, hread, memcpy, hfront, hback]
    simp only [List.append_assoc]

/-- Seeking splits the text at the position asked for, or at its end. -/
theorem Represents.seekImpl (h : Represents g pre post) (p : ℕ) :
    Represents (g.seekImpl p) ((pre ++ post).take p) ((pre ++ post).drop p) := by
  have hsize := h.size_eq
  obtain ⟨⟨gap, hdata, hstop, hcap⟩, hstart⟩ := h
  have hclamp : ∃ q, q = (if g.size < p then g.size else p) ∧
      q ≤ (pre ++ post).length ∧ (pre ++ post).take q = (pre ++ post).take p ∧
      (pre ++ post).drop q = (pre ++ post).drop p := by
    refine ⟨_, rfl, ?_, ?_, ?_⟩
    · split <;> omega
    · split
      · rw [List.take_of_length_le (by omega), List.take_of_length_le (by omega)]
      · rfl
    · split
      · rw [List.drop_of_length_le (by omega), List.drop_of_length_le (by omega)]
      · rfl
  obtain ⟨q, hq, hqle, htake, hdrop⟩ := hclamp
  rw [List.length_append] at hqle
  rw [← htake, ← hdrop, TcGap.seekImpl, ← hq]
  by_cases hlt : q < g.start
  · simp only [if_pos hlt]
    obtain ⟨gap', hgap', hmove⟩ := memmove_left pre gap post (p := q) (by omega)
    have htake' : (pre ++ post).take q = pre.take q :=
      List.take_append_of_le_length (by omega)
    have hdrop' : (pre ++ post).drop q = pre.drop q ++ post :=
      List.drop_append_of_le_length (by omega)
    have hto : g.stop - (g.start - q) = q + gap.length := by omega
    refine ⟨⟨gap', ?_, ?_, ?_⟩, ?_⟩
    · rw [hdata, hto, hstart, hmove, htake', hdrop']
    · simp only [htake', List.length_take]
      omega
    · simp only [htake', hdrop', List.length_take, List.length_append,
        List.length_drop]
      omega
    · simp only [htake', List.length_take]
      omega
  · simp only [if_neg hlt]
    by_cases hgt : g.start < q
    · simp only [if_pos hgt]
      obtain ⟨gap', hgap', hmove⟩ := memmove_right pre gap post (n := q - g.start)
        (by omega)
      have htake' : (pre ++ post).take q = pre ++ post.take (q - g.start) := by
        rw [List.take_append, List.take_of_length_le (by omega), hstart]
      have hdrop' : (pre ++ post).drop q = post.drop (q - g.start) := by
        rw [List.drop_append, List.drop_of_length_le (by omega), hstart]
        rfl
      refine ⟨⟨gap', ?_, ?_, ?_⟩, ?_⟩
      · rw [htake', hdrop', ← hmove, hdata, hstart, hstop]
      · simp only [htake', List.length_take, List.length_append]
        omega
      · simp only [htake', hdrop', List.length_take, List.length_append,
          List.length_drop]
        omega
      · simp only [htake', List.length_take, List.length_append]
        omega
    · have heq : q = pre.length := by omega
      rw [if_neg hgt, heq, List.take_left, List.drop_left]
      exact ⟨⟨gap, hdata, hstop, hcap⟩, hstart⟩

/-- The second clamp of `tc_gap_seek` changes nothing. -/
theorem seek_eq_seekImpl (g : TcGap) (p : ℕ) : g.seek p = g.seekImpl p := by
  rw [TcGap.seek, TcGap.seekImpl, TcGap.seekImpl]
  by_cases hp : g.size < p
  · simp only [if_pos hp, lt_irrefl, if_false]
  · simp only [if_neg hp]

/-! ## Changing the text -/

theorem create_represents {input : List UInt8} (h : input.length ≤ gapLimit) :
    ∃ g, create input = some g ∧ Represents g [] input := by
  refine ⟨_, by rw [create, if_neg (by omega)], ⟨List.replicate 128 0, ?_, ?_, ?_⟩, rfl⟩
  · simp only [memcpy, Nat.add_sub_cancel_left, List.nil_append]
    rw [List.take_replicate, List.drop_of_length_le (by simp; omega),
      List.append_nil, Nat.min_eq_left (by omega)]
  · simp
  · simp [Nat.add_comm]

theorem Represents.grow (h : Represents g pre post) (n : ℕ) :
    Represents (g.grow g.size n) pre post ∧
      n ≤ (g.grow g.size n).stop - (g.grow g.size n).start := by
  have hsize := h.size_eq
  obtain ⟨⟨gap, hdata, hstop, hcap⟩, hstart⟩ := h
  rw [List.length_append] at hsize
  have hpost : g.capacity - g.stop = post.length := by omega
  have htail : bytesAt g.data g.stop post.length = post := by
    rw [bytesAt, hdata, hstop, ← List.length_append, List.drop_left,
      List.take_length]
  have hhead : bytesAt g.data 0 g.start = pre := by
    rw [bytesAt, hdata, hstart, List.drop_zero, List.append_assoc,
      List.take_left]
  generalize hC : (if g.capacity * 2 < g.size + n + 128
    then g.size + n + 128 else g.capacity * 2) = C
  have hroom : g.size + n + 128 ≤ C := by
    rw [← hC]
    split <;> omega
  have hfit : pre.length + post.length + n ≤ C := by omega
  have hgrow : g.grow g.size n =
      { g with
        data := memcpy (memcpy (List.replicate C 0) 0 pre) (C - post.length) post
        stop := C - post.length
        capacity := C } := by
    simp only [TcGap.grow, hC, hpost, htail, hhead]
  rw [hgrow]
  refine ⟨⟨⟨List.replicate (C - post.length - pre.length) 0, ?_, ?_, ?_⟩, hstart⟩, ?_⟩
  · have hfirst : memcpy (List.replicate C (0 : UInt8)) 0 pre =
        pre ++ List.replicate (C - pre.length) 0 := by
      simp [memcpy]
    have hlen : (pre ++ List.replicate (C - pre.length) (0 : UInt8)).length = C := by
      simp only [List.length_append, List.length_replicate]
      omega
    have hback : C - post.length + post.length = C := by omega
    simp only [hfirst]
    rw [memcpy, hback, List.drop_of_length_le (by omega), List.append_nil,
      List.take_append, List.take_of_length_le (by omega), List.take_replicate,
      Nat.min_eq_left (by omega)]
  · simp only [List.length_replicate]
    omega
  · simp only [List.length_replicate]
    omega
  · simp only [hstart]
    omega

/-- Writing into a gap that is wide enough. -/
theorem Represents.write (h : Represents g pre post) {input : List UInt8}
    (hroom : input.length ≤ g.stop - g.start) (dirty : Bool) :
    Represents
      { g with
        data := memcpy g.data g.start input
        start := g.start + input.length
        dirty := dirty } (pre ++ input) post := by
  obtain ⟨⟨gap, hdata, hstop, hcap⟩, hstart⟩ := h
  refine ⟨⟨gap.drop input.length, ?_, ?_, ?_⟩, ?_⟩
  · simp only [memcpy, hdata, hstart]
    rw [List.append_assoc pre gap post, List.take_left, ← List.drop_drop,
      List.drop_left, List.drop_append_of_le_length (by omega)]
    simp only [List.append_assoc]
  · simp only [List.length_append, List.length_drop]
    omega
  · simp only [List.length_append, List.length_drop]
    omega
  · simp only [List.length_append]
    omega

/-- An insertion within the limit succeeds and puts the input before the
cursor; past the limit it changes nothing. -/
theorem Represents.insert (h : Represents g pre post) (input : List UInt8)
    (hlimit : (pre ++ post).length ≤ gapLimit) :
    if (pre ++ post).length + input.length ≤ gapLimit then
      Represents (g.insert input).1 (pre ++ input) post ∧ (g.insert input).2 = 0
    else g.insert input = (g, 8) := by
  have hsize := h.size_eq
  split
  · rename_i hfits
    have hroom : ¬ gapLimit - g.size < input.length := by omega
    have hgap : ∃ g', g' = (if g.stop - g.start < input.length
        then g.grow g.size input.length else g) ∧ Represents g' pre post ∧
        input.length ≤ g'.stop - g'.start := by
      refine ⟨_, rfl, ?_⟩
      split
      · exact h.grow input.length
      · exact ⟨h, by omega⟩
    obtain ⟨g', hg', hrep, hwide⟩ := hgap
    have hinsert : g.insert input =
        if input.length ≠ 0 then
          ({ g' with
              data := memcpy g'.data g'.start input
              start := g'.start + input.length
              dirty := true }, 0)
        else (g', 0) := by
      rw [TcGap.insert, if_neg hroom, ← hg']
    rw [hinsert]
    by_cases hempty : input.length ≠ 0
    · rw [if_pos hempty]
      exact ⟨hrep.write hwide true, rfl⟩
    · rw [if_neg hempty]
      have hnil : input = [] := List.eq_nil_of_length_eq_zero (by omega)
      exact ⟨by simpa [hnil] using hrep, rfl⟩
  · rename_i hfull
    have hfull' : gapLimit - g.size < input.length := by omega
    rw [TcGap.insert, if_pos hfull']

/-- Moving `start` down drops the end of the first part. -/
theorem Represents.shrinkLeft (h : Represents g pre post) {q : ℕ}
    (hq : q ≤ pre.length) (dirty : Bool) :
    Represents { g with start := q, dirty := dirty } (pre.take q) post := by
  obtain ⟨⟨gap, hdata, hstop, hcap⟩, hstart⟩ := h
  refine ⟨⟨pre.drop q ++ gap, ?_, ?_, ?_⟩, ?_⟩
  · simp only [hdata]
    conv_lhs => rw [← List.take_append_drop q pre]
    simp only [List.append_assoc]
  · simp only [List.length_take, List.length_append, List.length_drop]
    omega
  · simp only [List.length_take, List.length_append, List.length_drop]
    omega
  · simp only [List.length_take]
    omega

/-- Moving `stop` up drops the beginning of the second part. -/
theorem Represents.shrinkRight (h : Represents g pre post) {n : ℕ}
    (hn : n ≤ post.length) (dirty : Bool) :
    Represents { g with stop := g.stop + n, dirty := dirty } pre (post.drop n) := by
  obtain ⟨⟨gap, hdata, hstop, hcap⟩, hstart⟩ := h
  refine ⟨⟨gap ++ post.take n, ?_, ?_, ?_⟩, hstart⟩
  · simp only [hdata]
    conv_lhs => rw [← List.take_append_drop n post]
    simp only [List.append_assoc]
  · simp only [List.length_append, List.length_take]
    omega
  · simp only [List.length_append, List.length_take, List.length_drop]
    omega

end TinyCPlus.Runtime.TcGap
