import Mathlib

/-!
# Self-synchronising codes

Every symbol is written as a leading unit followed by continuation units.  The
boundaries between symbols are then the positions of leading units, and a text
can be walked unit by unit in both directions.
-/

namespace TinyCPlus.Library

variable {α β : Type*}

/-- An encoding of symbols by a leading unit and continuation units. -/
structure BlockCode (α β : Type*) where
  encode : α → List β
  cont : β → Bool
  lead : α → β
  tail : α → List β
  encode_eq : ∀ a, encode a = lead a :: tail a
  lead_not_cont : ∀ a, cont (lead a) = false
  tail_cont : ∀ a, ∀ b ∈ tail a, cont b = true

namespace BlockCode

variable (C : BlockCode α β)

/-- A text, symbol by symbol. -/
def text (s : List α) : List β := s.flatMap C.encode

/-- The position ahead of symbol `k`. -/
def offset (s : List α) (k : ℕ) : ℕ := (C.text (s.take k)).length

@[simp] theorem text_nil : C.text [] = [] := rfl

@[simp] theorem text_cons (a : α) (s : List α) : C.text (a :: s) = C.encode a ++ C.text s := rfl

@[simp] theorem text_append (s t : List α) : C.text (s ++ t) = C.text s ++ C.text t :=
  List.flatMap_append

theorem length_encode_pos (a : α) : 0 < (C.encode a).length := by
  rw [C.encode_eq]
  exact Nat.succ_pos _

@[simp] theorem offset_zero (s : List α) : C.offset s 0 = 0 := rfl

theorem offset_length (s : List α) : C.offset s s.length = (C.text s).length := by
  rw [offset, List.take_length]

theorem text_split (s : List α) (k : ℕ) : C.text s = C.text (s.take k) ++ C.text (s.drop k) := by
  rw [← text_append, List.take_append_drop]

theorem take_offset (s : List α) (k : ℕ) :
    (C.text s).take (C.offset s k) = C.text (s.take k) := by
  rw [C.text_split s k, offset, List.take_left]

theorem drop_offset (s : List α) (k : ℕ) :
    (C.text s).drop (C.offset s k) = C.text (s.drop k) := by
  conv_lhs => rw [C.text_split s k]
  rw [offset, List.drop_left]

theorem offset_le (s : List α) (k : ℕ) : C.offset s k ≤ (C.text s).length := by
  rw [C.text_split s k, List.length_append]
  exact Nat.le_add_right _ _

/-- The way from one boundary to a later one. -/
theorem offset_add (s : List α) (j k : ℕ) :
    C.offset s (j + k) = C.offset s j + C.offset (s.drop j) k := by
  simp only [offset, ← List.length_append, ← text_append, ← List.take_add]

theorem offset_mono (s : List α) {j k : ℕ} (h : j ≤ k) : C.offset s j ≤ C.offset s k := by
  obtain ⟨d, rfl⟩ := Nat.exists_eq_add_of_le h
  rw [offset_add]
  exact Nat.le_add_right _ _

theorem offset_succ (s : List α) {k : ℕ} (h : k < s.length) :
    C.offset s (k + 1) = C.offset s k + (C.encode s[k]).length := by
  rw [offset_add, List.drop_eq_getElem_cons h]
  simp only [offset, List.take_succ_cons, List.take_zero, text_cons, text_nil, List.append_nil]

theorem offset_lt (s : List α) {j k : ℕ} (hjk : j < k) (hj : j < s.length) :
    C.offset s j < C.offset s k := by
  have hstep := C.offset_succ s hj
  have hpos := C.length_encode_pos s[j]
  have hle := C.offset_mono s (show j + 1 ≤ k from hjk)
  omega

theorem offset_min (s : List α) (j k : ℕ) :
    C.offset s (min j k) = min (C.offset s j) (C.offset s k) := by
  rcases le_total j k with h | h
  · rw [min_eq_left h, min_eq_left (C.offset_mono s h)]
  · rw [min_eq_right h, min_eq_right (C.offset_mono s h)]

/-- A text starts with a leading unit. -/
theorem takeWhile_text (s : List α) : (C.text s).takeWhile C.cont = [] := by
  cases s with
  | nil => rfl
  | cons a s => rw [text_cons, C.encode_eq, List.cons_append,
      List.takeWhile_cons_of_neg (by simp [C.lead_not_cont])]

theorem takeWhile_tail (a : α) (s : List α) :
    (C.tail a ++ C.text s).takeWhile C.cont = C.tail a := by
  rw [List.takeWhile_append_of_pos (C.tail_cont a), takeWhile_text, List.append_nil]

/-- The units behind a leading unit, up to the next one. -/
theorem takeWhile_drop (s : List α) {k : ℕ} (h : k < s.length) :
    ((C.text s).drop (C.offset s k + 1)).takeWhile C.cont = C.tail s[k] := by
  rw [← List.drop_drop, drop_offset, List.drop_eq_getElem_cons h, text_cons, C.encode_eq,
    List.cons_append, List.drop_succ_cons, List.drop_zero, takeWhile_tail]

/-- The units ahead of a boundary, back to a leading unit, which may be the first
unit of the text. -/
theorem takeWhile_reverse (s : List α) (a : α) :
    ((C.text s ++ C.encode a).tail.reverse.takeWhile C.cont).length = (C.tail a).length := by
  have hrev : ∀ b ∈ (C.tail a).reverse, C.cont b = true := fun b hb ↦
    C.tail_cont a b (List.mem_reverse.mp hb)
  rw [C.encode_eq]
  cases hs : C.text s with
  | nil =>
      rw [List.nil_append, List.tail_cons, List.takeWhile_eq_self_iff.mpr (by simpa using hrev),
        List.length_reverse]
  | cons x rest =>
      have hsplit : (x :: rest ++ C.lead a :: C.tail a).tail.reverse =
          (C.tail a).reverse ++ C.lead a :: rest.reverse := by simp
      rw [hsplit, List.takeWhile_append_of_pos hrev,
        List.takeWhile_cons_of_neg (by simp [C.lead_not_cont]), List.append_nil,
        List.length_reverse]

/-- A unit of a text that continues nothing stands at a boundary. -/
theorem exists_offset (s : List α) {p : ℕ} {b : β} (h : (C.text s)[p]? = some b)
    (hb : C.cont b = false) : ∃ k < s.length, p = C.offset s k := by
  induction s generalizing p with
  | nil => simp at h
  | cons a s ih =>
      rw [text_cons] at h
      rcases Nat.lt_or_ge p (C.encode a).length with hp | hp
      · refine ⟨0, Nat.succ_pos _, ?_⟩
        rw [List.getElem?_append_left hp, C.encode_eq] at h
        cases p with
        | zero => rfl
        | succ p =>
            have hmem : b ∈ C.tail a := List.mem_of_getElem? h
            rw [C.tail_cont a b hmem] at hb
            cases hb
      · rw [List.getElem?_append_right hp] at h
        obtain ⟨k, hk, hpk⟩ := ih h
        refine ⟨k + 1, Nat.succ_lt_succ hk, ?_⟩
        simp only [offset, List.take_succ_cons, text_cons, List.length_append] at hpk ⊢
        omega

/-! ## A symbol that is one unit -/

/-- A symbol whose encoding is one unit that no other encoding contains. -/
structure IsUnit (a : α) (u : β) : Prop where
  encode : C.encode a = [u]
  only : ∀ b, u ∈ C.encode b → b = a

variable {C} {a : α} {u : β}

variable [DecidableEq α] [BEq β] [LawfulBEq β]

/-- The units up to a separator are the symbols up to it. -/
theorem IsUnit.takeWhile_text (h : C.IsUnit a u) (s : List α) :
    (C.text s).takeWhile (· != u) = C.text (s.takeWhile (· ≠ a)) := by
  induction s with
  | nil => rfl
  | cons b s ih =>
      by_cases hb : b = a
      · rw [List.takeWhile_cons_of_neg (by simpa using hb), text_cons, hb, h.encode]
        simp
      · have hnone : ∀ x ∈ C.encode b, (x != u) = true := fun x hx ↦ by
          refine bne_iff_ne.mpr fun hxu ↦ hb (h.only b (hxu ▸ hx))
        rw [List.takeWhile_cons_of_pos (by simpa using hb), text_cons, text_cons,
          List.takeWhile_append_of_pos hnone, ih]

theorem IsUnit.takeWhile_reverse (h : C.IsUnit a u) (s : List α) :
    ((C.text s).reverse.takeWhile (· != u)).length =
      (C.text (s.reverse.takeWhile (· ≠ a)).reverse).length := by
  induction s using List.reverseRecOn with
  | nil => rfl
  | append_singleton s b ih =>
      rw [text_append, List.reverse_append, List.reverse_append, List.reverse_singleton,
        List.singleton_append, text_cons, text_nil, List.append_nil]
      by_cases hb : b = a
      · rw [List.takeWhile_cons_of_neg (by simpa using hb), hb, h.encode]
        simp
      · have hnone : ∀ x ∈ (C.encode b).reverse, (x != u) = true := fun x hx ↦ by
          refine bne_iff_ne.mpr fun hxu ↦ hb (h.only b (hxu ▸ List.mem_reverse.mp hx))
        rw [List.takeWhile_cons_of_pos (by simpa using hb),
          List.takeWhile_append_of_pos hnone, List.length_append, ih, List.reverse_cons,
          text_append, List.length_append, List.length_reverse, text_cons, text_nil,
          List.append_nil, add_comm]

end BlockCode

end TinyCPlus.Library
