import Mathlib.Data.List.Basic
import Mathlib.Tactic

/-!
# Command lines

A line is split into words at its blanks.  A quote starts or ends a part whose blanks do not split,
and a run of backslashes has a meaning of its own before a quote only: each pair is a backslash,
and one that is left over makes the quote a character of the word.
-/

namespace TinyCPlus.Library.CommandLine

/-- The characters with a meaning in a line. -/
structure Marks (α : Type*) where
  quote : α
  slash : α
  blank : α → Bool
  slash_ne_quote : slash ≠ quote
  blank_quote : blank quote = false
  blank_slash : blank slash = false

variable {α : Type*} [DecidableEq α] (m : Marks α)

/-! ## Splitting -/

/-- The words from here on: `slashes` backslashes were read just before, in the word that was
begun, if any. -/
def splitFrom : List α → ℕ → Bool → Option (List α) → List (List α)
  | [], slashes, _, word => (word.map (· ++ List.replicate slashes m.slash)).toList
  | c :: rest, slashes, quoted, word =>
      if c = m.slash then splitFrom rest (slashes + 1) quoted (some (word.getD []))
      else if c = m.quote then
        let word := word.getD [] ++ List.replicate (slashes / 2) m.slash
        if slashes % 2 = 0 then splitFrom rest 0 (!quoted) (some word)
        else splitFrom rest 0 quoted (some (word ++ [m.quote]))
      else
        let word := word.map (· ++ List.replicate slashes m.slash)
        if m.blank c ∧ ¬quoted then word.toList ++ splitFrom rest 0 false none
        else splitFrom rest 0 quoted (some (word.getD [] ++ [c]))

def split (line : List α) : List (List α) := splitFrom m line 0 false none

/-- What is left of a line after the name of the program, in which a backslash has no meaning. -/
def afterProgram : List α → Bool → List α
  | [], _ => []
  | c :: rest, quoted =>
      if c = m.quote then afterProgram rest (!quoted)
      else if m.blank c ∧ ¬quoted then rest
      else afterProgram rest quoted

/-! ## Quoting -/

/-- The rest of a quoted word, after `slashes` backslashes that are not written yet. -/
def quotedTail : List α → ℕ → List α
  | [], slashes => List.replicate (2 * slashes) m.slash ++ [m.quote]
  | c :: rest, slashes =>
      if c = m.slash then quotedTail rest (slashes + 1)
      else if c = m.quote then
        List.replicate (2 * slashes) m.slash ++ m.slash :: m.quote :: quotedTail rest 0
      else List.replicate slashes m.slash ++ c :: quotedTail rest 0

def quoted (word : List α) : List α := m.quote :: quotedTail m word 0

/-- The quoted words with one blank between them. -/
def joined (blank : α) (words : List (List α)) : List α :=
  [blank].intercalate (words.map (quoted m))

theorem joined_cons_cons (blank : α) (word next : List α) (words : List (List α)) :
    joined m blank (word :: next :: words) =
      quoted m word ++ blank :: joined m blank (next :: words) := by
  simp [joined, List.intercalate]

theorem quotedTail_length (word : List α) (slashes : ℕ) :
    (quotedTail m word slashes).length ≤ 2 * word.length + 2 * slashes + 1 := by
  induction word generalizing slashes with
  | nil => simp [quotedTail]
  | cons c rest ih =>
      have hnext := ih (slashes + 1)
      have hfresh := ih 0
      unfold quotedTail
      split_ifs
      · simp only [List.length_cons]
        omega
      · simp only [List.length_append, List.length_replicate, List.length_cons]
        omega
      · simp only [List.length_append, List.length_replicate, List.length_cons]
        omega

theorem quoted_length (word : List α) : (quoted m word).length ≤ 2 * word.length + 2 := by
  have := quotedTail_length m word 0
  simp only [quoted, List.length_cons]
  omega

/-! ## The round trip -/

theorem splitFrom_slash (rest : List α) (slashes : ℕ) (inside : Bool) (word : List α) :
    splitFrom m (m.slash :: rest) slashes inside (some word) =
      splitFrom m rest (slashes + 1) inside (some word) := by
  simp [splitFrom]

theorem splitFrom_slashes (k : ℕ) (rest : List α) (slashes : ℕ) (inside : Bool) (word : List α) :
    splitFrom m (List.replicate k m.slash ++ rest) slashes inside (some word) =
      splitFrom m rest (slashes + k) inside (some word) := by
  induction k generalizing slashes with
  | zero => rfl
  | succ k ih =>
      rw [List.replicate_succ, List.cons_append, splitFrom_slash, ih]
      congr 1
      omega

theorem splitFrom_even (rest : List α) (slashes : ℕ) (inside : Bool) (word : List α) :
    splitFrom m (m.quote :: rest) (2 * slashes) inside (some word) =
      splitFrom m rest 0 (!inside) (some (word ++ List.replicate slashes m.slash)) := by
  rw [splitFrom, if_neg m.slash_ne_quote.symm, if_pos rfl]
  simp

theorem splitFrom_odd (rest : List α) (slashes : ℕ) (inside : Bool) (word : List α) :
    splitFrom m (m.quote :: rest) (2 * slashes + 1) inside (some word) =
      splitFrom m rest 0 inside
        (some (word ++ List.replicate slashes m.slash ++ [m.quote])) := by
  have hhalf : (2 * slashes + 1) / 2 = slashes := by omega
  have hodd : (2 * slashes + 1) % 2 = 1 := by omega
  rw [splitFrom, if_neg m.slash_ne_quote.symm, if_pos rfl]
  simp [hhalf, hodd]

theorem splitFrom_inside (c : α) (hslash : c ≠ m.slash) (hquote : c ≠ m.quote) (rest : List α)
    (slashes : ℕ) (word : List α) :
    splitFrom m (c :: rest) slashes true (some word) =
      splitFrom m rest 0 true (some (word ++ List.replicate slashes m.slash ++ [c])) := by
  simp [splitFrom, hslash, hquote]

omit [DecidableEq α] in
theorem replicate_succ_append (c : α) (k : ℕ) (rest : List α) :
    List.replicate (k + 1) c ++ rest = List.replicate k c ++ c :: rest := by
  rw [List.replicate_succ']
  simp

/-- The invariant of the round trip: the backslashes that the writer still owes belong to the word
that the reader has begun. -/
theorem splitFrom_quotedTail (rest word done : List α) (slashes : ℕ) :
    splitFrom m (quotedTail m word slashes ++ rest) 0 true (some done) =
      splitFrom m rest 0 false (some (done ++ List.replicate slashes m.slash ++ word)) := by
  induction word generalizing done slashes with
  | nil =>
      rw [quotedTail, List.append_assoc, splitFrom_slashes, Nat.zero_add, List.singleton_append,
        splitFrom_even, List.append_nil]
      rfl
  | cons c word ih =>
      unfold quotedTail
      split_ifs with hslash hquote
      · subst hslash
        rw [ih, List.append_assoc, replicate_succ_append, List.append_assoc]
      · subst hquote
        rw [List.append_assoc, splitFrom_slashes, Nat.zero_add, List.cons_append,
          splitFrom_slash, List.cons_append, splitFrom_odd, ih]
        simp
      · rw [List.append_assoc, splitFrom_slashes, Nat.zero_add, List.cons_append,
          splitFrom_inside m c hslash hquote, ih]
        simp

theorem splitFrom_quoted (rest word : List α) :
    splitFrom m (quoted m word ++ rest) 0 false none = splitFrom m rest 0 false (some word) := by
  have hopen : splitFrom m (quoted m word ++ rest) 0 false none =
      splitFrom m (quotedTail m word 0 ++ rest) 0 true (some []) := by
    rw [quoted, List.cons_append, splitFrom, if_neg m.slash_ne_quote.symm, if_pos rfl]
    rfl
  rw [hopen, splitFrom_quotedTail]
  rfl

theorem splitFrom_blank (blank : α) (hblank : m.blank blank = true) (rest word : List α) :
    splitFrom m (blank :: rest) 0 false (some word) = word :: split m rest := by
  have hslash : blank ≠ m.slash := by
    rintro rfl
    simp [m.blank_slash] at hblank
  have hquote : blank ≠ m.quote := by
    rintro rfl
    simp [m.blank_quote] at hblank
  simp [splitFrom, hslash, hquote, hblank, split]

/-- Splitting gives back the words that were quoted and joined. -/
theorem split_joined (blank : α) (hblank : m.blank blank = true) :
    ∀ words : List (List α), split m (joined m blank words) = words
  | [] => rfl
  | [word] => by
      have hline : joined m blank [word] = quoted m word ++ [] := by
        simp [joined, List.intercalate]
      rw [hline, split, splitFrom_quoted]
      simp [splitFrom]
  | word :: next :: words => by
      rw [joined_cons_cons, split, splitFrom_quoted, splitFrom_blank m blank hblank,
        split_joined blank hblank (next :: words)]

/-! ## The name of the program -/

theorem afterProgram_quotedTail (rest word : List α) (slashes : ℕ) (hword : m.quote ∉ word) :
    afterProgram m (quotedTail m word slashes ++ rest) true = afterProgram m rest false := by
  have hslashes : ∀ (k : ℕ) (rest : List α),
      afterProgram m (List.replicate k m.slash ++ rest) true = afterProgram m rest true := by
    intro k rest
    induction k with
    | zero => rfl
    | succ k ih =>
        rw [List.replicate_succ, List.cons_append, afterProgram, if_neg m.slash_ne_quote]
        simpa using ih
  induction word generalizing slashes with
  | nil =>
      rw [quotedTail, List.append_assoc, hslashes, List.singleton_append, afterProgram,
        if_pos rfl]
      rfl
  | cons c word ih =>
      have hquote : c ≠ m.quote := fun h ↦ hword (h ▸ List.mem_cons_self)
      have hrest : m.quote ∉ word := fun h ↦ hword (List.mem_cons_of_mem c h)
      unfold quotedTail
      split_ifs with hslash
      · exact ih (slashes + 1) hrest
      · rw [List.append_assoc, hslashes, List.cons_append, afterProgram, if_neg hquote]
        simpa using ih 0 hrest

/-- A name without quotes is passed over whole, also where its backslashes have no meaning. -/
theorem split_afterProgram_joined (blank : α) (hblank : m.blank blank = true) (program : List α)
    (hprogram : m.quote ∉ program) (words : List (List α)) :
    split m (afterProgram m (joined m blank (program :: words)) false) = words := by
  have hopen : ∀ rest, afterProgram m (quoted m program ++ rest) false =
      afterProgram m rest false := by
    intro rest
    rw [quoted, List.cons_append, afterProgram, if_pos rfl]
    exact afterProgram_quotedTail m rest program 0 hprogram
  have hquote : blank ≠ m.quote := by
    rintro rfl
    simp [m.blank_quote] at hblank
  cases words with
  | nil =>
      have hline : joined m blank [program] = quoted m program ++ [] := by
        simp [joined, List.intercalate]
      rw [hline, hopen]
      rfl
  | cons next words =>
      rw [joined_cons_cons, hopen, afterProgram, if_neg hquote, if_pos (by simp [hblank]),
        split_joined m blank hblank]

end TinyCPlus.Library.CommandLine
