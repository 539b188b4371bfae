import Mathlib

/-!
# Tokenizers

A tokenizer reads one lexeme off the front of a text at a time.  A text that
is put together from lexemes is read back as these lexemes exactly when each
of them ends where it should, given the text behind it.
-/

namespace TinyCPlus.Library

structure Tokenizer (α β : Type*) where
  step : List α → Option β
  text : β → List α
  text_isPrefix : ∀ {s b}, step s = some b → text b <+: s
  text_ne_nil : ∀ {s b}, step s = some b → text b ≠ []

namespace Tokenizer

variable {α β : Type*} (T : Tokenizer α β)

/-- The text of a sequence of lexemes. -/
def render (bs : List β) : List α := bs.flatMap T.text

@[simp] theorem render_nil : T.render [] = [] := rfl

@[simp] theorem render_cons (b : β) (bs : List β) :
    T.render (b :: bs) = T.text b ++ T.render bs := rfl

@[simp] theorem render_append (xs ys : List β) :
    T.render (xs ++ ys) = T.render xs ++ T.render ys :=
  List.flatMap_append

/-- Reads at most `n` lexemes. -/
def scanFuel : ℕ → List α → Option (List β)
  | _, [] => some []
  | 0, _ :: _ => none
  | n + 1, a :: s => do
      let b ← T.step (a :: s)
      let bs ← scanFuel n ((a :: s).drop (T.text b).length)
      some (b :: bs)

/-- The lexemes of a text. -/
def scan (s : List α) : Option (List β) := T.scanFuel s.length s

@[simp] theorem scan_nil : T.scan [] = some [] := rfl

/-- Every lexeme takes at least one character, so more fuel changes nothing. -/
theorem scanFuel_eq_scan {n : ℕ} {s : List α} (hn : s.length ≤ n) :
    T.scanFuel n s = T.scan s := by
  induction n using Nat.strong_induction_on generalizing s with
  | _ n ih =>
      cases s with
      | nil => cases n <;> rfl
      | cons a s =>
          rw [List.length_cons] at hn
          obtain ⟨n, rfl⟩ : ∃ m, n = m + 1 := ⟨n - 1, by omega⟩
          rw [scan, List.length_cons, scanFuel, scanFuel]
          cases hstep : T.step (a :: s) with
          | none => rfl
          | some b =>
              have hpos : 0 < (T.text b).length :=
                List.length_pos_of_ne_nil (T.text_ne_nil hstep)
              have hdrop : ((a :: s).drop (T.text b).length).length ≤ s.length := by
                rw [List.length_drop, List.length_cons]
                omega
              have hleft := ih n (by omega) (hdrop.trans (by omega))
              have hright : T.scanFuel s.length ((a :: s).drop (T.text b).length) =
                  T.scan ((a :: s).drop (T.text b).length) := by
                rcases Nat.lt_or_ge s.length (n + 1) with hlt | hge
                · exact ih s.length hlt hdrop
                · omega
              simp only [Option.bind_eq_bind, Option.bind_some, hleft, hright]

theorem scan_of_step {s : List α} {b : β} (hstep : T.step s = some b) :
    T.scan s = (T.scan (s.drop (T.text b).length)).map (b :: ·) := by
  cases s with
  | nil =>
      have hpre := T.text_isPrefix hstep
      rw [List.prefix_nil] at hpre
      exact absurd hpre (T.text_ne_nil hstep)
  | cons a s =>
      have hpos : 0 < (T.text b).length := List.length_pos_of_ne_nil (T.text_ne_nil hstep)
      have hdrop : ((a :: s).drop (T.text b).length).length ≤ s.length := by
        rw [List.length_drop, List.length_cons]
        omega
      rw [scan, List.length_cons, scanFuel, hstep]
      simp only [Option.bind_eq_bind, Option.bind_some, T.scanFuel_eq_scan hdrop]
      cases T.scan ((a :: s).drop (T.text b).length) <;> rfl

theorem scan_of_step_none {s : List α} (hs : s ≠ []) (hstep : T.step s = none) :
    T.scan s = none := by
  cases s with
  | nil => exact absurd rfl hs
  | cons a s =>
      rw [scan, List.length_cons, scanFuel, hstep]
      rfl

/-- The lexeme is read off the front of its text followed by `s`. -/
def Ends (b : β) (s : List α) : Prop := T.step (T.text b ++ s) = some b

variable {T}

theorem Ends.scan {b : β} {s : List α} (h : T.Ends b s) :
    T.scan (T.text b ++ s) = (T.scan s).map (b :: ·) := by
  rw [T.scan_of_step h, List.drop_left]

/-- Every lexeme of the list ends where it should. -/
def AllEnd (T : Tokenizer α β) : List β → Prop
  | [] => True
  | b :: bs => T.Ends b (T.render bs) ∧ AllEnd T bs

theorem AllEnd.scan {bs : List β} (h : T.AllEnd bs) : T.scan (T.render bs) = some bs := by
  induction bs with
  | nil => rfl
  | cons b bs ih => rw [render_cons, h.1.scan, ih h.2, Option.map_some]

theorem allEnd_of_scan {s : List α} {bs : List β} (h : T.scan s = some bs) :
    s = T.render bs ∧ T.AllEnd bs := by
  induction bs generalizing s with
  | nil =>
      cases s with
      | nil => exact ⟨rfl, trivial⟩
      | cons a s =>
          exfalso
          cases hstep : T.step (a :: s) with
          | none => rw [T.scan_of_step_none (by simp) hstep] at h; cases h
          | some b =>
              rw [T.scan_of_step hstep, Option.map_eq_some_iff] at h
              obtain ⟨bs, -, hbs⟩ := h
              cases hbs
  | cons b bs ih =>
      cases hs : s with
      | nil => rw [hs] at h; cases h
      | cons a s' =>
          cases hstep : T.step s with
          | none => rw [T.scan_of_step_none (by simp [hs]) hstep] at h; cases h
          | some b' =>
              rw [T.scan_of_step hstep, Option.map_eq_some_iff] at h
              obtain ⟨bs', hscan, hcons⟩ := h
              injection hcons with hb hbs
              subst hb hbs
              obtain ⟨hrest, hend⟩ := ih hscan
              have hsplit : s = T.text b' ++ s.drop (T.text b').length := by
                conv_lhs => rw [← List.take_append_drop (T.text b').length s]
                rw [← List.prefix_iff_eq_take.mp (T.text_isPrefix hstep)]
              rw [← hs, render_cons, ← hrest]
              refine ⟨hsplit, ?_, hend⟩
              rw [Ends, ← hrest, ← hsplit]
              exact hstep

/-- Every lexeme of the list that is not in `p` ends where it should. -/
def EndsBut (T : Tokenizer α β) (p : β → Prop) : List β → Prop
  | [] => True
  | b :: bs => (p b ∨ T.Ends b (T.render bs)) ∧ EndsBut T p bs

/-- Lexemes that end whatever stands behind them can be left out. -/
theorem allEnd_append_iff {xs ys : List β} (hx : ∀ b ∈ xs, ∀ s, T.Ends b s) :
    T.AllEnd (xs ++ ys) ↔ T.AllEnd ys := by
  induction xs with
  | nil => rfl
  | cons x xs ih =>
      rw [List.cons_append, AllEnd, ih fun b hb ↦ hx b (List.mem_cons_of_mem _ hb)]
      exact and_iff_right (hx x List.mem_cons_self _)

theorem EndsBut.append {p : β → Prop} {xs ys : List β} (hx : ∀ b ∈ xs, ∀ s, T.Ends b s)
    (hy : T.EndsBut p ys) : T.EndsBut p (xs ++ ys) := by
  induction xs with
  | nil => exact hy
  | cons x xs ih =>
      exact ⟨Or.inr (hx x List.mem_cons_self _), ih fun b hb ↦ hx b (List.mem_cons_of_mem _ hb)⟩

/-- `P` holds of every lexeme of the list with the text behind it. -/
def AllAt (T : Tokenizer α β) (P : β → List α → Prop) : List β → Prop
  | [] => True
  | b :: bs => P b (T.render bs) ∧ AllAt T P bs

theorem AllAt.append {P : β → List α → Prop} {xs ys : List β} (hx : ∀ b ∈ xs, ∀ s, P b s)
    (hy : T.AllAt P ys) : T.AllAt P (xs ++ ys) := by
  induction xs with
  | nil => exact hy
  | cons x xs ih =>
      exact ⟨hx x List.mem_cons_self _, ih fun b hb ↦ hx b (List.mem_cons_of_mem _ hb)⟩

/-- It is enough to read back the lexemes that count, as seen through `g`, when
only lexemes that count can fail to end, what is read in the place of one
counts too, and `g` tells it from the others. -/
theorem allEnd_of_allAt {γ : Type*} (counts : β → Bool) (g : β → γ) {bs ps : List β}
    (hplace : T.AllAt (fun b s ↦ T.Ends b s ∨ (counts b = true ∧ T.text b ≠ [] ∧
      ∀ b', T.step (T.text b ++ s) = some b' → counts b' = true ∧ (g b' = g b → b' = b))) bs)
    (hscan : T.scan (T.render bs) = some ps)
    (hfilter : (ps.filter counts).map g = (bs.filter counts).map g) : T.AllEnd bs := by
  induction bs generalizing ps with
  | nil => trivial
  | cons b bs ih =>
      have hend : T.Ends b (T.render bs) := by
        rcases hplace.1 with hb | ⟨hcounts, hne, hread⟩
        · exact hb
        · cases hstep : T.step (T.text b ++ T.render bs) with
          | none =>
              rw [render_cons, T.scan_of_step_none (by simp [hne]) hstep] at hscan
              cases hscan
          | some b' =>
              obtain ⟨hcounts', hsame⟩ := hread _ hstep
              rw [render_cons, T.scan_of_step hstep, Option.map_eq_some_iff] at hscan
              obtain ⟨ps', -, rfl⟩ := hscan
              rw [List.filter_cons_of_pos hcounts', List.filter_cons_of_pos hcounts] at hfilter
              injection hfilter with heq _
              rw [Ends, hstep, hsame heq]
      refine ⟨hend, ?_⟩
      rw [render_cons, hend.scan, Option.map_eq_some_iff] at hscan
      obtain ⟨ps', hscan', rfl⟩ := hscan
      refine ih hplace.2 hscan' ?_
      by_cases hb : counts b = true
      · rw [List.filter_cons_of_pos hb, List.filter_cons_of_pos hb] at hfilter
        exact (List.cons.inj hfilter).2
      · rw [List.filter_cons_of_neg hb, List.filter_cons_of_neg hb] at hfilter
        exact hfilter

/-- What is read in the place of a lexeme may be looked at without the text behind it. -/
theorem allEnd_of_filter {γ : Type*} (counts : β → Bool) (g : β → γ) (p : β → Prop)
    {bs ps : List β} (hbut : T.EndsBut p bs)
    (hplace : ∀ b ∈ bs, p b → counts b = true ∧ T.text b ≠ [] ∧
      ∀ s b', T.step (T.text b ++ s) = some b' → counts b' = true ∧ (g b' = g b → b' = b))
    (hscan : T.scan (T.render bs) = some ps)
    (hfilter : (ps.filter counts).map g = (bs.filter counts).map g) : T.AllEnd bs := by
  refine allEnd_of_allAt counts g ?_ hscan hfilter
  clear hscan hfilter
  induction bs with
  | nil => trivial
  | cons b bs ih =>
      refine ⟨?_, ih hbut.2 fun c hc ↦ hplace c (List.mem_cons_of_mem _ hc)⟩
      rcases hbut.1 with hb | hb
      · obtain ⟨hcounts, hne, hread⟩ := hplace b List.mem_cons_self hb
        exact .inr ⟨hcounts, hne, hread _⟩
      · exact .inl hb

end Tokenizer

end TinyCPlus.Library
