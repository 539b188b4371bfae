import Mathlib

/-!
# Linear probing

The probe sequence of a table with `cap` slots visits `(home + d) % cap` for
`d = 0, 1, …`.  It passes every slot once, and a loop along it ends at the
first slot that stops it.
-/

namespace TinyCPlus.Library

/-- The slot visited after `d` steps from `home`. -/
def probe (cap home d : ℕ) : ℕ := (home + d) % cap

theorem probe_lt {cap : ℕ} (hcap : 0 < cap) (home d : ℕ) : probe cap home d < cap :=
  Nat.mod_lt _ hcap

theorem probe_succ (cap home d : ℕ) :
    (probe cap home d + 1) % cap = probe cap home (d + 1) := by
  rw [probe, probe, Nat.mod_add_mod, Nat.add_assoc]

theorem exists_probe {cap : ℕ} (home : ℕ) {i : ℕ} (hi : i < cap) :
    ∃ d < cap, probe cap home d = i := by
  have hcap : 0 < cap := by omega
  refine ⟨(i + (cap - home % cap)) % cap, Nat.mod_lt _ hcap, ?_⟩
  have hhome : home % cap < cap := Nat.mod_lt _ hcap
  calc
    (home + (i + (cap - home % cap)) % cap) % cap
        = (home % cap + (i + (cap - home % cap))) % cap := by
          rw [Nat.add_mod_mod, ← Nat.mod_add_mod]
    _ = (i + cap) % cap := by
          congr 1
          omega
    _ = i := by rw [Nat.add_mod_right, Nat.mod_eq_of_lt hi]

theorem probe_injective {cap home d e : ℕ} (hd : d < cap) (he : e < cap)
    (h : probe cap home d = probe cap home e) : d = e := by
  have hmod : d ≡ e [MOD cap] := Nat.ModEq.add_left_cancel' home h
  rw [Nat.ModEq, Nat.mod_eq_of_lt hd, Nat.mod_eq_of_lt he] at hmod
  exact hmod

/-- `while (!stop(i)) i = next(i);` for at most `n` turns. -/
def probeLoop (next : ℕ → ℕ) (stop : ℕ → Bool) : ℕ → ℕ → Option ℕ
  | 0, _ => none
  | n + 1, i => if stop i then some i else probeLoop next stop n (next i)

/-- The loop started at distance `d` ends at the first stopping slot at or
after it. -/
theorem probeLoop_eq_some {cap home : ℕ} (next : ℕ → ℕ) (stop : ℕ → Bool)
    (hnext : ∀ d, next (probe cap home d) = probe cap home (d + 1))
    {n d last : ℕ} (hd : d ≤ last) (hn : last < d + n)
    (hstop : stop (probe cap home last) = true)
    (hpass : ∀ e, d ≤ e → e < last → stop (probe cap home e) = false) :
    probeLoop next stop n (probe cap home d) = some (probe cap home last) := by
  induction n generalizing d with
  | zero => omega
  | succ n ih =>
      rw [probeLoop]
      rcases Nat.eq_or_lt_of_le hd with rfl | hlt
      · rw [if_pos hstop]
      · rw [hpass d (le_refl d) hlt, hnext]
        simp only [Bool.false_eq_true, if_false]
        exact ih hlt (by omega) fun e he hel ↦ hpass e (by omega) hel

/-- A loop that meets no stopping slot uses up its turns. -/
theorem probeLoop_eq_none {cap home : ℕ} (next : ℕ → ℕ) (stop : ℕ → Bool)
    (hnext : ∀ d, next (probe cap home d) = probe cap home (d + 1))
    {n d : ℕ} (hpass : ∀ e, d ≤ e → e < d + n → stop (probe cap home e) = false) :
    probeLoop next stop n (probe cap home d) = none := by
  induction n generalizing d with
  | zero => rfl
  | succ n ih =>
      rw [probeLoop, hpass d (le_refl d) (by omega), hnext]
      simp only [Bool.false_eq_true, if_false]
      exact ih fun e he hen ↦ hpass e (by omega) (by omega)

/-- A loop that ends has stopped, at a slot with every property its steps keep. -/
theorem probeLoop_ends {next : ℕ → ℕ} {stop : ℕ → Bool} {P : ℕ → Prop}
    (hnext : ∀ i, P i → P (next i)) {n i j : ℕ} (hi : P i)
    (hloop : probeLoop next stop n i = some j) : P j ∧ stop j = true := by
  induction n generalizing i with
  | zero => simp [probeLoop] at hloop
  | succ n ih =>
      rw [probeLoop] at hloop
      by_cases hstop : stop i = true
      · rw [if_pos hstop] at hloop
        obtain rfl := Option.some.inj hloop
        exact ⟨hi, hstop⟩
      · rw [if_neg hstop] at hloop
        exact ih (hnext i hi) hloop

/-- If some slot stops the loop, there is a first one along the sequence. -/
theorem exists_first_stop {cap : ℕ} (home : ℕ) (stop : ℕ → Bool) {i : ℕ}
    (hi : i < cap) (hstop : stop i = true) :
    ∃ last < cap, stop (probe cap home last) = true ∧
      ∀ e < last, stop (probe cap home e) = false := by
  obtain ⟨d, hd, hdi⟩ := exists_probe home hi
  have hex : ∃ d, stop (probe cap home d) = true := ⟨d, hdi ▸ hstop⟩
  refine ⟨Nat.find hex, ?_, Nat.find_spec hex, ?_⟩
  · exact (Nat.find_min' hex (hdi ▸ hstop)).trans_lt hd
  · intro e he
    simpa using Nat.find_min hex he

/-! ## The occupied slots of a table -/

variable {α β : Type*}

/-- Filling one free slot adds its content. -/
theorem perm_filterMap_fill {n i : ℕ} {f g : ℕ → Option α} {a : α} (hi : i < n)
    (hf : f i = none) (hg : g i = some a) (hother : ∀ j ≠ i, g j = f j) :
    ((List.range n).filterMap g).Perm (a :: (List.range n).filterMap f) := by
  have hsplit : List.range n = List.range i ++ i :: List.range' (i + 1) (n - i - 1) := by
    have hn : n = i + (n - i - 1 + 1) := by omega
    rw [← List.range'_succ, List.range_eq_range', List.range_eq_range']
    conv_lhs => rw [hn, ← List.range'_append_1, Nat.zero_add]
  have hlow : (List.range i).filterMap g = (List.range i).filterMap f := by
    apply List.filterMap_congr
    intro j hj
    rw [List.mem_range] at hj
    exact hother j (by omega)
  have hhigh : (List.range' (i + 1) (n - i - 1)).filterMap g =
      (List.range' (i + 1) (n - i - 1)).filterMap f := by
    apply List.filterMap_congr
    intro j hj
    rw [List.mem_range'_1] at hj
    exact hother j (by omega)
  rw [hsplit, List.filterMap_append, List.filterMap_append,
    List.filterMap_cons_some hg, List.filterMap_cons_none hf, hlow, hhigh]
  exact List.perm_middle

end TinyCPlus.Library
