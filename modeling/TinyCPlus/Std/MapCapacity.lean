import TinyCPlus.Std.MapRefinement

/-!
# The capacity of a map under churn

Growth is triggered by live entries and tombstones together, and sized by the
live entries alone.  What a run needs for a bound on the capacity is that the
counters count the slots; neither the hash function nor the allocator matters.
-/

set_option linter.unusedSectionVars false

namespace TinyCPlus.Std

open TinyCPlus.Library

namespace Map

variable {K V : Type} [Inhabited K] [Inhabited V] [BEq K]
variable {hash : K → UInt64} {heap : Heap} {m : Map K V}

/-! ## The counters -/

/-- The capacities a map can have. -/
def Sized (capacity : ℕ) : Prop := capacity = 0 ∨ ∃ k ≤ 63, capacity = 2 ^ k

theorem Sized.le {capacity : ℕ} (h : Sized capacity) : capacity ≤ 2 ^ 63 := by
  rcases h with rfl | ⟨k, hk, rfl⟩
  · exact Nat.zero_le _
  · exact Nat.pow_le_pow_right (by norm_num) hk

/-- The counters count the live and the removed slots. -/
structure Counted (m : Map K V) : Prop where
  sized : Sized m.capacity
  states : m.stateData.length = m.capacity
  length_eq : m.length = m.stateData.countP (· == 1)
  tombstones_eq : m.tombstones = m.stateData.countP (· == 2)

theorem counted_create : Counted (create : Map K V) := ⟨Or.inl rfl, rfl, rfl, rfl⟩

/-- What writing one slot does to the number of slots in some states. -/
theorem countP_set_state (m : Map K V) {index : ℕ} (hindex : index < m.stateData.length)
    (state : UInt8) (p : UInt8 → Bool) :
    (m.stateData.set index state).countP p + (if p (m.state index) then 1 else 0) =
      m.stateData.countP p + (if p state then 1 else 0) := by
  have hold : m.state index = m.stateData[index] := by
    rw [Map.state, List.getD_eq_getElem _ _ hindex]
  have hpos : (if p m.stateData[index] then 1 else 0) ≤ m.stateData.countP p := by
    split
    · rename_i hp
      exact List.countP_pos_iff.mpr ⟨_, List.getElem_mem hindex, hp⟩
    · exact Nat.zero_le _
  rw [List.countP_set hindex, hold]
  omega

/-- A search that ends below the capacity has found a live slot. -/
theorem state_of_find {key : K}
    (hfound : m.find hash key < m.capacity) : m.state (m.find hash key) = 1 := by
  rw [find] at hfound ⊢
  by_cases hlen : m.length = 0
  · rw [if_pos hlen] at hfound
    exact absurd hfound (lt_irrefl _)
  · rw [if_neg hlen] at hfound ⊢
    rw [TableInv.findLoop_eq_probeLoop] at hfound ⊢
    cases hloop : probeLoop (fun i ↦ u64 (i + 1) &&& u64Pred m.capacity)
        (TableInv.findStop m key) m.capacity ((hash key).toNat &&& u64Pred m.capacity) with
    | none =>
        simp only [hloop, lt_irrefl] at hfound
    | some j =>
        obtain ⟨-, hstop⟩ := probeLoop_ends (P := fun _ ↦ True) (fun _ _ ↦ trivial)
          trivial hloop
        simp only [hloop] at hfound ⊢
        by_cases hempty : m.state j = 0
        · simp [hempty] at hfound
        · simp only [TableInv.findStop, Bool.or_eq_true, Bool.and_eq_true,
            beq_iff_eq] at hstop
          simpa [hempty] using (hstop.resolve_left hempty).1

namespace Counted

theorem length_le (h : Counted m) : m.length ≤ m.capacity := by
  rw [h.length_eq, ← h.states]
  exact List.countP_le_length

theorem tombstones_le (h : Counted m) : m.tombstones ≤ m.capacity := by
  rw [h.tombstones_eq, ← h.states]
  exact List.countP_le_length

/-- A masked index is a slot of the table. -/
theorem masked_lt (h : Counted m) (hpos : 0 < m.capacity) (x : ℕ) :
    x &&& u64Pred m.capacity < m.capacity := by
  have hle := h.sized.le
  have hmask : x &&& u64Pred m.capacity ≤ u64Pred m.capacity := Nat.and_le_right
  rw [u64Pred_of_pos hpos (by omega)] at hmask ⊢
  omega

/-! ## What each operation does to the counters -/

/-- An insertion fills a slot that is not live. -/
theorem insert (h : Counted m) {key : K} {value : V} {m' : Map K V}
    (hinsert : m.insert hash key value = .ok m') :
    Counted m' ∧ m'.capacity = m.capacity ∧ m'.length = m.length + 1 ∧
      m'.tombstones ≤ m.tombstones := by
  rw [Map.insert] at hinsert
  split at hinsert
  · cases hinsert
  · rename_i index hloop
    have hpos : 0 < m.capacity := by
      rw [Nat.pos_iff_ne_zero]
      intro hzero
      rw [hzero, insertLoop] at hloop
      cases hloop
    obtain ⟨hindex, hstop⟩ := probeLoop_ends (P := fun i ↦ i < m.capacity)
      (fun i _ ↦ h.masked_lt hpos _) (h.masked_lt hpos _) hloop
    have hfree : m.state index ≠ 1 := by simpa using hstop
    have hslot : index < m.stateData.length := by rwa [h.states]
    have hlive := m.countP_set_state hslot 1 (· == 1)
    have hremoved := m.countP_set_state hslot 1 (· == 2)
    have hbound : (m.stateData.set index 1).countP (· == 1) ≤ m.capacity := by
      rw [← h.states, ← List.length_set (i := index) (a := (1 : UInt8))]
      exact List.countP_le_length
    have hle := h.sized.le
    have hlength := h.length_eq
    have htombs := h.tombstones_eq
    rw [if_neg (by simpa using hfree), if_pos (beq_self_eq_true _)] at hlive
    rw [if_neg (c := ((1 : UInt8) == 2) = true) (by decide)] at hremoved
    have hnext : u64 (m.length + 1) = m.length + 1 := u64_of_lt (by omega)
    have hcount : (if m.state index == 2 then u64Pred m.tombstones else m.tombstones) =
        (m.stateData.set index 1).countP (· == 2) := by
      by_cases hstate : (m.state index == 2) = true
      · rw [if_pos hstate] at hremoved ⊢
        have htombs_le := h.tombstones_le
        rw [u64Pred_of_pos (by omega) (by omega)]
        omega
      · rw [if_neg hstate] at hremoved ⊢
        omega
    cases hinsert
    refine ⟨⟨h.sized, ?_, ?_, hcount⟩, rfl, hnext, ?_⟩
    · rw [List.length_set]
      exact h.states
    · dsimp only
      omega
    · dsimp only
      omega

theorem remove (hash : K → UInt64) (h : Counted m) (key : K) :
    Counted (m.remove hash key).1 ∧
      (m.remove hash key).1.capacity = m.capacity := by
  rw [Map.remove]
  split
  · exact ⟨h, rfl⟩
  · rename_i hfound
    have hlive := state_of_find (by omega : m.find hash key < m.capacity)
    generalize m.find hash key = index at *
    have hslot : index < m.stateData.length := by
      rw [h.states]
      omega
    have hdead := m.countP_set_state hslot 2 (· == 1)
    have hremoved := m.countP_set_state hslot 2 (· == 2)
    rw [hlive] at hdead hremoved
    rw [if_pos (by decide), if_neg (by decide)] at hdead
    rw [if_neg (by decide), if_pos (by decide)] at hremoved
    have hle := h.sized.le
    have hlength := h.length_eq
    have hlength_le := h.length_le
    have htombs := h.tombstones_eq
    have htombs_le := h.tombstones_le
    refine ⟨⟨h.sized, ?_, ?_, ?_⟩, rfl⟩
    · rw [List.length_set]
      exact h.states
    · dsimp only
      rw [u64Pred_of_pos (by omega) (by omega)]
      omega
    · dsimp only
      rw [u64_of_lt (by omega)]
      omega

end Counted

theorem stateData_clear (m : Map K V) (hstates : m.stateData.length = m.capacity) :
    m.clear.stateData = List.replicate m.capacity 0 := by
  change (List.range m.capacity).foldl _ m.stateData = List.replicate m.capacity 0
  rw [foldl_set_eq _ _ hstates.ge, List.drop_of_length_le hstates.le, List.append_nil]

/-- A table without used slots counts none. -/
theorem counted_of_zeroed (hsized : Sized m.capacity)
    (hstates : m.stateData = List.replicate m.capacity 0) (hlength : m.length = 0)
    (htombs : m.tombstones = 0) : Counted m := by
  refine ⟨hsized, by rw [hstates, List.length_replicate], ?_, ?_⟩
  · rw [hlength, hstates, List.countP_replicate]
    rfl
  · rw [htombs, hstates, List.countP_replicate]
    rfl

namespace Counted

theorem clear (h : Counted m) : Counted m.clear :=
  counted_of_zeroed h.sized (m.stateData_clear h.states) rfl rfl

/-- The entries a rehash moves are the live slots. -/
theorem length_eq_live (h : Counted m) :
    m.length = ((List.range m.capacity).filter fun i ↦ m.state i == 1).length := by
  have hstates : m.stateData = (List.range m.capacity).map m.state := by
    apply List.ext_getElem
    · rw [List.length_map, List.length_range, h.states]
    · intro i hi _
      rw [List.getElem_map, List.getElem_range, state, List.getD_eq_getElem _ _ hi]
  rw [h.length_eq, hstates, List.countP_map, List.countP_eq_length_filter]
  rfl

theorem rehash (h : Counted m) {next : ℕ} (hnext : Sized next) {m' : Map K V}
    (hrehash : m.rehash hash heap next = .ok m') :
    Counted m' ∧ m'.capacity = next ∧ m'.length = m.length ∧ m'.tombstones = 0 := by
  rw [Map.rehash] at hrehash
  split at hrehash
  · -- The table after the slots of `l` have been moved.
    have hloop : ∀ (l : List ℕ) (table : Map K V), Counted table →
        table.capacity = next → table.tombstones = 0 →
        l.foldlM (m := Except Failure) (fun table i ↦
          if m.state i == 1 then table.insert hash (m.key i) (m.value i)
          else .ok table) table = .ok m' →
        Counted m' ∧ m'.capacity = next ∧
          m'.length = table.length + (l.filter fun i ↦ m.state i == 1).length ∧
          m'.tombstones = 0 := by
      intro l
      induction l with
      | nil =>
          intro table htable hcap htombs hfold
          obtain rfl : table = m' := Except.ok.inj hfold
          exact ⟨htable, hcap, rfl, htombs⟩
      | cons i l ih =>
          intro table htable hcap htombs hfold
          rw [List.foldlM_cons] at hfold
          by_cases hlive : (m.state i == 1) = true
          · rw [if_pos hlive] at hfold
            cases hinsert : table.insert hash (m.key i) (m.value i) with
            | error e =>
                rw [hinsert] at hfold
                cases hfold
            | ok table' =>
                rw [hinsert] at hfold
                obtain ⟨htable', hcap', hlength', htombs'⟩ := htable.insert hinsert
                obtain ⟨hm', hcap'', hlength'', htombs''⟩ :=
                  ih table' htable' (hcap'.trans hcap) (by omega) hfold
                refine ⟨hm', hcap'', ?_, htombs''⟩
                rw [List.filter_cons_of_pos (p := fun i ↦ m.state i == 1) hlive, List.length_cons]
                omega
          · rw [if_neg hlive] at hfold
            rw [List.filter_cons_of_neg (p := fun i ↦ m.state i == 1) hlive]
            exact ih table htable hcap htombs hfold
    obtain ⟨hm', hcap, hlength, htombs⟩ := hloop _ _
      (counted_of_zeroed hnext rfl rfl rfl) rfl rfl hrehash
    refine ⟨hm', hcap, ?_, htombs⟩
    rw [hlength, h.length_eq_live]
    exact Nat.zero_add _
  · cases hrehash

end Counted

/-! ## Growing -/

/-- The doubling loop ends where it starts, or below twice what is wanted. -/
theorem growLoop_ends {wanted : ℕ} {fuel k next : ℕ} (hk : k ≤ 63)
    (hgrow : growLoop wanted fuel (2 ^ k) = .ok next) :
    Sized next ∧ (next = 2 ^ k ∨ next < wanted * 2) := by
  induction fuel generalizing k with
  | zero => cases hgrow
  | succ fuel ih =>
      rw [growLoop] at hgrow
      split at hgrow
      · rename_i hlt
        split at hgrow
        · rename_i hmax
          have hk62 : k ≤ 62 := by
            by_contra hge
            have hpow : 2 ^ 63 ≤ 2 ^ k := Nat.pow_le_pow_right (by norm_num) (by omega)
            omega
          have hdouble : u64 (2 ^ k * 2) = 2 ^ (k + 1) := by
            rw [pow_succ]
            exact u64_of_lt (by omega)
          rw [hdouble] at hgrow
          obtain ⟨hsized, hnext⟩ := ih (by omega) hgrow
          refine ⟨hsized, Or.inr ?_⟩
          rcases hnext with rfl | hnext
          · rw [pow_succ]
            omega
          · exact hnext
        · cases hgrow
      · obtain rfl := Except.ok.inj hgrow
        exact ⟨Or.inr ⟨k, hk, rfl⟩, Or.inl rfl⟩

/-- Whether `put` of a key that is absent rehashes. -/
def crowded (m : Map K V) : Prop :=
  u64 (m.capacity * 3) < u64 (u64 (u64 (m.length + m.tombstones) + 1) * 4)

/-- Growing leaves the entries, and gives a capacity the old one or the
entries account for; a table that was crowded has no tombstones left. -/
theorem Counted.grow (h : Counted m) {m' : Map K V} (hgrow : m.grow hash heap = .ok m') :
    Counted m' ∧ m'.length = m.length ∧
      m'.capacity ≤ max (max 16 m.capacity) (4 * (m.length + 1)) ∧
      (m.crowded → m'.tombstones = 0) := by
  rw [Map.grow] at hgrow
  split at hgrow
  · obtain ⟨k, hk, hstart, hle⟩ : ∃ k ≤ 63,
        (if m.capacity < 16 then 16 else m.capacity) = 2 ^ k ∧ 2 ^ k ≤ max 16 m.capacity := by
      split
      · exact ⟨4, by norm_num, by norm_num, le_max_left _ _⟩
      · rename_i hcap
        rcases h.sized with hzero | ⟨k, hk, hpow⟩
        · omega
        · exact ⟨k, hk, hpow, hpow ▸ le_max_right _ _⟩
    dsimp only at hgrow
    rw [hstart] at hgrow
    cases hloop : growLoop (u64 (u64 (m.length + 1) * 2)) 65 (2 ^ k) with
    | error e =>
        rw [hloop] at hgrow
        cases hgrow
    | ok next =>
        rw [hloop] at hgrow
        obtain ⟨hsized, hnext⟩ := growLoop_ends hk hloop
        obtain ⟨hm', hcap, hlength, htombs⟩ := h.rehash hsized hgrow
        refine ⟨hm', hlength, ?_, fun _ ↦ htombs⟩
        have hwanted : u64 (u64 (m.length + 1) * 2) ≤ (m.length + 1) * 2 :=
          (Nat.mod_le _ _).trans (Nat.mul_le_mul_right 2 (Nat.mod_le _ _))
        rw [hcap]
        rcases hnext with rfl | hnext
        · exact hle.trans (le_max_left _ _)
        · apply le_max_of_le_right
          omega
  · rename_i hroom
    obtain rfl := Except.ok.inj hgrow
    refine ⟨h, rfl, ?_, fun hcrowded ↦ absurd hcrowded hroom⟩
    exact (le_max_right _ _).trans (le_max_left _ _)

/-- Whether `put` of a key rehashes. -/
def rehashes (hash : K → UInt64) (m : Map K V) (key : K) : Prop :=
  m.capacity ≤ m.find hash key ∧ m.crowded

theorem Counted.put (h : Counted m) {key : K} {value : V} {m' : Map K V} {added : Bool}
    (hput : m.put hash heap key value = .ok (m', added)) :
    Counted m' ∧ m'.capacity ≤ max (max 16 m.capacity) (4 * m'.length) ∧
      (m.rehashes hash key → m'.tombstones = 0) := by
  rw [Map.put] at hput
  split at hput
  · rename_i hfound
    cases hput
    refine ⟨⟨h.sized, h.states, h.length_eq, h.tombstones_eq⟩, ?_, ?_⟩
    · exact (le_max_right _ _).trans (le_max_left _ _)
    · rintro ⟨habsent, -⟩
      omega
  · cases hgrow : m.grow hash heap with
    | error e =>
        rw [hgrow] at hput
        cases hput
    | ok grown =>
        obtain ⟨hgrown, hlength, hcap, htombs⟩ := h.grow hgrow
        rw [hgrow] at hput
        cases hinsert : grown.insert hash key value with
        | error e =>
            simp only [bind, Except.bind, hinsert] at hput
            cases hput
        | ok table =>
            simp only [bind, Except.bind, hinsert] at hput
            cases hput
            obtain ⟨htable, hcap', hlength', htombs'⟩ := hgrown.insert hinsert
            refine ⟨htable, ?_, ?_⟩
            · rw [hcap', hlength', hlength]
              exact hcap
            · rintro ⟨-, hcrowded⟩
              have hzero := htombs hcrowded
              omega

/-! ## Runs -/

/-- What one call of a method does to the counters and the capacity. -/
theorem Counted.apply (h : Counted m) {op : MapOp K V} {m' : Map K V}
    {answer : MapAnswer K V} (happly : m.apply hash heap op = .ok (m', answer)) :
    Counted m' ∧ m'.capacity ≤ max (max 16 m.capacity) (4 * m'.length) := by
  cases op with
  | put key value =>
      rw [Map.apply] at happly
      cases hput : m.put hash heap key value with
      | error e =>
          rw [hput] at happly
          cases happly
      | ok r =>
          rw [hput] at happly
          cases happly
          obtain ⟨hm', hcap, -⟩ := h.put hput
          exact ⟨hm', hcap⟩
  | remove key =>
      cases happly
      obtain ⟨hm', hcap⟩ := Counted.remove hash h key
      exact ⟨hm', hcap.trans_le ((le_max_right _ _).trans (le_max_left _ _))⟩
  | clear =>
      cases happly
      exact ⟨h.clear, (le_max_right 16 m.capacity).trans (le_max_left _ _)⟩
  | get _ | getOr _ _ | contains _ | keys _ | values _ =>
      cases happly
      exact ⟨h, (le_max_right _ _).trans (le_max_left _ _)⟩

/-- The maps a run passes through, up to the call that ends the program. -/
def passes (hash : K → UInt64) (heap : Heap) (m : Map K V) :
    List (MapOp K V) → List (Map K V)
  | [] => [m]
  | op :: rest =>
      m :: match m.apply hash heap op with
        | .ok (next, _) => passes hash heap next rest
        | .error _ => []

/-- The bound is kept from every map whose length it allows. -/
theorem Counted.passes (h : Counted m) {n : ℕ} (hbound : m.capacity ≤ max 16 (4 * n))
    (ops : List (MapOp K V)) (hn : ∀ s ∈ m.passes hash heap ops, s.length ≤ n) :
    ∀ s ∈ m.passes hash heap ops, Counted s ∧ s.capacity ≤ max 16 (4 * n) := by
  induction ops generalizing m with
  | nil =>
      intro s hs
      obtain rfl := List.mem_singleton.mp hs
      exact ⟨h, hbound⟩
  | cons op ops ih =>
      intro s hs
      rw [Map.passes] at hs hn
      rcases List.mem_cons.mp hs with rfl | hs
      · exact ⟨h, hbound⟩
      · cases happly : m.apply hash heap op with
        | error e =>
            rw [happly] at hs
            exact absurd hs List.not_mem_nil
        | ok r =>
            rw [happly] at hs hn
            obtain ⟨hnext, hcap⟩ := h.apply happly
            have hlength : r.1.length ≤ n := by
              apply hn
              cases ops <;> exact List.mem_cons_of_mem _ List.mem_cons_self
            have hcap' : r.1.capacity ≤ max 16 (4 * n) := by omega
            exact ih hnext hcap' (fun t ht ↦ hn t (List.mem_cons_of_mem _ ht)) s hs

/-- In a run from a new map whose length stays within `n`, the capacity stays
0 or a power of two within `max 16 (4 * n)`, and a `put` that rehashes leaves
no tombstone. -/
theorem capacity_bounded (hash : K → UInt64) (heap : Heap) (n : ℕ)
    (ops : List (MapOp K V))
    (hn : ∀ m ∈ (create : Map K V).passes hash heap ops, m.length ≤ n) :
    ∀ m ∈ (create : Map K V).passes hash heap ops,
      (m.capacity = 0 ∨ ∃ k, m.capacity = 2 ^ k) ∧ m.capacity ≤ max 16 (4 * n) ∧
        ∀ key value m' added, m.rehashes hash key →
          m.put hash heap key value = .ok (m', added) → m'.tombstones = 0 := by
  intro m hm
  obtain ⟨hcounted, hbound⟩ :=
    counted_create.passes (Nat.zero_le _) ops hn m hm
  refine ⟨?_, hbound, ?_⟩
  · rcases hcounted.sized with hzero | ⟨k, -, hpow⟩
    · exact Or.inl hzero
    · exact Or.inr ⟨k, hpow⟩
  · intro key value m' added hrehashes hput
    obtain ⟨-, -, htombs⟩ := hcounted.put hput
    exact htombs hrehashes

/-- Twenty keys put and removed one after the other never outgrow 16 slots. -/
theorem capacity_bounded_churn :
    let heap : Heap := ⟨8, 8, fun n _ ↦ n < 1000⟩
    let ops : List (MapOp ℕ ℕ) := (List.range 20).flatMap fun i ↦ [.put i i, .remove i]
    ∀ m ∈ (create : Map ℕ ℕ).passes UInt64.ofNat heap ops,
      (m.capacity = 0 ∨ ∃ k, m.capacity = 2 ^ k) ∧ m.capacity ≤ max 16 (4 * 1) ∧
        ∀ key value m' added, m.rehashes UInt64.ofNat key →
          m.put UInt64.ofNat heap key value = .ok (m', added) → m'.tombstones = 0 :=
  capacity_bounded UInt64.ofNat ⟨8, 8, fun n _ ↦ n < 1000⟩ 1
    ((List.range 20).flatMap fun i ↦ [.put i i, .remove i]) (by decide +kernel)

end Map

end TinyCPlus.Std
