import TinyCPlus.Std.MapOperations

/-!
# The hash table is a finite map

Every run of the methods of `Map` on a new map, short of an allocation that
fails, ends and answers as a finite map does.
-/

set_option linter.unusedSectionVars false

namespace TinyCPlus.Std

open TinyCPlus.Library

namespace Map

variable {K V : Type} [Inhabited K] [Inhabited V] [BEq K]
variable {hash : K → UInt64} {heap : Heap} {m : Map K V}

/-! ## The invariant of every method -/

/-- The load bound that `put` keeps. -/
def Load (m : Map K V) : Prop := (m.length + m.tombstones) * 4 ≤ m.capacity * 3

/-- A map between two calls. -/
inductive MapInv (hash : K → UInt64) : Map K V → Prop where
  | create : MapInv hash create
  | table {m : Map K V} (h : TableInv hash m) (hload : Load m) : MapInv hash m

theorem MapInv.length_entries (h : MapInv hash m) : m.entries.length = m.length := by
  cases h with
  | create => rfl
  | table h _ => exact h.length_entries

theorem MapInv.distinct_entries (h : MapInv hash m) : DistinctKeys m.entries := by
  cases h with
  | create => exact List.Pairwise.nil
  | table h _ => exact h.distinct_entries

/-- A search ends in the slot of the key, or reports the capacity. -/
theorem MapInv.find_spec [EquivBEq K] (h : MapInv hash m)
    (hhash : ∀ a b : K, (a == b) = true → hash a = hash b) (key : K) :
    (m.Absent key ∧ m.find hash key = m.capacity) ∨
      (TableInv hash m ∧ Load m ∧ m.find hash key < m.capacity ∧
        m.state (m.find hash key) = 1 ∧ (m.key (m.find hash key) == key) = true) := by
  cases h with
  | create => exact Or.inl ⟨fun i hi ↦ absurd hi (Nat.not_lt_zero i), rfl⟩
  | table h hload =>
      by_cases habsent : m.Absent key
      · exact Or.inl ⟨habsent, h.find_of_absent habsent⟩
      · rw [Absent] at habsent
        push Not at habsent
        obtain ⟨i, hi, hlive, hkey⟩ := habsent
        rw [ne_eq, Bool.not_eq_false] at hkey
        rw [h.find_of_live hhash hi hlive hkey]
        exact Or.inr ⟨h, hload, hi, hlive, hkey⟩

/-! ## Growing -/

/-- The doubling loop ends at the first power of two that is large enough. -/
theorem growLoop_eq (wanted : ℕ) (hwanted : wanted ≤ 2 ^ 61) (fuel k : ℕ)
    (hk : k ≤ 61) (hfuel : 61 < fuel + k) :
    ∃ j, k ≤ j ∧ wanted ≤ 2 ^ j ∧ growLoop wanted fuel (2 ^ k) = .ok (2 ^ j) := by
  induction fuel generalizing k with
  | zero => omega
  | succ fuel ih =>
      rw [growLoop]
      by_cases hlt : 2 ^ k < wanted
      · have hk61 : k < 61 := by
          by_contra hge
          have hpow : 2 ^ 61 ≤ 2 ^ k := Nat.pow_le_pow_right (by norm_num) (by omega)
          omega
        have hdouble : u64 (2 ^ k * 2) = 2 ^ (k + 1) := by
          rw [pow_succ]
          exact u64_of_lt (by omega)
        obtain ⟨j, hj, hwj, heq⟩ := ih (k + 1) (by omega) (by omega)
        rw [if_pos hlt, if_pos (by omega), hdouble]
        exact ⟨j, by omega, hwj, heq⟩
      · rw [if_neg hlt]
        exact ⟨k, le_refl k, by omega, rfl⟩

/-- The capacity `grow` starts doubling from. -/
theorem exists_start (h : MapInv hash m) :
    ∃ k, k ≤ 61 ∧ (if m.capacity < 16 then 16 else m.capacity) = 2 ^ k ∧ 4 ≤ k := by
  split
  · exact ⟨4, by norm_num, by norm_num, le_refl 4⟩
  · rename_i hcap
    cases h with
    | create => exact absurd (by decide : (0 : ℕ) < 16) hcap
    | table h _ =>
        obtain ⟨k, hk⟩ := h.pow
        have hsmall := h.small
        rw [hk] at hsmall hcap
        have hk60 : k < 60 := (Nat.pow_lt_pow_iff_right (by norm_num)).mp hsmall
        refine ⟨k, by omega, hk, ?_⟩
        by_contra hlt
        have hpow : 2 ^ k ≤ 2 ^ 3 := Nat.pow_le_pow_right (by norm_num) (by omega)
        omega

/-- The table has room for one more entry after `grow`. -/
theorem grow_spec [EquivBEq K] (h : MapInv hash m)
    (hheap : ∀ n size, heap.calloc n size = true → n < 2 ^ 60) :
    m.grow hash heap = .error .allocation ∨
      ∃ m', m.grow hash heap = .ok m' ∧ TableInv hash m' ∧ m'.entries.Perm m.entries ∧
        (m'.length + m'.tombstones + 1) * 4 ≤ m'.capacity * 3 := by
  have hsmall : m.capacity < 2 ^ 60 ∧ (m.length + m.tombstones) * 4 ≤ m.capacity * 3 := by
    cases h with
    | create => exact ⟨by simp [create], by simp [create]⟩
    | table h hload => exact ⟨h.small, hload⟩
  rw [grow, u64_of_lt (n := m.length + m.tombstones) (by omega),
    u64_of_lt (n := m.length + m.tombstones + 1) (by omega),
    u64_of_lt (n := (m.length + m.tombstones + 1) * 4) (by omega),
    u64_of_lt (n := m.capacity * 3) (by omega),
    u64_of_lt (n := m.length + 1) (by omega),
    u64_of_lt (n := (m.length + 1) * 2) (by omega)]
  by_cases hfull : m.capacity * 3 < (m.length + m.tombstones + 1) * 4
  · rw [if_pos hfull]
    obtain ⟨k, hk, hstart, hk4⟩ := exists_start h
    obtain ⟨j, hj, hroom, hgrow⟩ := growLoop_eq ((m.length + 1) * 2)
      (by omega) 65 k hk (by omega)
    simp only [hstart, hgrow, bind, Except.bind]
    by_cases halloc : allocates heap (2 ^ j) = true
    · have hnext : 2 ^ j < 2 ^ 60 := by
        simp only [allocates, Bool.and_eq_true] at halloc
        exact hheap _ _ halloc.2
      refine Or.inr ?_
      have h16 : 2 ^ 4 ≤ 2 ^ j := Nat.pow_le_pow_right (by norm_num) (by omega)
      cases h with
      | create =>
          obtain ⟨hinv, hnil⟩ := cleared_spec (V := V) hash rfl hnext
          refine ⟨cleared (2 ^ j), by rw [rehash, if_pos halloc]; rfl, hinv, ?_, ?_⟩
          · rw [hnil]
            exact List.Perm.nil
          · simp only [cleared]
            omega
      | table h hload =>
          obtain ⟨m', hrehash, hinv, hperm, hcap, hlen, htombs⟩ :=
            rehash_spec h rfl hnext halloc hroom
          exact ⟨m', hrehash, hinv, hperm, by omega⟩
    · exact Or.inl (by rw [rehash, if_neg halloc])
  · rw [if_neg hfull]
    cases h with
    | create => exact absurd (by simp [create]) hfull
    | table h _ => exact Or.inr ⟨m, rfl, h, List.Perm.refl _, by omega⟩

/-! ## One call on the entries -/

/-- `put` of an absent key adds an entry. -/
theorem put_absent [EquivBEq K] (h : MapInv hash m) {key : K} (habsent : m.Absent key)
    (hfind : m.find hash key = m.capacity) (value : V)
    (hheap : ∀ n size, heap.calloc n size = true → n < 2 ^ 60) :
    m.put hash heap key value = .error .allocation ∨
      ∃ m', m.put hash heap key value = .ok (m', true) ∧ MapInv hash m' ∧
        m'.entries.Perm (m.entries ++ [(key, value)]) := by
  rw [put, hfind]
  simp only [lt_irrefl, if_false]
  rcases grow_spec h hheap with hfail | ⟨grown, hgrow, hinv, hperm, hroom⟩
  · exact Or.inl (by rw [hfail]; rfl)
  · have habsent' : grown.Absent key := by
      rw [absent_iff] at habsent ⊢
      exact fun e he ↦ habsent e (hperm.mem_iff.mp he)
    obtain ⟨m', hinsert, hinv', hperm', hcap, -, hload, -⟩ :=
      hinv.insert_spec habsent' value (by omega)
    refine Or.inr ⟨m', by rw [hgrow]; simp [bind, Except.bind, hinsert],
      MapInv.table hinv' (by rw [Load]; omega), ?_⟩
    exact hperm'.trans ((hperm.cons _).trans (List.perm_append_singleton _ _).symm)

/-- `put` of a present key replaces the value of its entry. -/
theorem put_present [EquivBEq K] (heap : Heap) (h : TableInv hash m) (hload : Load m) {key : K}
    (hfind : m.find hash key < m.capacity) (hlive : m.state (m.find hash key) = 1)
    (hkey : (m.key (m.find hash key) == key) = true) (value : V) :
    ∃ m', m.put hash heap key value = .ok (m', false) ∧ MapInv hash m' ∧
      m'.entries = m.entries.map (FiniteMap.replaceValue key value) := by
  generalize hfound : m.find hash key = found at hfind hlive hkey
  refine ⟨{ m with valueData := m.valueData.set found value }, ?_, ?_, ?_⟩
  · rw [put, hfound]
    exact if_pos hfind
  · refine MapInv.table ⟨h.pow, h.small, h.length_keys, ?_, h.length_states, h.states,
      h.length_eq, h.tombstones_eq, h.chain, h.distinct⟩ hload
    simpa using h.length_values
  · rw [entries, entries, List.map_filterMap]
    apply List.filterMap_congr
    intro j hj
    rw [List.mem_range] at hj
    have hvalue : ({ m with valueData := m.valueData.set found value } : Map K V).value j =
        if j = found then value else m.value j :=
      getD_set (by rwa [h.length_values]) value default j
    rw [slot, slot, hvalue]
    change (if m.state j = 1 then some (m.key j, _) else none) = _
    by_cases hj1 : m.state j = 1
    · rw [if_pos hj1, if_pos hj1, Option.map_some, FiniteMap.replaceValue]
      by_cases hjf : j = found
      · rw [if_pos hjf, hjf, if_pos hkey]
      · have hne : ¬ (m.key j == key) = true := fun hjk ↦
          hjf (h.distinct j found hj hfind hj1 hlive (BEq.trans hjk (BEq.symm hkey)))
        rw [if_neg hjf, if_neg hne]
    · rw [if_neg hj1, if_neg hj1, Option.map_none]

/-- `remove` of a present key drops its entry and leaves a tombstone. -/
theorem remove_present [EquivBEq K] (h : TableInv hash m) (hload : Load m) {key : K}
    (hfind : m.find hash key < m.capacity) (hlive : m.state (m.find hash key) = 1)
    (hkey : (m.key (m.find hash key) == key) = true) :
    (m.remove hash key).2 = true ∧ MapInv hash (m.remove hash key).1 ∧
      (m.remove hash key).1.entries = m.entries.filter fun e ↦ !(e.1 == key) := by
  have hsmall := h.small
  have hpos : 0 < m.length := by
    have hmem := mem_entries.mpr ⟨_, hfind, hlive, rfl⟩
    rw [← h.length_entries]
    exact List.length_pos_of_mem hmem
  rw [Load] at hload
  have hremove : m.remove hash key =
      (TableInv.write m (m.find hash key) default default 2 (m.length - 1)
        (m.tombstones + 1), true) := by
    rw [remove, if_neg (by omega), u64Pred_of_pos hpos (by omega),
      u64_of_lt (n := m.tombstones + 1) (by omega)]
    rfl
  rw [hremove]
  refine ⟨rfl, ?_⟩
  dsimp only
  generalize m.find hash key = found at hfind hlive hkey
  have hlive' : ∀ j, (TableInv.write m found default default 2 (m.length - 1)
      (m.tombstones + 1)).state j = 1 ↔ j ≠ found ∧ m.state j = 1 := by
    intro j
    rw [h.state_write hfind]
    split <;> simp_all
  refine ⟨MapInv.table ⟨h.pow, h.small, ?_, ?_, ?_, h.states_write (by simp), ?_, ?_,
    ?_, ?_⟩ ?_, ?_⟩
  · simpa [TableInv.write] using h.length_keys
  · simpa [TableInv.write] using h.length_values
  · simpa [TableInv.write] using h.length_states
  · have hcount := h.countP_write hfind default default 2 (m.length - 1) (m.tombstones + 1)
      (· == 1)
    have hnew : ¬ ((2 : UInt8) == 1) = true := by decide
    rw [if_neg hnew, if_pos (by simpa using hlive)] at hcount
    have hold := h.length_eq
    change m.length - 1 = _
    omega
  · have hcount := h.countP_write hfind default default 2 (m.length - 1) (m.tombstones + 1)
      (· == 2)
    have hold : ¬ (m.state found == 2) = true := by
      rw [hlive]
      decide
    rw [if_neg hold, if_pos (beq_self_eq_true _)] at hcount
    have htombs := h.tombstones_eq
    change m.tombstones + 1 = _
    omega
  · intro j hj hjlive
    obtain ⟨hne, hjold⟩ := (hlive' j).mp hjlive
    exact h.chain_write hfind (by decide) hne (h.chain j hj hjold)
  · intro i j hi hj hilive hjlive hkeys
    obtain ⟨hine, hiold⟩ := (hlive' i).mp hilive
    obtain ⟨hjne, hjold⟩ := (hlive' j).mp hjlive
    rw [h.key_write hfind, h.key_write hfind, if_neg hine, if_neg hjne] at hkeys
    exact h.distinct i j hi hj hiold hjold hkeys
  · change (m.length - 1 + (m.tombstones + 1)) * 4 ≤ m.capacity * 3
    omega
  · rw [entries, entries, List.filter_filterMap]
    apply List.filterMap_congr
    intro j hj
    rw [List.mem_range] at hj
    rw [slot, slot, h.state_write hfind, h.key_write hfind, h.value_write hfind]
    by_cases hjf : j = found
    · subst hjf
      simp [hlive, hkey, Option.filter]
    · simp only [if_neg hjf]
      by_cases hj1 : m.state j = 1
      · have hne : (m.key j == key) = false := by
          rw [Bool.eq_false_iff]
          exact fun hjk ↦
            hjf (h.distinct j found hj hfind hj1 hlive (BEq.trans hjk (BEq.symm hkey)))
        simp [hj1, hne, Option.filter]
      · simp [hj1]

/-- The loop of `keys` and `values`. -/
theorem foldl_push {α : Type} (m : Map K V) (f : ℕ → α) (g : K × V → α)
    (hfg : ∀ i, g (m.key i, m.value i) = f i) (l : List ℕ) (destination : List α) :
    l.foldl (fun destination i ↦
      if m.state i == 1 then destination ++ [f i] else destination) destination =
        destination ++ (l.filterMap m.slot).map g := by
  induction l generalizing destination with
  | nil => simp
  | cons i l ih =>
      rw [List.foldl_cons, ih]
      by_cases hlive : m.state i = 1
      · have hslot : m.slot i = some (m.key i, m.value i) := if_pos hlive
        rw [List.filterMap_cons_some hslot]
        simp [hlive, hfg]
      · have hslot : m.slot i = none := if_neg hlive
        rw [List.filterMap_cons_none hslot]
        simp [hlive]

theorem keys_eq (m : Map K V) (destination : List K) :
    m.keys destination = destination ++ m.entries.map Prod.fst :=
  foldl_push m m.key Prod.fst (fun _ ↦ rfl) _ _

theorem values_eq (m : Map K V) (destination : List V) :
    m.values destination = destination ++ m.entries.map Prod.snd :=
  foldl_push m m.value Prod.snd (fun _ ↦ rfl) _ _

/-- The loop of `clear` zeroes the slots it has passed. -/
theorem foldl_set_eq (l : List UInt8) (n : ℕ) (hn : n ≤ l.length) :
    (List.range n).foldl (fun states i ↦ states.set i 0) l =
      List.replicate n 0 ++ l.drop n := by
  induction n with
  | zero => rfl
  | succ n ih =>
      rw [List.range_succ, List.foldl_append, ih (by omega), List.foldl_cons, List.foldl_nil,
        List.set_append_right _ _ (by simp), List.length_replicate, Nat.sub_self,
        List.drop_eq_getElem_cons (by omega), List.set_cons_zero, List.replicate_succ',
        List.append_assoc]
      rfl

theorem clear_spec (h : MapInv hash m) :
    MapInv hash m.clear ∧ m.clear.entries = [] := by
  cases h with
  | create => exact ⟨MapInv.create, rfl⟩
  | table h _ =>
      obtain ⟨k, hk⟩ := h.pow
      have hstates : m.clear.stateData = List.replicate m.clear.capacity 0 := by
        change (List.range m.capacity).foldl _ m.stateData = List.replicate m.capacity 0
        rw [foldl_set_eq _ _ h.length_states.ge, List.drop_of_length_le h.length_states.le,
          List.append_nil]
      obtain ⟨hinv, hnil⟩ := inv_of_zeroed (m := m.clear) hash hk h.small
        h.length_keys h.length_values hstates rfl rfl
      exact ⟨MapInv.table hinv (by simp [Load, clear]), hnil⟩

end Map

end TinyCPlus.Std
