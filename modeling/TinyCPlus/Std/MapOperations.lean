import TinyCPlus.Std.MapInvariant

/-!
# The operations of the hash table

Each operation keeps the invariant, and its effect on the entries is that of
the operation on a finite map, up to the order of the entries.
-/

set_option linter.unusedSectionVars false

namespace TinyCPlus.Std

open TinyCPlus.Library

namespace Map

variable {K V : Type} [Inhabited K] [Inhabited V] [BEq K]
variable {hash : K → UInt64} {m : Map K V}

namespace TableInv

/-! ## Writing one slot -/

/-- A table with one slot written. -/
def write (m : Map K V) (index : ℕ) (key : K) (value : V) (state : UInt8)
    (length tombstones : ℕ) : Map K V where
  keyData := m.keyData.set index key
  valueData := m.valueData.set index value
  stateData := m.stateData.set index state
  length := length
  capacity := m.capacity
  tombstones := tombstones

variable {index : ℕ} {key : K} {value : V} {state : UInt8} {length tombstones : ℕ}

theorem state_write (h : TableInv hash m) (hindex : index < m.capacity) (j : ℕ) :
    (write m index key value state length tombstones).state j =
      if j = index then state else m.state j :=
  getD_set (by rwa [h.length_states]) state 0 j

theorem key_write (h : TableInv hash m) (hindex : index < m.capacity) (j : ℕ) :
    (write m index key value state length tombstones).key j =
      if j = index then key else m.key j :=
  getD_set (by rwa [h.length_keys]) key default j

theorem value_write (h : TableInv hash m) (hindex : index < m.capacity) (j : ℕ) :
    (write m index key value state length tombstones).value j =
      if j = index then value else m.value j :=
  getD_set (by rwa [h.length_values]) value default j

theorem countP_write (h : TableInv hash m) (hindex : index < m.capacity) (key : K)
    (value : V) (state : UInt8) (length tombstones : ℕ) (p : UInt8 → Bool) :
    (write m index key value state length tombstones).stateData.countP p +
        (if p (m.state index) then 1 else 0) =
      m.stateData.countP p + (if p state then 1 else 0) := by
  have hlt : index < m.stateData.length := by rwa [h.length_states]
  have hstate : m.state index = m.stateData[index] := by
    rw [Map.state, List.getD_eq_getElem _ _ hlt]
  have hpos : (if p m.stateData[index] then 1 else 0) ≤ m.stateData.countP p := by
    split
    · rename_i hp
      exact List.countP_pos_iff.mpr ⟨_, List.getElem_mem hlt, hp⟩
    · exact Nat.zero_le _
  rw [write, List.countP_set hlt, hstate]
  omega

/-- The state list after a write holds the written state and old ones. -/
theorem states_write (h : TableInv hash m)
    (hstate : state = 0 ∨ state = 1 ∨ state = 2) :
    ∀ s ∈ (write m index key value state length tombstones).stateData,
      s = 0 ∨ s = 1 ∨ s = 2 := by
  intro s hs
  rcases List.mem_or_eq_of_mem_set hs with hold | rfl
  · exact h.states s hold
  · exact hstate

/-- Writing a used state leaves every path through used slots intact. -/
theorem chain_write (h : TableInv hash m) (hindex : index < m.capacity)
    (hused : state ≠ 0) {j : ℕ} (hj : j ≠ index) (hchain : m.Chained hash j) :
    (write m index key value state length tombstones).Chained hash j := by
  obtain ⟨d, hd, hprobe, hpath⟩ := hchain
  rw [Chained, h.key_write hindex, if_neg hj]
  refine ⟨d, hd, hprobe, ?_⟩
  intro e he
  rw [show (write m index key value state length tombstones).capacity = m.capacity
    from rfl, h.state_write hindex]
  split
  · exact hused
  · exact hpath e he

/-! ## Inserting an absent key -/

/-- The slot `insert` writes: the first one along the probe sequence that is
not live. -/
theorem exists_insert_slot (h : TableInv hash m) (hroom : m.length < m.capacity)
    (key : K) :
    ∃ d < m.capacity, m.state (probe m.capacity (hash key).toNat d) ≠ 1 ∧
      (∀ e < d, m.state (probe m.capacity (hash key).toNat e) = 1) ∧
      m.insertLoop (u64Pred m.capacity) m.capacity
        ((hash key).toNat &&& u64Pred m.capacity) =
          some (probe m.capacity (hash key).toNat d) := by
  obtain ⟨i, hi, hfree⟩ := h.exists_not_live hroom
  obtain ⟨d, hd, hstop, hpass⟩ := exists_first_stop (hash key).toNat
    (fun i ↦ m.state i != 1) hi (by simpa using hfree)
  refine ⟨d, hd, by simpa using hstop, fun e he ↦ by simpa using hpass e he, ?_⟩
  have hloop := probeLoop_eq_some (n := m.capacity)
    (fun i ↦ u64 (i + 1) &&& u64Pred m.capacity) (fun i ↦ m.state i != 1) (h.next_eq (hash key).toNat)
    (Nat.zero_le d) (by omega) hstop fun e _ he ↦ hpass e he
  rw [h.home_eq, insertLoop]
  exact hloop

theorem insert_write (h : TableInv hash m) (habsent : m.Absent key)
    {d : ℕ} (hd : d < m.capacity)
    (hfree : m.state (probe m.capacity (hash key).toNat d) ≠ 1)
    (hused : ∀ e < d, m.state (probe m.capacity (hash key).toNat e) = 1)
    (hlength : length = m.length + 1)
    (htombs : tombstones + (if m.state (probe m.capacity (hash key).toNat d) = 2
      then 1 else 0) = m.tombstones) [EquivBEq K] :
    TableInv hash (write m (probe m.capacity (hash key).toNat d) key value 1
      length tombstones) := by
  have hindex := probe_lt h.capacity_pos (hash key).toNat d
  generalize hi : probe m.capacity (hash key).toNat d = index at *
  have hlive : ∀ j, (write m index key value 1 length tombstones).state j = 1 ↔
      j = index ∨ m.state j = 1 := by
    intro j
    rw [h.state_write hindex]
    split <;> simp_all
  refine ⟨h.pow, h.small, ?_, ?_, ?_, h.states_write (by simp), ?_, ?_, ?_, ?_⟩
  · simpa [write] using h.length_keys
  · simpa [write] using h.length_values
  · simpa [write] using h.length_states
  · have hcount := h.countP_write hindex key value 1 length tombstones (· == 1)
    have hold : ¬ (m.state index == 1) = true := by simpa using hfree
    rw [if_neg hold, if_pos (beq_self_eq_true _)] at hcount
    have hold_length := h.length_eq
    change length = _
    omega
  · have hcount := h.countP_write hindex key value 1 length tombstones (· == 2)
    have hne : ¬ ((1 : UInt8) == 2) = true := by decide
    rw [if_neg hne] at hcount
    simp only [beq_iff_eq] at hcount
    rw [h.tombstones_eq] at htombs
    change tombstones = _
    omega
  · intro j hj hjlive
    by_cases hji : j = index
    · rw [Chained, h.key_write hindex, if_pos hji]
      refine ⟨d, hd, by rw [hji]; exact hi, ?_⟩
      intro e he
      have hne := hused e he
      rw [show (write m index key value 1 length tombstones).capacity = m.capacity
        from rfl, h.state_write hindex]
      split
      · decide
      · rw [hne]
        decide
    · exact h.chain_write hindex (by decide) hji
        (h.chain j hj (((hlive j).mp hjlive).resolve_left hji))
  · intro i j hilt hjlt hilive hjlive hkeys
    rw [h.key_write hindex, h.key_write hindex] at hkeys
    by_cases hi' : i = index <;> by_cases hj' : j = index
    · rw [hi', hj']
    · have hjold := ((hlive j).mp hjlive).resolve_left hj'
      rw [if_pos hi', if_neg hj', BEq.comm, habsent j hjlt hjold] at hkeys
      exact absurd hkeys (by simp)
    · have hiold := ((hlive i).mp hilive).resolve_left hi'
      rw [if_neg hi', if_pos hj', habsent i hilt hiold] at hkeys
      exact absurd hkeys (by simp)
    · have hiold := ((hlive i).mp hilive).resolve_left hi'
      have hjold := ((hlive j).mp hjlive).resolve_left hj'
      rw [if_neg hi', if_neg hj'] at hkeys
      exact h.distinct i j hilt hjlt hiold hjold hkeys

theorem entries_write (h : TableInv hash m) (hindex : index < m.capacity)
    (hfree : m.state index ≠ 1) :
    (write m index key value 1 length tombstones).entries.Perm
      ((key, value) :: m.entries) := by
  refine perm_filterMap_fill hindex (if_neg hfree) ?_ ?_
  · rw [slot, h.state_write hindex, h.key_write hindex, h.value_write hindex]
    simp
  · intro j hj
    rw [slot, slot, h.state_write hindex, h.key_write hindex, h.value_write hindex]
    simp [hj]

/-- Inserting an absent key into a table with room succeeds, keeps the
invariant and adds the entry. -/
theorem insert_spec [EquivBEq K] (h : TableInv hash m) (habsent : m.Absent key)
    (value : V) (hroom : m.length + m.tombstones < m.capacity) :
    ∃ m', m.insert hash key value = .ok m' ∧ TableInv hash m' ∧
      m'.entries.Perm ((key, value) :: m.entries) ∧ m'.capacity = m.capacity ∧
      m'.length = m.length + 1 ∧
      m'.length + m'.tombstones ≤ m.length + m.tombstones + 1 ∧
      m'.tombstones ≤ m.tombstones := by
  obtain ⟨d, hd, hfree, hused, hloop⟩ := h.exists_insert_slot (by omega) key
  have hsmall := h.small
  have hindex := probe_lt h.capacity_pos (hash key).toNat d
  have htomb : m.state (probe m.capacity (hash key).toNat d) = 2 →
      0 < m.tombstones := by
    intro hstate
    rw [h.tombstones_eq, List.countP_pos_iff]
    have hlt : probe m.capacity (hash key).toNat d < m.stateData.length := by
      rwa [h.length_states]
    refine ⟨_, List.getElem_mem hlt, ?_⟩
    rw [Map.state, List.getD_eq_getElem _ _ hlt] at hstate
    simp [hstate]
  refine ⟨_, by rw [insert, hloop], ?_⟩
  generalize htombs : (if m.state (probe m.capacity (hash key).toNat d) == 2
    then u64Pred m.tombstones else m.tombstones) = tombs
  have hsum : tombs + (if m.state (probe m.capacity (hash key).toNat d) = 2
      then 1 else 0) = m.tombstones := by
    rw [← htombs]
    by_cases hstate : m.state (probe m.capacity (hash key).toNat d) = 2
    · have hpos := htomb hstate
      simp only [hstate, beq_self_eq_true, if_true]
      rw [u64Pred_of_pos hpos (by omega)]
      omega
    · simp [hstate]
  have hlen : u64 (m.length + 1) = m.length + 1 := u64_of_lt (by omega)
  refine ⟨h.insert_write habsent hd hfree hused hlen hsum, h.entries_write hindex hfree,
    rfl, hlen, ?_, ?_⟩
  · simp only [hlen]
    split at hsum <;> omega
  · simp only
    split at hsum <;> omega

end TableInv

/-! ## Rehashing -/

/-- A table of slots that were never used. -/
theorem inv_of_zeroed (hash : K → UInt64) {k : ℕ} (hpow : m.capacity = 2 ^ k) (hsmall : m.capacity < 2 ^ 60)
    (hkeys : m.keyData.length = m.capacity) (hvalues : m.valueData.length = m.capacity)
    (hstates : m.stateData = List.replicate m.capacity 0) (hlength : m.length = 0)
    (htombs : m.tombstones = 0) : TableInv hash m ∧ m.entries = [] := by
  have hstate : ∀ i, m.state i = 0 := by
    intro i
    rw [state, hstates]
    simp only [List.getD_eq_getElem?_getD, List.getElem?_replicate]
    split <;> rfl
  refine ⟨⟨⟨k, hpow⟩, hsmall, hkeys, hvalues, by simp [hstates], ?_, ?_, ?_, ?_, ?_⟩, ?_⟩
  · intro s hs
    rw [hstates] at hs
    exact Or.inl (List.eq_of_mem_replicate hs)
  · rw [hlength, hstates]
    simp [List.countP_replicate]
  · rw [htombs, hstates]
    simp [List.countP_replicate]
  · intro i _ hlive
    rw [hstate] at hlive
    exact absurd hlive (by decide)
  · intro i j _ _ hlive
    rw [hstate] at hlive
    exact absurd hlive (by decide)
  · rw [entries, List.filterMap_eq_nil_iff]
    intro i _
    rw [slot, hstate]
    rfl

theorem cleared_spec (hash : K → UInt64) {k next : ℕ} (hnext : next = 2 ^ k) (hsmall : next < 2 ^ 60) :
    TableInv hash (cleared next : Map K V) ∧ (cleared next : Map K V).entries = [] :=
  inv_of_zeroed hash hnext hsmall (by simp [cleared]) (by simp [cleared]) rfl rfl rfl

/-- What `rehash` needs of the new table, and what it delivers. -/
theorem rehash_spec [EquivBEq K] {heap : Heap} (h : TableInv hash m) {k next : ℕ}
    (hnext : next = 2 ^ k) (hsmall : next < 2 ^ 60) (hheap : allocates heap next = true)
    (hroom : (m.length + 1) * 2 ≤ next) :
    ∃ m', m.rehash hash heap next = .ok m' ∧ TableInv hash m' ∧
      m'.entries.Perm m.entries ∧ m'.capacity = next ∧ m'.length = m.length ∧
      m'.tombstones = 0 := by
  have hlength := h.length_entries
  have hdistinct := h.distinct_entries
  -- The table after the first `n` old slots have been moved.
  have hloop : ∀ n ≤ m.capacity, ∃ table : Map K V,
      (List.range n).foldlM (m := Except Failure) (fun table i ↦
        if m.state i == 1 then table.insert hash (m.key i) (m.value i)
        else .ok table) (cleared next) = .ok table ∧
      TableInv hash table ∧
      table.entries.Perm ((List.range n).filterMap m.slot) ∧
      table.capacity = next ∧ table.tombstones = 0 := by
    intro n hn
    induction n with
    | zero =>
        obtain ⟨hinv, hnil⟩ := cleared_spec (V := V) hash hnext hsmall
        refine ⟨_, rfl, hinv, ?_, rfl, rfl⟩
        rw [hnil]
        exact List.Perm.nil
    | succ n ih =>
        obtain ⟨table, hfold, hinv, hperm, hcap, htombs⟩ := ih (by omega)
        rw [List.range_succ, List.foldlM_append, hfold, List.filterMap_append]
        by_cases hlive : m.state n = 1
        · have hslot : m.slot n = some (m.key n, m.value n) := if_pos hlive
          have hsign : (List.range n).filterMap m.slot ++ [(m.key n, m.value n)] <+:
              m.entries := by
            have hpre : List.range (n + 1) <+: List.range m.capacity := by
              obtain ⟨r, hr⟩ := Nat.exists_eq_add_of_le hn
              have hsplit : List.range (n + 1 + r) =
                  List.range (n + 1) ++ (List.range r).map (n + 1 + ·) := List.range_add
              rw [hr, hsplit]
              exact List.prefix_append _ _
            have hmap := hpre.filterMap m.slot
            rwa [List.range_succ, List.filterMap_append,
              List.filterMap_cons_some hslot] at hmap
          have habsent : table.Absent (m.key n) := by
            rw [absent_iff]
            intro e he
            have hdis := List.pairwise_append.mp (hdistinct.sublist hsign.sublist)
            exact hdis.2.2 e (hperm.mem_iff.mp he) _ (List.mem_singleton.mpr rfl)
          have hcount : table.length + 1 ≤ m.length := by
            have hle := hsign.length_le
            rw [List.length_append, List.length_singleton, ← hperm.length_eq,
              hinv.length_entries, hlength] at hle
            exact hle
          obtain ⟨table', hins, hinv', hperm', hcap', -, -, htombs'⟩ :=
            hinv.insert_spec habsent (m.value n) (by omega)
          refine ⟨table', ?_, hinv', ?_, hcap'.trans hcap, by omega⟩
          · simp [hlive, hins, bind, Except.bind, pure, Except.pure]
          · rw [List.filterMap_cons_some hslot, List.filterMap_nil]
            exact hperm'.trans ((hperm.cons _).trans (List.perm_append_singleton _ _).symm)
        · refine ⟨table, ?_, hinv, ?_, hcap, htombs⟩
          · simp [hlive, bind, Except.bind, pure, Except.pure]
          · have hslot : m.slot n = none := if_neg hlive
            rw [List.filterMap_cons_none hslot, List.filterMap_nil, List.append_nil]
            exact hperm
  obtain ⟨table, hfold, hinv, hperm, hcap, htombs⟩ := hloop m.capacity (le_refl _)
  refine ⟨table, ?_, hinv, hperm, hcap, ?_, htombs⟩
  · rw [rehash, if_pos hheap, hfold]
  · rw [← hinv.length_entries, hperm.length_eq]
    exact hlength

end Map

end TinyCPlus.Std
