import TinyCPlus.Std.Map

/-!
# The invariant of the hash table

Every live slot is reached from the home of its key through slots that have
been used, live keys are pairwise different, and the counters count.  `find`
and `insert` are specified from it; `insert` keeps it.
-/

set_option linter.unusedSectionVars false

namespace TinyCPlus.Std

open TinyCPlus.Library

theorem u64_of_lt {n : ℕ} (h : n < 2 ^ 64) : u64 n = n := Nat.mod_eq_of_lt h

theorem u64Pred_of_pos {n : ℕ} (hpos : 0 < n) (h : n < 2 ^ 64) :
    u64Pred n = n - 1 := by
  rw [u64Pred, u64]
  have hsum : n + (2 ^ 64 - 1) = n - 1 + 2 ^ 64 := by omega
  rw [hsum, Nat.add_mod_right, Nat.mod_eq_of_lt (by omega)]

theorem getD_set {α : Type} {l : List α} {i : ℕ} (hi : i < l.length) (a d : α)
    (j : ℕ) : (l.set i a).getD j d = if j = i then a else l.getD j d := by
  simp only [List.getD_eq_getElem?_getD, List.getElem?_set]
  by_cases hij : i = j
  · subst hij
    simp [hi]
  · rw [if_neg hij, if_neg (fun h ↦ hij h.symm)]

namespace Map

variable {K V : Type} [Inhabited K] [Inhabited V] [BEq K]

/-- The content of a slot. -/
def slot (m : Map K V) (i : ℕ) : Option (K × V) :=
  if m.state i = 1 then some (m.key i, m.value i) else none

/-- The entries of the table in slot order. -/
def entries (m : Map K V) : List (K × V) := (List.range m.capacity).filterMap m.slot

/-- A live slot is reached from the home of its key without passing a slot
that was never used. -/
def Chained (hash : K → UInt64) (m : Map K V) (i : ℕ) : Prop :=
  ∃ d < m.capacity, probe m.capacity (hash (m.key i)).toNat d = i ∧
    ∀ e < d, m.state (probe m.capacity (hash (m.key i)).toNat e) ≠ 0

structure TableInv (hash : K → UInt64) (m : Map K V) : Prop where
  pow : ∃ k, m.capacity = 2 ^ k
  small : m.capacity < 2 ^ 60
  length_keys : m.keyData.length = m.capacity
  length_values : m.valueData.length = m.capacity
  length_states : m.stateData.length = m.capacity
  states : ∀ s ∈ m.stateData, s = 0 ∨ s = 1 ∨ s = 2
  length_eq : m.length = m.stateData.countP (· == 1)
  tombstones_eq : m.tombstones = m.stateData.countP (· == 2)
  chain : ∀ i < m.capacity, m.state i = 1 → m.Chained hash i
  distinct : ∀ i j, i < m.capacity → j < m.capacity → m.state i = 1 →
    m.state j = 1 → (m.key i == m.key j) = true → i = j

/-- No live slot holds the key. -/
def Absent (m : Map K V) (key : K) : Prop :=
  ∀ i < m.capacity, m.state i = 1 → (m.key i == key) = false

theorem mem_entries {m : Map K V} {e : K × V} :
    e ∈ m.entries ↔ ∃ i < m.capacity, m.state i = 1 ∧ e = (m.key i, m.value i) := by
  rw [entries, List.mem_filterMap]
  constructor
  · rintro ⟨i, hi, hslot⟩
    rw [slot] at hslot
    split at hslot
    · rename_i hlive
      exact ⟨i, List.mem_range.mp hi, hlive, (Option.some.inj hslot).symm⟩
    · exact absurd hslot (by simp)
  · rintro ⟨i, hi, hlive, rfl⟩
    exact ⟨i, List.mem_range.mpr hi, if_pos hlive⟩

theorem absent_iff {m : Map K V} {key : K} :
    m.Absent key ↔ ∀ e ∈ m.entries, (e.1 == key) = false := by
  constructor
  · intro h e he
    obtain ⟨i, hi, hlive, rfl⟩ := mem_entries.mp he
    exact h i hi hlive
  · intro h i hi hlive
    exact h _ (mem_entries.mpr ⟨i, hi, hlive, rfl⟩)

namespace TableInv

variable {hash : K → UInt64} {m : Map K V}

theorem capacity_pos (h : TableInv hash m) : 0 < m.capacity := by
  obtain ⟨k, hk⟩ := h.pow
  rw [hk]
  exact Nat.two_pow_pos k

theorem and_mask (h : TableInv hash m) (x : ℕ) :
    x &&& u64Pred m.capacity = x % m.capacity := by
  obtain ⟨k, hk⟩ := h.pow
  have hsmall := h.small
  rw [u64Pred_of_pos h.capacity_pos (by omega), hk, Nat.and_two_pow_sub_one_eq_mod]

/-- The masked home of a key is the start of its probe sequence. -/
theorem home_eq (h : TableInv hash m) (x : ℕ) :
    x &&& u64Pred m.capacity = probe m.capacity x 0 := h.and_mask x

/-- Masking the incremented index is one step along the probe sequence. -/
theorem next_eq (h : TableInv hash m) (x d : ℕ) :
    u64 (probe m.capacity x d + 1) &&& u64Pred m.capacity =
      probe m.capacity x (d + 1) := by
  have hlt := probe_lt h.capacity_pos x d
  have hsmall := h.small
  rw [h.and_mask, u64_of_lt (by omega), probe_succ]

/-- The slots that are not live are as many as the counter leaves. -/
theorem exists_not_live (h : TableInv hash m) (hroom : m.length < m.capacity) :
    ∃ i < m.capacity, m.state i ≠ 1 := by
  by_contra hcon
  push Not at hcon
  have hall : m.stateData.countP (· == 1) = m.stateData.length := by
    rw [List.countP_eq_length]
    intro s hs
    obtain ⟨i, hi, rfl⟩ := List.getElem_of_mem hs
    have hlive := hcon i (by rwa [← h.length_states])
    rw [state, List.getD_eq_getElem _ _ hi] at hlive
    simp [hlive]
  have hlen := h.length_eq
  rw [hall, h.length_states] at hlen
  omega

theorem length_entries (h : TableInv hash m) : m.entries.length = m.length := by
  have hstates : m.stateData = (List.range m.capacity).map m.state := by
    apply List.ext_getElem
    · simp [h.length_states]
    · intro i hi _
      rw [List.getElem_map, List.getElem_range, state, List.getD_eq_getElem _ _ hi]
  rw [entries, List.length_filterMap_eq_countP, h.length_eq]
  conv_rhs => rw [hstates]
  rw [List.countP_map]
  apply List.countP_congr
  intro i _
  simp only [slot, Function.comp_apply, beq_iff_eq]
  split <;> simp_all

theorem distinct_entries (h : TableInv hash m) : DistinctKeys m.entries := by
  rw [DistinctKeys, entries, List.pairwise_filterMap]
  refine (List.pairwise_lt_range (n := m.capacity)).imp_of_mem ?_
  intro i j hi hj hij a ha b hb
  rw [List.mem_range] at hi hj
  rw [slot] at ha hb
  split at ha <;> split at hb
  · rename_i hlivei hlivej
    rw [← Option.some.inj ha, ← Option.some.inj hb]
    by_contra hcon
    rw [Bool.not_eq_false] at hcon
    have heq := h.distinct i j hi hj hlivei hlivej hcon
    omega
  all_goals simp_all

/-! ## Finding a key -/

/-- What ends the search loop in a slot. -/
def findStop (m : Map K V) (key : K) (i : ℕ) : Bool :=
  m.state i == 0 || (m.state i == 1 && m.key i == key)

theorem findLoop_eq_probeLoop (m : Map K V) (key : K) (mask n i : ℕ) :
    m.findLoop key mask n i =
      match probeLoop (fun i ↦ u64 (i + 1) &&& mask) (findStop m key) n i with
      | none => m.capacity
      | some j => if m.state j == 0 then m.capacity else j := by
  induction n generalizing i with
  | zero => rfl
  | succ n ih =>
      rw [findLoop, probeLoop, findStop]
      by_cases hempty : (m.state i == 0) = true
      · simp [hempty]
      · by_cases hmatch : (m.state i == 1 && m.key i == key) = true
        · simp [hempty, hmatch]
        · simp only [Bool.not_eq_true] at hempty hmatch
          simp only [hempty, hmatch, Bool.or_false, Bool.false_eq_true, if_false]
          exact ih _

variable [EquivBEq K]

theorem findStop_of_live {key : K} {i : ℕ} (hlive : m.state i = 1)
    (hkey : (m.key i == key) = true) : findStop m key i = true := by
  simp [findStop, hlive, hkey]

/-- A search for a key that is present ends in its slot. -/
theorem find_of_live (h : TableInv hash m)
    (hhash : ∀ a b : K, (a == b) = true → hash a = hash b) {key : K} {i : ℕ}
    (hi : i < m.capacity) (hlive : m.state i = 1)
    (hkey : (m.key i == key) = true) : m.find hash key = i := by
  have hlen : m.length ≠ 0 := by
    rw [← h.length_entries, ne_eq, List.length_eq_zero_iff]
    intro hnil
    have hmem : (m.key i, m.value i) ∈ m.entries :=
      mem_entries.mpr ⟨i, hi, hlive, rfl⟩
    rw [hnil] at hmem
    exact List.not_mem_nil hmem
  obtain ⟨d, hd, hprobe, hused⟩ := h.chain i hi hlive
  rw [hhash _ _ hkey] at hprobe hused
  have hpass : ∀ e, 0 ≤ e → e < d →
      findStop m key (probe m.capacity (hash key).toNat e) = false := by
    intro e _ he
    have hlt := probe_lt h.capacity_pos (hash key).toNat e
    have hmiss : ¬ (m.state (probe m.capacity (hash key).toNat e) = 1 ∧
        (m.key (probe m.capacity (hash key).toNat e) == key) = true) := by
      rintro ⟨hlive', hkey'⟩
      have heq := h.distinct _ i hlt hi hlive' hlive
        (BEq.trans hkey' (BEq.symm hkey))
      rw [← hprobe] at heq
      have hde := probe_injective (by omega) hd heq
      omega
    rw [findStop, Bool.or_eq_false_iff]
    refine ⟨by simpa using hused e he, ?_⟩
    rw [Bool.eq_false_iff, ne_eq, Bool.and_eq_true, beq_iff_eq]
    exact hmiss
  have hloop := probeLoop_eq_some (n := m.capacity)
    (fun i ↦ u64 (i + 1) &&& u64Pred m.capacity) (findStop m key)
    (h.next_eq (hash key).toNat)
    (Nat.zero_le d) (by omega)
    (by rw [hprobe]; exact findStop_of_live hlive hkey) hpass
  rw [find, if_neg hlen]
  simp only [h.home_eq]
  rw [findLoop_eq_probeLoop, hloop, hprobe]
  simp [hlive]

/-- A search for a key that is absent reports the capacity. -/
theorem find_of_absent (h : TableInv hash m) {key : K} (habsent : m.Absent key) :
    m.find hash key = m.capacity := by
  rw [find]
  by_cases hlen : m.length = 0
  · rw [if_pos hlen]
  · rw [if_neg hlen]
    simp only [h.home_eq]
    rw [findLoop_eq_probeLoop]
    have hempty : ∀ e, findStop m key (probe m.capacity (hash key).toNat e) = true →
        m.state (probe m.capacity (hash key).toNat e) = 0 := by
      intro e hstop
      have hlt := probe_lt h.capacity_pos (hash key).toNat e
      by_contra hne
      have hlive : m.state (probe m.capacity (hash key).toNat e) = 1 ∧
          (m.key (probe m.capacity (hash key).toNat e) == key) = true := by
        simpa [findStop, hne] using hstop
      rw [habsent _ hlt hlive.1] at hlive
      exact absurd hlive.2 (by simp)
    by_cases hex : ∃ i < m.capacity, findStop m key i = true
    · obtain ⟨i, hi, hstop⟩ := hex
      obtain ⟨last, hlast, hstop, hpass⟩ := exists_first_stop (hash key).toNat _ hi hstop
      have hloop := probeLoop_eq_some (n := m.capacity)
        (fun i ↦ u64 (i + 1) &&& u64Pred m.capacity) (findStop m key)
        (h.next_eq (hash key).toNat) (Nat.zero_le last) (by omega) hstop
        fun e _ he ↦ hpass e he
      rw [hloop]
      simp [hempty last hstop]
    · push Not at hex
      have hloop := probeLoop_eq_none (n := m.capacity) (d := 0)
        (fun i ↦ u64 (i + 1) &&& u64Pred m.capacity) (findStop m key)
        (h.next_eq (hash key).toNat) fun e _ _ ↦ by
          simpa using hex _ (probe_lt h.capacity_pos (hash key).toNat e)
      rw [hloop]

end TableInv

end Map

end TinyCPlus.Std
