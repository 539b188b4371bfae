import TinyCPlus.Std.MapRefinement

/-!
# Runs of the hash table

The answers of a run of `Map` are those of a finite map whose entries are
listed in some order, which only changes when the map is written.
-/

set_option linter.unusedSectionVars false

namespace TinyCPlus.Std

open TinyCPlus.Library

variable {K V : Type} [Inhabited K] [Inhabited V] [BEq K]

namespace MapOp

/-- What a call does to the finite map. -/
def update (A : FiniteMap K V) : MapOp K V → FiniteMap K V
  | .put key value => A.put key value
  | .remove key => A.erase key
  | .clear => .empty
  | _ => A

/-- What a call answers when the entries of the finite map are listed in `order`. -/
def answer (A : FiniteMap K V) (order : List (K × V)) : MapOp K V → MapAnswer K V
  | .put key _ => .flag (!A.contains key)
  | .get key => .found ((A.lookup key).getD default) (A.lookup key).isSome
  | .getOr key fallback => .value ((A.lookup key).getD fallback)
  | .contains key => .flag (A.contains key)
  | .remove key => .flag (A.contains key)
  | .keys destination => .keys (destination ++ order.map Prod.fst)
  | .values destination => .values (destination ++ order.map Prod.snd)
  | .clear => .done

/-- The calls that do not write the map. -/
def reads : MapOp K V → Bool
  | .put _ _ | .remove _ | .clear => false
  | _ => true

end MapOp

/-- The calls of a run on a finite map and their answers, with the order its
entries are listed in. -/
inductive Explains : FiniteMap K V → List (K × V) → List (MapOp K V) →
    List (MapAnswer K V) → Prop where
  | nil {A : FiniteMap K V} {order : List (K × V)} : Explains A order [] []
  | cons {A : FiniteMap K V} {order order' : List (K × V)} {op : MapOp K V}
      {ops : List (MapOp K V)} {answers : List (MapAnswer K V)}
      (hperm : order'.Perm (op.update A).entries)
      (hreads : op.reads = true → order' = order)
      (hrest : Explains (op.update A) order' ops answers) :
      Explains A order (op :: ops) (op.answer A order :: answers)

namespace Map

variable {hash : K → UInt64} {heap : Heap} {m : Map K V}

/-- The table holds the entries of a finite map. -/
structure Represents (hash : K → UInt64) (m : Map K V) (A : FiniteMap K V) : Prop where
  inv : MapInv hash m
  perm : m.entries.Perm A.entries

namespace Represents

variable {A : FiniteMap K V}

theorem absent_iff (h : Represents hash m A) (key : K) :
    m.Absent key ↔ A.contains key = false := by
  rw [Map.absent_iff, FiniteMap.contains, List.any_eq_false]
  simp only [h.perm.mem_iff, Bool.not_eq_true]

variable [EquivBEq K]

/-- A search agrees with the lookup in the finite map. -/
theorem find_spec (h : Represents hash m A)
    (hhash : ∀ a b : K, (a == b) = true → hash a = hash b) (key : K) :
    (A.contains key = false ∧ A.lookup key = none ∧ m.find hash key = m.capacity) ∨
      (A.contains key = true ∧ A.lookup key = some (m.value (m.find hash key)) ∧
        m.find hash key < m.capacity) := by
  rcases h.inv.find_spec hhash key with ⟨habsent, hfind⟩ | ⟨hinv, -, hfind, hlive, hkey⟩
  · have hcontains := (h.absent_iff key).mp habsent
    refine Or.inl ⟨hcontains, ?_, hfind⟩
    rw [FiniteMap.lookup_eq_none_iff]
    intro e he
    exact Map.absent_iff.mp habsent e (h.perm.mem_iff.mpr he)
  · have hmem := h.perm.mem_iff.mp (mem_entries.mpr ⟨_, hfind, hlive, rfl⟩)
    refine Or.inr ⟨?_, ?_, hfind⟩
    · exact (A.contains_eq_true_iff key).mpr ⟨_, hmem, hkey⟩
    · exact (A.lookup_eq_some_iff key _).mpr ⟨_, hmem, hkey, rfl⟩

theorem put (h : Represents hash m A)
    (hhash : ∀ a b : K, (a == b) = true → hash a = hash b)
    (hheap : ∀ n size, heap.calloc n size = true → n < 2 ^ 60) (key : K) (value : V) :
    m.put hash heap key value = .error .allocation ∨
      ∃ m', m.put hash heap key value = .ok (m', !A.contains key) ∧
        Represents hash m' (A.put key value) := by
  rcases h.inv.find_spec hhash key with
    ⟨habsent, hfind⟩ | ⟨hinv, hload, hfind, hlive, hkey⟩
  · have hcontains := (h.absent_iff key).mp habsent
    rcases put_absent h.inv habsent hfind value hheap with hfail | ⟨m', hput, hinv', hperm⟩
    · exact Or.inl hfail
    · refine Or.inr ⟨m', by rw [hput, hcontains]; rfl, hinv', ?_⟩
      rw [FiniteMap.put, dif_neg (by simp [hcontains])]
      exact hperm.trans (h.perm.append_right _)
  · have hmem := h.perm.mem_iff.mp (mem_entries.mpr ⟨_, hfind, hlive, rfl⟩)
    have hcontains := (A.contains_eq_true_iff key).mpr ⟨_, hmem, hkey⟩
    obtain ⟨m', hput, hinv', hentries⟩ :=
      put_present heap hinv hload hfind hlive hkey value
    refine Or.inr ⟨m', by rw [hput, hcontains]; rfl, hinv', ?_⟩
    rw [FiniteMap.put, dif_pos hcontains, hentries]
    exact h.perm.map _

theorem remove (h : Represents hash m A)
    (hhash : ∀ a b : K, (a == b) = true → hash a = hash b) (key : K) :
    (m.remove hash key).2 = A.contains key ∧
      Represents hash (m.remove hash key).1 (A.erase key) := by
  rcases h.inv.find_spec hhash key with
    ⟨habsent, hfind⟩ | ⟨hinv, hload, hfind, hlive, hkey⟩
  · have hremove : m.remove hash key = (m, false) := by
      rw [Map.remove, if_pos hfind.ge]
    rw [hremove, (h.absent_iff key).mp habsent]
    refine ⟨rfl, h.inv, ?_⟩
    have hsame : (A.entries.filter fun e ↦ !(e.1 == key)) = A.entries := by
      rw [List.filter_eq_self]
      intro e he
      simpa using Map.absent_iff.mp habsent e (h.perm.mem_iff.mpr he)
    change m.entries.Perm (A.entries.filter _)
    rw [hsame]
    exact h.perm
  · have hmem := h.perm.mem_iff.mp (mem_entries.mpr ⟨_, hfind, hlive, rfl⟩)
    obtain ⟨hanswer, hinv', hentries⟩ := remove_present hinv hload hfind hlive hkey
    refine ⟨?_, hinv', ?_⟩
    · rw [hanswer, (A.contains_eq_true_iff key).mpr ⟨_, hmem, hkey⟩]
    · rw [hentries]
      exact h.perm.filter _

/-- One call, short of a failed allocation, does what the finite map does. -/
theorem apply (h : Represents hash m A)
    (hhash : ∀ a b : K, (a == b) = true → hash a = hash b)
    (hheap : ∀ n size, heap.calloc n size = true → n < 2 ^ 60) (op : MapOp K V) :
    m.apply hash heap op = .error .allocation ∨
      ∃ m', m.apply hash heap op = .ok (m', op.answer A m.entries) ∧
        Represents hash m' (op.update A) ∧ (op.reads = true → m' = m) := by
  cases op with
  | put key value =>
      rcases h.put hhash hheap key value with hfail | ⟨m', hput, hrep⟩
      · exact Or.inl (by rw [Map.apply, hfail]; rfl)
      · exact Or.inr ⟨m', by rw [Map.apply, hput]; rfl, hrep, by simp [MapOp.reads]⟩
  | get key =>
      refine Or.inr ⟨m, ?_, h, fun _ ↦ rfl⟩
      rcases h.find_spec hhash key with ⟨-, hlookup, hfind⟩ | ⟨-, hlookup, hfind⟩ <;>
        simp [Map.apply, MapOp.answer, Map.get, hlookup, hfind]
  | getOr key fallback =>
      refine Or.inr ⟨m, ?_, h, fun _ ↦ rfl⟩
      rcases h.find_spec hhash key with ⟨-, hlookup, hfind⟩ | ⟨-, hlookup, hfind⟩ <;>
        simp [Map.apply, MapOp.answer, Map.getOr, hlookup, hfind]
  | contains key =>
      refine Or.inr ⟨m, ?_, h, fun _ ↦ rfl⟩
      rcases h.find_spec hhash key with ⟨hcontains, -, hfind⟩ | ⟨hcontains, -, hfind⟩ <;>
        simp [Map.apply, MapOp.answer, Map.contains, hcontains, hfind]
  | remove key =>
      obtain ⟨hanswer, hrep⟩ := h.remove hhash key
      exact Or.inr ⟨_, by rw [Map.apply, hanswer]; rfl, hrep, by simp [MapOp.reads]⟩
  | keys destination =>
      exact Or.inr ⟨m, by rw [Map.apply, keys_eq]; rfl, h, fun _ ↦ rfl⟩
  | values destination =>
      exact Or.inr ⟨m, by rw [Map.apply, values_eq]; rfl, h, fun _ ↦ rfl⟩
  | clear =>
      obtain ⟨hinv, hnil⟩ := clear_spec h.inv
      refine Or.inr ⟨m.clear, rfl, ⟨hinv, ?_⟩, by simp [MapOp.reads]⟩
      rw [hnil]
      exact List.Perm.nil

/-- A run, short of a failed allocation, does what the finite map does. -/
theorem run (h : Represents hash m A)
    (hhash : ∀ a b : K, (a == b) = true → hash a = hash b)
    (hheap : ∀ n size, heap.calloc n size = true → n < 2 ^ 60) (ops : List (MapOp K V)) :
    m.run hash heap ops = .error .allocation ∨
      ∃ m' answers, m.run hash heap ops = .ok (m', answers) ∧
        Represents hash m' (ops.foldl MapOp.update A) ∧
        Explains A m.entries ops answers := by
  induction ops generalizing m A with
  | nil => exact Or.inr ⟨m, [], rfl, h, Explains.nil⟩
  | cons op ops ih =>
      rw [Map.run]
      rcases h.apply hhash hheap op with hfail | ⟨next, hnext, hrep, hreads⟩
      · exact Or.inl (by rw [hfail]; rfl)
      · rcases ih hrep with hfail | ⟨m', answers, hrun, hrep', hexplains⟩
        · exact Or.inl (by rw [hnext]; simp [bind, Except.bind, hfail])
        · refine Or.inr ⟨m', _, by rw [hnext]; simp [bind, Except.bind, hrun]; rfl, hrep', ?_⟩
          exact Explains.cons hrep.perm (fun hr ↦ by rw [hreads hr]) hexplains

end Represents

theorem represents_create : Represents hash (create : Map K V) .empty :=
  ⟨MapInv.create, List.Perm.nil⟩

/-- Every run on a new map whose allocations succeed ends, and its answers and
its length are those of a finite map. -/
theorem map_runs_as_finite_map [EquivBEq K] (hash : K → UInt64) (heap : Heap)
    (hhash : ∀ a b : K, (a == b) = true → hash a = hash b)
    (hheap : ∀ n size, heap.calloc n size = true → n < 2 ^ 60)
    (ops : List (MapOp K V))
    (halloc : (create : Map K V).run hash heap ops ≠ .error .allocation) :
    ∃ m answers, create.run hash heap ops = .ok (m, answers) ∧
      m.length = (ops.foldl MapOp.update (FiniteMap.empty : FiniteMap K V)).size ∧
      Explains .empty [] ops answers := by
  rcases represents_create.run hhash hheap ops with hfail | ⟨m, answers, hrun, hrep, hexplains⟩
  · exact absurd hfail halloc
  · refine ⟨m, answers, hrun, ?_, hexplains⟩
    rw [← hrep.inv.length_entries, hrep.perm.length_eq]
    rfl

/-- Two keys with one home: a replaced value, a removal, a listing. -/
theorem map_runs_as_finite_map_collision :
    let heap : Heap := ⟨8, 8, fun n _ ↦ n < 1000⟩
    let ops : List (MapOp ℕ ℕ) :=
      [.put 1 10, .put 2 20, .put 1 11, .remove 2, .get 1, .contains 2, .keys []]
    ∃ m answers, (create : Map ℕ ℕ).run (fun _ ↦ 7) heap ops = .ok (m, answers) ∧
      m.length = (ops.foldl MapOp.update (FiniteMap.empty : FiniteMap ℕ ℕ)).size ∧
      Explains .empty [] ops answers :=
  map_runs_as_finite_map (fun _ ↦ 7) ⟨8, 8, fun n _ ↦ n < 1000⟩ (fun _ _ _ ↦ rfl)
    (fun n _ h ↦ by simp at h; omega)
    [.put 1 10, .put 2 20, .put 1 11, .remove 2, .get 1, .contains 2, .keys []]
    (by decide +kernel)

end Map

end TinyCPlus.Std
