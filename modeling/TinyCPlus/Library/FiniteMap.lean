import Mathlib

/-!
# Finite maps as lists of entries

A finite map over a key type with an equivalence `==`: a list of entries
whose keys are pairwise different.  The order of the list carries no meaning,
so results about one list transfer to every permutation of it.
-/

namespace TinyCPlus.Library

variable {K V : Type*} [BEq K]

/-- No two entries have equal keys. -/
def DistinctKeys (l : List (K × V)) : Prop :=
  l.Pairwise fun a b ↦ (a.1 == b.1) = false

structure FiniteMap (K V : Type*) [BEq K] where
  entries : List (K × V)
  distinct : DistinctKeys entries

namespace FiniteMap

def lookup (m : FiniteMap K V) (key : K) : Option V :=
  (m.entries.find? fun e ↦ e.1 == key).map Prod.snd

def contains (m : FiniteMap K V) (key : K) : Bool :=
  m.entries.any fun e ↦ e.1 == key

def size (m : FiniteMap K V) : ℕ := m.entries.length

def empty : FiniteMap K V := ⟨[], List.Pairwise.nil⟩

/-- The entry with `value` stored under the key when the key is `key`. -/
def replaceValue (key : K) (value : V) (e : K × V) : K × V :=
  if e.1 == key then (e.1, value) else e

@[simp] theorem replaceValue_fst (key : K) (value : V) (e : K × V) :
    (replaceValue key value e).1 = e.1 := by
  rw [replaceValue]
  split <;> rfl

theorem DistinctKeys.map_replaceValue {l : List (K × V)} (h : DistinctKeys l)
    (key : K) (value : V) : DistinctKeys (l.map (replaceValue key value)) := by
  refine List.Pairwise.map _ ?_ h
  intro a b hab
  simpa using hab

theorem not_beq_of_not_any {l : List (K × V)} {key : K}
    (h : (l.any fun e ↦ e.1 == key) = false) {e : K × V} (he : e ∈ l) :
    (e.1 == key) = false := by
  rw [List.any_eq_false] at h
  simpa using h e he

theorem DistinctKeys.append_new {l : List (K × V)} (h : DistinctKeys l)
    {key : K} (hnew : (l.any fun e ↦ e.1 == key) = false) (value : V) :
    DistinctKeys (l ++ [(key, value)]) := by
  refine List.pairwise_append.mpr ⟨h, List.pairwise_singleton _ _, ?_⟩
  intro a ha b hb
  rw [List.mem_singleton] at hb
  rw [hb]
  exact not_beq_of_not_any hnew ha

/-- Stores `value` under `key`, keeping the key object already present. -/
def put (m : FiniteMap K V) (key : K) (value : V) : FiniteMap K V :=
  if h : m.contains key = true then
    ⟨m.entries.map (replaceValue key value), DistinctKeys.map_replaceValue m.distinct key value⟩
  else
    ⟨m.entries ++ [(key, value)],
      DistinctKeys.append_new m.distinct (Bool.eq_false_of_not_eq_true h) value⟩

def erase (m : FiniteMap K V) (key : K) : FiniteMap K V :=
  ⟨m.entries.filter fun e ↦ !(e.1 == key), m.distinct.sublist List.filter_sublist⟩

theorem contains_eq_true_iff (m : FiniteMap K V) (key : K) :
    m.contains key = true ↔ ∃ e ∈ m.entries, (e.1 == key) = true := by
  rw [contains, List.any_eq_true]

theorem lookup_eq_none_iff (m : FiniteMap K V) (key : K) :
    m.lookup key = none ↔ ∀ e ∈ m.entries, (e.1 == key) = false := by
  rw [lookup, Option.map_eq_none_iff, List.find?_eq_none]
  simp

variable [EquivBEq K]

/-- In a list with distinct keys, an entry is found exactly by its key. -/
theorem find?_eq_some_iff {l : List (K × V)} (h : DistinctKeys l) (key : K)
    (e : K × V) :
    (l.find? fun e ↦ e.1 == key) = some e ↔ e ∈ l ∧ (e.1 == key) = true := by
  constructor
  · intro hfind
    exact ⟨List.mem_of_find?_eq_some hfind, by simpa using List.find?_some hfind⟩
  · rintro ⟨hmem, hkey⟩
    induction l with
    | nil => simp at hmem
    | cons a l ih =>
        obtain ⟨hhead, htail⟩ := List.pairwise_cons.mp h
        rw [List.find?_cons]
        rcases List.mem_cons.mp hmem with rfl | hmem
        · simp [hkey]
        · have hane : (a.1 == key) = false := by
            by_contra hcon
            rw [Bool.not_eq_false] at hcon
            have hae : (a.1 == e.1) = true :=
              BEq.trans hcon (BEq.symm hkey)
            rw [hhead e hmem] at hae
            exact absurd hae (by simp)
          rw [hane]
          exact ih htail hmem

theorem lookup_eq_some_iff (m : FiniteMap K V) (key : K) (value : V) :
    m.lookup key = some value ↔
      ∃ e ∈ m.entries, (e.1 == key) = true ∧ e.2 = value := by
  rw [lookup, Option.map_eq_some_iff]
  constructor
  · rintro ⟨e, hfind, hvalue⟩
    obtain ⟨hmem, hkey⟩ := (find?_eq_some_iff m.distinct key e).mp hfind
    exact ⟨e, hmem, hkey, hvalue⟩
  · rintro ⟨e, hmem, hkey, hvalue⟩
    exact ⟨e, (find?_eq_some_iff m.distinct key e).mpr ⟨hmem, hkey⟩, hvalue⟩

end FiniteMap

end TinyCPlus.Library
