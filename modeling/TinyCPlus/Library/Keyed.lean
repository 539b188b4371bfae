import Mathlib

/-!
# Records in one list

Several parties keep a record each in one list.  An event names the party it is for, and is
answered from the first record of that party, whatever else the list holds.  Then the
parties do not see each other: what becomes of the records of one of them, and what its
events are answered, is what the list of its records alone and its events alone give.
-/

namespace TinyCPlus.Library

/-- What an event does to the list: nothing, or the record found is replaced or removed, or
a record is put in front. -/
inductive Change (R : Type*) where
  | keep
  | replace (record : R)
  | push (record : R)
  | remove

namespace Change

variable {R : Type*} (own : R → Bool)

def apply (records : List R) : Change R → List R
  | keep => records
  | replace record => records.replaceF fun r ↦ if own r then some record else none
  | push record => record :: records
  | remove => records.eraseP own

/-- The record that a change brings in, if any, is one of the party's own. -/
def Own : Change R → Prop
  | keep => True
  | replace record => own record = true
  | push record => own record = true
  | remove => True

end Change

section Lists

variable {R : Type*} (own : R → Bool) (records : List R)

theorem find?_filter_self : (records.filter own).find? own = records.find? own := by
  induction records with
  | nil => rfl
  | cons r rest ih =>
      by_cases hr : own r
      · simp [hr]
      · simp [hr, ih]

theorem filter_replaceF_self {record : R} (h : own record = true) :
    (records.replaceF fun r ↦ if own r then some record else none).filter own =
      (records.filter own).replaceF fun r ↦ if own r then some record else none := by
  induction records with
  | nil => rfl
  | cons r rest ih =>
      by_cases hr : own r
      · simp [List.replaceF, hr, h]
      · simp [List.replaceF, hr, ih]

theorem filter_replaceF_other {own other : R → Bool} {record : R}
    (hrecord : other record = false) (h : ∀ r, own r = true → other r = false) :
    (records.replaceF fun r ↦ if own r then some record else none).filter other =
      records.filter other := by
  induction records with
  | nil => rfl
  | cons r rest ih =>
      by_cases hr : own r
      · simp [List.replaceF, hr, hrecord, h r hr]
      · simp only [List.replaceF, hr, Bool.false_eq_true, if_false, List.filter_cons, ih]

theorem filter_eraseP_self :
    (records.eraseP own).filter own = (records.filter own).eraseP own := by
  induction records with
  | nil => rfl
  | cons r rest ih =>
      by_cases hr : own r
      · simp [hr]
      · simp [hr, ih]

theorem filter_eraseP_other {own other : R → Bool} (h : ∀ r, own r = true → other r = false) :
    (records.eraseP own).filter other = records.filter other := by
  induction records with
  | nil => rfl
  | cons r rest ih =>
      by_cases hr : own r
      · simp [hr, h r hr]
      · simp only [List.eraseP_cons, hr, cond_false, List.filter_cons, ih]

end Lists

namespace Change

variable {R : Type*} {own other : R → Bool} {records : List R}

/-- A change of a party's own records can be made on these alone. -/
theorem filter_apply_self {change : Change R} (h : change.Own own) :
    (change.apply own records).filter own = change.apply own (records.filter own) := by
  cases change with
  | keep => rfl
  | replace record => exact filter_replaceF_self own records h
  | push record => exact List.filter_cons_of_pos h
  | remove => exact filter_eraseP_self own records

/-- The records of another party stay. -/
theorem filter_apply_other {change : Change R} (h : change.Own own)
    (hother : ∀ r, own r = true → other r = false) :
    (change.apply own records).filter other = records.filter other := by
  cases change with
  | keep => rfl
  | replace record => exact filter_replaceF_other records (hother record h) hother
  | push record =>
      exact List.filter_cons_of_neg (by rw [hother record h]; exact Bool.false_ne_true)
  | remove => exact filter_eraseP_other records hother

end Change

/-- Parties `K` with records `R`, events `E` and answers `O`. -/
structure Keyed (K R E O : Type*) [DecidableEq K] where
  key : R → K
  address : E → K
  react : E → Option R → Change R × O
  own : ∀ e found, (∀ r ∈ found, key r = address e) →
    (react e found).1.Own fun r ↦ decide (key r = address e)

namespace Keyed

variable {K R E O : Type*} [DecidableEq K] (m : Keyed K R E O)

/-- The records of one party. -/
def ofKey (k : K) (r : R) : Bool := decide (m.key r = k)

theorem ofKey_iff {k : K} {r : R} : m.ofKey k r = true ↔ m.key r = k := decide_eq_true_iff

def found (records : List R) (e : E) : Option R := records.find? (m.ofKey (m.address e))

def step (records : List R) (e : E) : List R × O :=
  let answer := m.react e (m.found records e)
  (answer.1.apply (m.ofKey (m.address e)) records, answer.2)

/-- The records behind a run, and the answers with the party that each one is for. -/
def run (records : List R) : List E → List R × List (K × O)
  | [] => (records, [])
  | e :: rest =>
      let next := m.step records e
      let last := run next.1 rest
      (last.1, (m.address e, next.2) :: last.2)

theorem own_react (records : List R) (e : E) :
    (m.react e (m.found records e)).1.Own (m.ofKey (m.address e)) :=
  m.own e _ fun _ hr ↦ m.ofKey_iff.mp (List.find?_some hr)

/-- The event of a party is answered from the records of that party. -/
theorem step_own (records : List R) (e : E) :
    m.step (records.filter (m.ofKey (m.address e))) e =
      ((m.step records e).1.filter (m.ofKey (m.address e)), (m.step records e).2) := by
  have hfound : m.found (records.filter (m.ofKey (m.address e))) e = m.found records e :=
    find?_filter_self _ records
  simp only [step, hfound, Change.filter_apply_self (m.own_react records e)]

/-- The event of a party leaves the records of the others alone. -/
theorem step_other (records : List R) {e : E} {k : K} (h : m.address e ≠ k) :
    (m.step records e).1.filter (m.ofKey k) = records.filter (m.ofKey k) := by
  refine Change.filter_apply_other (m.own_react records e) fun r hr ↦ ?_
  rw [ofKey_iff] at hr
  exact decide_eq_false (hr ▸ h)

/-- A run seen by one party is the run of its records and its events. -/
theorem run_ofKey (records : List R) (events : List E) (k : K) :
    m.run (records.filter (m.ofKey k)) (events.filter fun e ↦ decide (m.address e = k)) =
      ((m.run records events).1.filter (m.ofKey k),
        (m.run records events).2.filter fun o ↦ decide (o.1 = k)) := by
  induction events generalizing records with
  | nil => rfl
  | cons e rest ih =>
      by_cases he : m.address e = k
      · have hown := m.step_own records e
        rw [he] at hown
        simp only [List.filter_cons, he, decide_true, if_true, run, hown, ih]
      · have hother := m.step_other records he
        simp only [List.filter_cons, he, decide_false, Bool.false_eq_true, if_false, run]
        rw [← ih, hother]

end Keyed

end TinyCPlus.Library
