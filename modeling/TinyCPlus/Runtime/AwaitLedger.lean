import TinyCPlus.Library.History
import TinyCPlus.Runtime.Await

/-!
# What an await does to the references of its future

The history tells who took and gave back every reference.  While an await goes
on, what it did so far and what its code still does make up what the whole
code of the await does.
-/

namespace TinyCPlus.Runtime

open TinyCPlus.Library

variable {ι H : Type*}

namespace AwaitOutcome

/-- The await that an entry is about. -/
def await : AwaitOutcome H → Option ℕ
  | .began w _ _ => some w
  | .retained w _ => w
  | .released w _ _ => w
  | .ended w _ => some w

variable [DecidableEq H]

/-- The references that an entry adds to a future. -/
def change (h : H) : AwaitOutcome H → ℤ
  | .retained _ h' => if h' = h then 1 else 0
  | .released _ h' _ => if h' = h then -1 else 0
  | _ => 0

/-- The references that an entry adds to a future for an await. -/
def own (w : ℕ) (h : H) (x : AwaitOutcome H) : ℤ :=
  if x.await = some w then x.change h else 0

/-- The references that an entry adds to a future, but not for the await. -/
def foreign (w : ℕ) (h : H) (x : AwaitOutcome H) : ℤ :=
  if x.await = some w then 0 else x.change h

end AwaitOutcome

section Ledger

variable [DecidableEq H]

def references (h : H) (history : List (AwaitOutcome H)) : ℤ :=
  (history.map (AwaitOutcome.change h)).sum

/-- The references to `h` that the await `w` took and did not give back. -/
def contribution (w : ℕ) (h : H) (history : List (AwaitOutcome H)) : ℤ :=
  (history.map (AwaitOutcome.own w h)).sum

/-- The references to `h` as they were without the await `w`. -/
def without (w : ℕ) (h : H) (history : List (AwaitOutcome H)) : ℤ :=
  (history.map (AwaitOutcome.foreign w h)).sum

variable {w : ℕ} {h : H} {history xs : List (AwaitOutcome H)}

theorem references_append :
    references h (history ++ xs) = references h history + references h xs := by
  simp only [references, List.map_append, List.sum_append]

theorem contribution_append :
    contribution w h (history ++ xs) = contribution w h history + contribution w h xs := by
  simp only [contribution, List.map_append, List.sum_append]

theorem references_eq : references h history = without w h history + contribution w h history := by
  induction history with
  | nil => rfl
  | cons x rest ih =>
      simp only [references, without, contribution, List.map_cons, List.sum_cons] at ih ⊢
      have hx : x.change h = x.foreign w h + x.own w h := by
        unfold AwaitOutcome.foreign AwaitOutcome.own
        split <;> simp
      rw [ih, hx]
      ring

theorem contribution_eq_zero (hxs : ∀ x ∈ xs, x.await ≠ some w) : contribution w h xs = 0 := by
  apply List.sum_eq_zero
  intro n hn
  obtain ⟨x, hx, rfl⟩ := List.mem_map.mp hn
  exact if_neg (hxs x hx)

end Ledger

/-! ## The code of an await -/

namespace AwaitCode

/-- The references that a statement adds. -/
def adds : AwaitCode → ℤ
  | .retain => 1
  | .release => -1
  | _ => 0

end AwaitCode

/-- The references that the rest of an await still adds. -/
def due (code : List AwaitCode) : ℤ :=
  (code.map AwaitCode.adds).sum

def afterRetain (k : ℕ) : List AwaitCode :=
  [.state k, .jumpIfReady k, .thenReturn, .label k, .get, .release, .clear, .check]

def afterLabel (k : ℕ) : List AwaitCode :=
  [.label k, .get, .release, .clear, .check]

theorem awaitCode_eq (a : Operand) (k : ℕ) :
    awaitCode a k = .hold :: ((if a.retained then [.retain] else []) ++ afterRetain k) := rfl

theorem due_awaitCode (a : Operand) (k : ℕ) :
    due (awaitCode a k) = if a.retained then 0 else -1 := by
  unfold awaitCode
  cases a.retained <;> rfl

theorem goto_awaitCode (a : Operand) (k : ℕ) :
    AwaitCode.goto k (awaitCode a k) = afterLabel k := by
  unfold awaitCode AwaitCode.goto
  cases a.retained <;> simp [afterLabel]

theorem goto_afterJump (k : ℕ) :
    AwaitCode.goto k [.thenReturn, .label k, .get, .release, .clear, .check] = afterLabel k := by
  simp [AwaitCode.goto, afterLabel]

theorem resume_succ {f : AsyncFunction} {k : ℕ} {a : Operand} (ha : f.awaits[k]? = some a) :
    f.resume (k + 1) = afterLabel (k + 1) := by
  simp only [AsyncFunction.resume, ha, goto_awaitCode]

/-- What stands after a statement of an await. -/
def Follows (a : Operand) (k : ℕ) : AwaitCode → List AwaitCode → Prop
  | .hold, code => code = (if a.retained then [.retain] else []) ++ afterRetain k
  | .retain, code => a.retained = true ∧ code = afterRetain k
  | .state m, code => m = k ∧ code = .jumpIfReady k :: .thenReturn :: afterLabel k
  | .jumpIfReady m, code => m = k ∧ code = .thenReturn :: afterLabel k
  | .thenReturn, code => code = afterLabel k
  | .label m, code => m = k ∧ code = [.get, .release, .clear, .check]
  | .get, code => code = [.release, .clear, .check]
  | .release, code => code = [.clear, .check]
  | .clear, code => code = [.check]
  | .check, code => code = []

theorem follows_of_suffix {a : Operand} {k : ℕ} {c : AwaitCode} {code : List AwaitCode}
    (h : c :: code <:+ awaitCode a k) : Follows a k c code := by
  have htail {c : AwaitCode} {code : List AwaitCode} (h : c :: code <:+ afterRetain k) :
      Follows a k c code := by
    simp only [afterRetain, List.suffix_cons_iff, List.cons.injEq, List.suffix_nil] at h
    rcases h with ⟨rfl, rfl⟩ | ⟨rfl, rfl⟩ | ⟨rfl, rfl⟩ | ⟨rfl, rfl⟩ | ⟨rfl, rfl⟩ | ⟨rfl, rfl⟩ |
      ⟨rfl, rfl⟩ | ⟨rfl, rfl⟩ | h <;> first | exact ⟨rfl, rfl⟩ | rfl | cases h
  rw [awaitCode_eq, List.suffix_cons_iff] at h
  rcases h with h | h
  · injection h with hc hcode
    subst hc
    exact hcode
  · cases hretained : a.retained with
    | false =>
        rw [hretained] at h
        exact htail h
    | true =>
        rw [hretained, if_pos rfl, List.cons_append, List.nil_append, List.suffix_cons_iff] at h
        rcases h with h | h
        · injection h with hc hcode
          subst hc
          exact ⟨hretained, hcode⟩
        · exact htail h

/-- The code that a frame has left. -/
def AsyncFrame.rest (f : AsyncFrame H) : List AwaitCode :=
  if f.suspended then f.function.resume f.state else f.code

theorem rest_of_running {f : AsyncFrame H} (hrun : f.suspended = false) {code : List AwaitCode}
    (hcode : f.code = code) : f.rest = code := by
  rw [AsyncFrame.rest, hrun, ← hcode]
  rfl

variable [DecidableEq H]

/-- What an await whose code is done has added to the references of `h'`. -/
def settled (a : Operand) (h h' : H) : ℤ :=
  if h' = h then (if a.retained then 0 else -1) else 0

theorem contribution_snoc {history : List (AwaitOutcome H)} {x : AwaitOutcome H} {w : ℕ}
    (hx : x.await ≠ some w) (h : H) :
    contribution w h (history ++ [x]) = contribution w h history := by
  have hzero : contribution w h [x] = 0 :=
    contribution_eq_zero fun y hy ↦ List.mem_singleton.mp hy ▸ hx
  rw [contribution_append, hzero, add_zero]

/-- An await of state `k + 1` that has `code` left. -/
structure Underway (history : List (AwaitOutcome H)) (f : AsyncFrame H) (k : ℕ) (a : Operand)
    (code : List AwaitCode) : Prop where
  site : f.function.awaits[k]? = some a
  began : .began f.await a f.operand ∈ history
  unended : ∀ e, .ended f.await e ∉ history
  suffix : code <:+ awaitCode a (k + 1)
  waiting : AwaitCode.hold ∉ code → AwaitCode.clear ∈ code → f.waiting = some f.operand
  state : AwaitCode.state (k + 1) ∉ code → f.state = k + 1
  own : ∀ h, contribution f.await h history + (if h = f.operand then due code else 0) =
    settled a f.operand h

/-- The history as far as it tells about awaits; `awaits` of them have begun. -/
structure Settled (history : List (AwaitOutcome H)) (awaits : ℕ) : Prop where
  numbered : ∀ x ∈ history, ∀ w, x.await = some w → w < awaits
  once : ∀ {w a a' h h'}, .began w a h ∈ history → .began w a' h' ∈ history → a = a' ∧ h = h'
  ended : ∀ {w a h e}, .began w a h ∈ history → .ended w e ∈ history →
    ∀ h', contribution w h' history = settled a h h'
  last : Each (fun pre x ↦ ∀ w h, x = .released (some w) h true → ∃ a h', .began w a h' ∈ pre ∧
    (a.retained = true → ((without w h pre : ℤ) : BitVec 64) = 0)) history

structure Progress (frames : ι → Option (AsyncFrame H)) (history : List (AwaitOutcome H))
    (awaits : ℕ) : Prop where
  settled : Settled history awaits
  underway : ∀ {i f}, frames i = some f → f.rest ≠ [] → ∃ k a, Underway history f k a f.rest
  distinct : ∀ {i j f g}, frames i = some f → frames j = some g → f.rest ≠ [] → g.rest ≠ [] →
    f.await = g.await → i = j

theorem Underway.snoc {history : List (AwaitOutcome H)} {f : AsyncFrame H} {k : ℕ} {a : Operand}
    {code : List AwaitCode} (h : Underway history f k a code) {x : AwaitOutcome H}
    (hx : x.await ≠ some f.await) : Underway (history ++ [x]) f k a code where
  site := h.site
  began := List.mem_append_left _ h.began
  unended := by
    intro e he
    rcases List.mem_append.mp he with he | he
    · exact h.unended e he
    · rw [← List.mem_singleton.mp he] at hx
      exact hx rfl
  suffix := h.suffix
  waiting := h.waiting
  state := h.state
  own := by
    intro h'
    rw [contribution_snoc hx]
    exact h.own h'

/-- The await goes on to a later place of its code. -/
theorem Underway.move {history : List (AwaitOutcome H)} {f g : AsyncFrame H} {k : ℕ} {a : Operand}
    {code code' : List AwaitCode} (h : Underway history f k a code)
    (hfunction : g.function = f.function) (hawait : g.await = f.await)
    (hoperand : g.operand = f.operand) (hsuffix : code' <:+ code) (hdue : due code' = due code)
    (hwaiting : AwaitCode.hold ∉ code' → AwaitCode.clear ∈ code' → g.waiting = some f.operand)
    (hstate : AwaitCode.state (k + 1) ∉ code' → g.state = k + 1) :
    Underway history g k a code' where
  site := hfunction ▸ h.site
  began := hawait ▸ hoperand ▸ h.began
  unended := hawait ▸ h.unended
  suffix := hsuffix.trans h.suffix
  waiting := hoperand ▸ hwaiting
  state := hstate
  own := by
    intro h'
    rw [hawait, hoperand, hdue]
    exact h.own h'

theorem due_cons (c : AwaitCode) (code : List AwaitCode) : due (c :: code) = c.adds + due code := by
  simp only [due, List.map_cons, List.sum_cons]

/-- An await counts the reference that it takes or gives back. -/
theorem Underway.count {history : List (AwaitOutcome H)} {f : AsyncFrame H} {k : ℕ} {a : Operand}
    {c : AwaitCode} {code : List AwaitCode} (h : Underway history f k a (c :: code))
    (hhold : c ≠ .hold) (hstate : c ≠ .state (k + 1)) {x : AwaitOutcome H}
    (hx : x.await = some f.await) (hend : ∀ w e, x ≠ .ended w e)
    (hchange : ∀ h', x.change h' = if h' = f.operand then c.adds else 0) :
    Underway (history ++ [x]) { f with code := code } k a code where
  site := h.site
  began := List.mem_append_left _ h.began
  unended := by
    intro e he
    rcases List.mem_append.mp he with he | he
    · exact h.unended e he
    · exact hend _ e (List.mem_singleton.mp he).symm
  suffix := (List.suffix_cons c code).trans h.suffix
  waiting := by
    intro hnot hmem
    refine h.waiting ?_ (List.mem_cons_of_mem c hmem)
    intro hold
    rcases List.mem_cons.mp hold with hold | hold
    · exact hhold hold.symm
    · exact hnot hold
  state := by
    intro hnot
    refine h.state fun hmem ↦ ?_
    rcases List.mem_cons.mp hmem with hmem | hmem
    · exact hstate hmem.symm
    · exact hnot hmem
  own := by
    intro h'
    have hown := h.own h'
    have hone : contribution f.await h' [x] = if h' = f.operand then c.adds else 0 := by
      simp [contribution, AwaitOutcome.own, hx, hchange]
    rw [due_cons] at hown
    rw [contribution_append, hone, ← hown]
    split <;> ring

/-- An entry may be added if it belongs to no await that ended. -/
theorem Settled.snoc {history : List (AwaitOutcome H)} {n m : ℕ} (h : Settled history n)
    (hnm : n ≤ m) {x : AwaitOutcome H} (hnum : ∀ w, x.await = some w → w < m)
    (honce : ∀ w a h, x = .began w a h → ∀ y ∈ history, y.await ≠ some w)
    (hopen : ∀ w e, .ended w e ∈ history → x.await ≠ some w)
    (hend : ∀ w e, x = .ended w e → ∀ a h, .began w a h ∈ history →
      ∀ h', contribution w h' history = settled a h h')
    (hlast : ∀ w h, x = .released (some w) h true → ∃ a h', .began w a h' ∈ history ∧
      (a.retained = true → ((without w h history : ℤ) : BitVec 64) = 0)) :
    Settled (history ++ [x]) m where
  numbered := by
    intro y hy w hw
    rcases List.mem_append.mp hy with hy | hy
    · exact (h.numbered y hy w hw).trans_le hnm
    · rw [List.mem_singleton.mp hy] at hw
      exact hnum w hw
  once := by
    intro w a a' h₁ h₂ hb hb'
    rcases List.mem_append.mp hb with hb | hb <;> rcases List.mem_append.mp hb' with hb' | hb'
    · exact h.once hb hb'
    · exact absurd rfl (honce w a' h₂ (List.mem_singleton.mp hb').symm _ hb)
    · exact absurd rfl (honce w a h₁ (List.mem_singleton.mp hb).symm _ hb')
    · have hsame := (List.mem_singleton.mp hb).trans (List.mem_singleton.mp hb').symm
      injection hsame with _ ha hh
      exact ⟨ha, hh⟩
  ended := by
    intro w a h₁ e hb he h'
    rcases List.mem_append.mp he with he | he
    · have hx := hopen w e he
      rcases List.mem_append.mp hb with hb | hb
      · rw [contribution_snoc hx]
        exact h.ended hb he h'
      · rw [← List.mem_singleton.mp hb] at hx
        exact absurd rfl hx
    · have hx := (List.mem_singleton.mp he).symm
      rcases List.mem_append.mp hb with hb | hb
      · rw [contribution_append, hend w e hx a h₁ hb h', hx]
        simp [contribution, AwaitOutcome.own, AwaitOutcome.change]
      · rw [← List.mem_singleton.mp hb] at hx
        cases hx
  last := h.last.snoc hlast

/-- What the code outside of the awaits does. -/
theorem Settled.foreign {history : List (AwaitOutcome H)} {n : ℕ} (h : Settled history n)
    {x : AwaitOutcome H} (hx : x.await = none) : Settled (history ++ [x]) n := by
  refine h.snoc le_rfl ?_ ?_ ?_ ?_ ?_
  · intro w hw
    rw [hx] at hw
    cases hw
  · rintro w a h' rfl
    cases hx
  · intro w e _ hw
    rw [hx] at hw
    cases hw
  · rintro w e rfl
    cases hx
  · rintro w h' rfl
    cases hx

namespace Progress

variable {frames : ι → Option (AsyncFrame H)} {history : List (AwaitOutcome H)} {n : ℕ}

theorem foreign (h : Progress frames history n) {x : AwaitOutcome H} (hx : x.await = none) :
    Progress frames (history ++ [x]) n where
  settled := h.settled.foreign hx
  underway := by
    intro i f hf hne
    obtain ⟨k, a, hway⟩ := h.underway hf hne
    exact ⟨k, a, hway.snoc (by simp [hx])⟩
  distinct := h.distinct

variable [DecidableEq ι] {i : ι} {f g : AsyncFrame H}

/-- A frame may change if no await goes on in it, or if the await goes on. -/
theorem setFrame (h : Progress frames history n) {x : Option (AsyncFrame H)}
    (hx : ∀ g, x = some g → g.rest ≠ [] → (∃ k a, Underway history g k a g.rest) ∧
      ∃ f, frames i = some f ∧ f.rest ≠ [] ∧ f.await = g.await) :
    Progress (Function.update frames i x) history n where
  settled := h.settled
  underway := by
    intro j f hf hne
    by_cases hj : j = i
    · subst hj
      rw [Function.update_self] at hf
      exact (hx f hf hne).1
    · rw [Function.update_of_ne hj] at hf
      exact h.underway hf hne
  distinct := by
    intro j l f g hf hg hfne hgne hsame
    by_cases hj : j = i <;> by_cases hl : l = i
    · rw [hj, hl]
    · subst hj
      rw [Function.update_self] at hf
      rw [Function.update_of_ne hl] at hg
      obtain ⟨_, f', hf', hne', hawait⟩ := hx f hf hfne
      exact h.distinct hf' hg hne' hgne (hawait.trans hsame)
    · subst hl
      rw [Function.update_of_ne hj] at hf
      rw [Function.update_self] at hg
      obtain ⟨_, g', hg', hne', hawait⟩ := hx g hg hgne
      exact h.distinct hf hg' hfne hne' (hsame.trans hawait.symm)
    · rw [Function.update_of_ne hj] at hf
      rw [Function.update_of_ne hl] at hg
      exact h.distinct hf hg hfne hgne hsame

/-- An entry of the await that goes on in a frame, together with the frame's change. -/
theorem act (h : Progress frames history n) (hf : frames i = some f) (hne : f.rest ≠ [])
    {x : AwaitOutcome H} (hx : x.await = some f.await)
    (hsettled : Settled (history ++ [x]) n)
    (hg : g.rest ≠ [] → g.await = f.await ∧ ∃ k a, Underway (history ++ [x]) g k a g.rest) :
    Progress (Function.update frames i (some g)) (history ++ [x]) n := by
  have hothers {j : ι} {f' : AsyncFrame H} (hj : j ≠ i) (hf' : frames j = some f')
      (hne' : f'.rest ≠ []) : x.await ≠ some f'.await := by
    intro hsame
    exact hj (h.distinct hf' hf hne' hne (Option.some.inj (hsame.symm.trans hx)))
  constructor
  · exact hsettled
  · intro j f' hf' hne'
    by_cases hj : j = i
    · subst hj
      rw [Function.update_self, Option.some.injEq] at hf'
      subst hf'
      exact (hg hne').2
    · rw [Function.update_of_ne hj] at hf'
      obtain ⟨k, a, hway⟩ := h.underway hf' hne'
      exact ⟨k, a, hway.snoc (hothers hj hf' hne')⟩
  · intro j l f₁ f₂ hf₁ hf₂ hne₁ hne₂ hsame
    by_cases hj : j = i <;> by_cases hl : l = i
    · rw [hj, hl]
    · subst hj
      rw [Function.update_self, Option.some.injEq] at hf₁
      rw [Function.update_of_ne hl] at hf₂
      subst hf₁
      exact h.distinct hf hf₂ hne hne₂ ((hg hne₁).1.symm.trans hsame)
    · subst hl
      rw [Function.update_of_ne hj] at hf₁
      rw [Function.update_self, Option.some.injEq] at hf₂
      subst hf₂
      exact h.distinct hf₁ hf hne₁ hne (hsame.trans (hg hne₂).1)
    · rw [Function.update_of_ne hj] at hf₁
      rw [Function.update_of_ne hl] at hf₂
      exact h.distinct hf₁ hf₂ hne₁ hne₂ hsame

/-- An await begins in a frame where none goes on. -/
theorem begin (h : Progress frames history n) {k : ℕ} {a : Operand}
    (hsite : g.function.awaits[k]? = some a) (hrest : g.rest = awaitCode a (k + 1))
    (hawait : g.await = n) :
    Progress (Function.update frames i (some g)) (history ++ [.began n a g.operand]) (n + 1) := by
  have hfresh {x : AwaitOutcome H} (hx : x ∈ history) : x.await ≠ some n := by
    intro hn
    exact lt_irrefl n (h.settled.numbered x hx n hn)
  have hcontribution (h' : H) : contribution n h' (history ++ [.began n a g.operand]) = 0 := by
    have hold : contribution n h' history = 0 := contribution_eq_zero fun x hx ↦ hfresh hx
    rw [contribution_append, hold, zero_add]
    simp [contribution, AwaitOutcome.own, AwaitOutcome.change]
  have hother {f : AsyncFrame H} {k : ℕ} {a' : Operand} {code : List AwaitCode}
      (hway : Underway history f k a' code) :
      (AwaitOutcome.began n a g.operand).await ≠ some f.await := by
    intro hsame
    exact hfresh hway.began hsame.symm
  have hway : Underway (history ++ [.began n a g.operand]) g k a g.rest := by
    constructor
    · exact hsite
    · rw [hawait]
      exact List.mem_append_right _ (List.mem_singleton.mpr rfl)
    · intro e he
      rw [hawait] at he
      rcases List.mem_append.mp he with he | he
      · exact hfresh he rfl
      · cases List.mem_singleton.mp he
    · rw [hrest]
    · intro hhold
      rw [hrest] at hhold
      exact absurd (List.mem_cons_self) hhold
    · intro hstate
      rw [hrest, awaitCode_eq] at hstate
      simp [afterRetain] at hstate
    · intro h'
      rw [hawait, hcontribution, zero_add, hrest, due_awaitCode]
      rfl
  constructor
  · refine h.settled.snoc (Nat.le_succ n) ?_ ?_ ?_ ?_ ?_
    · intro w hw
      cases hw
      exact Nat.lt_succ_self n
    · intro w a' h' hsame y hy
      cases hsame
      exact hfresh hy
    · intro w e he hw
      cases hw
      exact hfresh he rfl
    · intro w e hsame
      cases hsame
    · intro w h' hsame
      cases hsame
  · intro j f hf hne
    by_cases hj : j = i
    · subst hj
      rw [Function.update_self, Option.some.injEq] at hf
      subst hf
      exact ⟨k, a, hway⟩
    · rw [Function.update_of_ne hj] at hf
      obtain ⟨k', a', hway'⟩ := h.underway hf hne
      exact ⟨k', a', hway'.snoc (hother hway')⟩
  · intro j l f₁ f₂ hf₁ hf₂ hne₁ hne₂ hsame
    by_cases hj : j = i <;> by_cases hl : l = i
    · rw [hj, hl]
    · subst hj
      rw [Function.update_self, Option.some.injEq] at hf₁
      rw [Function.update_of_ne hl] at hf₂
      subst hf₁
      obtain ⟨_, _, hway₂⟩ := h.underway hf₂ hne₂
      exact absurd (congrArg some (hawait.symm.trans hsame)) (hother hway₂)
    · subst hl
      rw [Function.update_of_ne hj] at hf₁
      rw [Function.update_self, Option.some.injEq] at hf₂
      subst hf₂
      obtain ⟨_, _, hway₁⟩ := h.underway hf₁ hne₁
      exact absurd (congrArg some (hawait.symm.trans hsame.symm)) (hother hway₁)
    · rw [Function.update_of_ne hj] at hf₁
      rw [Function.update_of_ne hl] at hf₂
      exact h.distinct hf₁ hf₂ hne₁ hne₂ hsame

end Progress

end TinyCPlus.Runtime
