import TinyCPlus.Runtime.AwaitLedger
import TinyCPlus.Runtime.AwaitQueue

/-!
# Awaits in a run

Every step keeps the counts of references, the places of the frames that wait
and the progress of the awaits.
-/

namespace TinyCPlus.Runtime

open TinyCPlus.Library

variable {ι H : Type*} [DecidableEq H]

/-- The futures that a frame can reach were created. -/
structure Knows (futures : H → AwaitedFuture ι) (f : AsyncFrame H) : Prop where
  waiting : ∀ h, f.waiting = some h → (futures h).created = true
  operand : (futures f.operand).created = true
  future : (futures f.future).created = true

/-- The reference count of every future is what the history makes it, and it
is zero before the future is created. -/
structure Counted (s : AwaitSystem ι H) : Prop where
  refs : ∀ h, (s.futures h).refs = ((references h s.history : ℤ) : BitVec 64)
  fresh : ∀ h, (s.futures h).created = false → (s.futures h).refs = 0
  known : ∀ {i f}, s.frames i = some f → Knows s.futures f

omit [DecidableEq H] in
theorem Knows.mono {futures futures' : H → AwaitedFuture ι} {f : AsyncFrame H}
    (hf : Knows futures f)
    (hmono : ∀ h, (futures h).created = true → (futures' h).created = true) : Knows futures' f :=
  ⟨fun h hw ↦ hmono h (hf.waiting h hw), hmono _ hf.operand, hmono _ hf.future⟩

namespace Counted

theorem references_snoc (h : H) (history : List (AwaitOutcome H)) (x : AwaitOutcome H) :
    references h (history ++ [x]) = references h history + x.change h := by
  rw [references_append]
  simp [references]

variable {s t : AwaitSystem ι H} {h : H} {w : Option ℕ}

/-- What changes no count and creates no future. -/
theorem same (hs : Counted s) (hframes : t.frames = s.frames)
    (hcreated : ∀ h, (t.futures h).created = (s.futures h).created)
    (hrefs : ∀ h, (t.futures h).refs = (s.futures h).refs)
    (hhistory : ∀ h, references h t.history = references h s.history) : Counted t where
  refs := by
    intro h
    rw [hrefs, hhistory]
    exact hs.refs h
  fresh := by
    intro h hh
    rw [hrefs]
    exact hs.fresh h ((hcreated h).symm.trans hh)
  known := by
    intro i f hf
    refine (hs.known (hframes ▸ hf)).mono fun h hh ↦ ?_
    rw [hcreated]
    exact hh

/-- A count changes with the history, of a future that there is afterwards. -/
theorem change (hs : Counted s) {x : AwaitedFuture ι} {y : AwaitOutcome H}
    (hframes : t.frames = s.frames) (hfutures : t.futures = Function.update s.futures h x)
    (hcreated : x.created = true) (hhistory : t.history = s.history ++ [y])
    (hx : x.refs = (s.futures h).refs + ((y.change h : ℤ) : BitVec 64))
    (hy : ∀ h', h' ≠ h → y.change h' = 0) : Counted t := by
  have hmono (h' : H) (hh : (s.futures h').created = true) : (t.futures h').created = true := by
    rw [hfutures]
    by_cases hsame : h' = h
    · rw [hsame, Function.update_self]
      exact hcreated
    · rw [Function.update_of_ne hsame]
      exact hh
  constructor
  · intro h'
    rw [hfutures, hhistory, references_snoc, Int.cast_add, ← hs.refs h']
    by_cases hsame : h' = h
    · rw [hsame, Function.update_self, hx]
    · rw [Function.update_of_ne hsame, hy h' hsame, Int.cast_zero, add_zero]
  · intro h' hh
    rw [hfutures] at hh ⊢
    by_cases hsame : h' = h
    · rw [hsame, Function.update_self, hcreated] at hh
      cases hh
    · rw [Function.update_of_ne hsame] at hh ⊢
      exact hs.fresh h' hh
  · intro i f hf
    exact (hs.known (hframes ▸ hf)).mono hmono

theorem touch (hs : Counted s) (h : H) : Counted (s.touch h) :=
  hs.same (s.touch_frames h) (fun _ ↦ by rw [s.touch_futures]) (fun _ ↦ by rw [s.touch_futures])
    (fun _ ↦ by rw [s.touch_history])

theorem create (hs : Counted s) (hh : (s.futures h).created = false) : Counted (s.create h) := by
  refine hs.change rfl rfl rfl rfl ?_ ?_
  · rw [hs.fresh h hh]
    simp [AwaitOutcome.change]
  · intro h' hne
    simp [AwaitOutcome.change, Ne.symm hne]

theorem retain (hs : Counted s) (hh : (s.futures h).created = true) (w : Option ℕ) :
    Counted (s.retain w h) := by
  refine hs.change (s.retain_frames w h) (s.retain_futures w h) hh (s.retain_history w h) ?_ ?_
  · simp [AwaitOutcome.change]
  · intro h' hne
    simp [AwaitOutcome.change, Ne.symm hne]

theorem release (hs : Counted s) (hh : (s.futures h).created = true) (w : Option ℕ) :
    Counted (s.release w h) := by
  refine hs.change (s.release_frames w h) (s.release_futures w h) ?_ (s.release_history w h) ?_ ?_
  · split <;> exact hh
  · split <;> simp [AwaitOutcome.change, sub_eq_add_neg]
  · intro h' hne
    simp [AwaitOutcome.change, Ne.symm hne]

theorem complete (hs : Counted s) (h : H) (error : ℤ) : Counted (s.complete h error) := by
  refine hs.same (s.complete_frames h error) (s.complete_created h error) ?_ ?_
  · intro h'
    simp only [AwaitSystem.complete]
    split
    · rw [s.touch_futures]
    · by_cases hsame : h' = h <;> simp [AwaitSystem.setFuture, hsame]
  · intro h'
    rw [s.complete_history]

theorem thenDo (hs : Counted s) (i : ι) (h : H) : Counted (s.thenDo i h) := by
  refine hs.same (s.thenDo_frames h i) ?_ ?_ ?_
  · intro h'
    simp only [AwaitSystem.thenDo]
    split
    · simp
    · by_cases hsame : h' = h <;> simp [AwaitSystem.setFuture, hsame]
  · intro h'
    simp only [AwaitSystem.thenDo]
    split
    · simp
    · by_cases hsame : h' = h <;> simp [AwaitSystem.setFuture, hsame]
  · intro h'
    rw [s.thenDo_history]

variable [DecidableEq ι] {i : ι}

theorem setFrame (hs : Counted s) {x : Option (AsyncFrame H)}
    (hx : ∀ g, x = some g → Knows s.futures g) : Counted (s.setFrame i x) where
  refs := hs.refs
  fresh := hs.fresh
  known := by
    intro j f hf
    by_cases hj : j = i
    · rw [hj, AwaitSystem.setFrame_frames, Function.update_self] at hf
      exact hx f hf
    · rw [AwaitSystem.setFrame_frames, Function.update_of_ne hj] at hf
      exact hs.known hf

/-- A frame that exists keeps its futures and waits for none but its operand. -/
theorem setFrame_same (hs : Counted s) {f g : AsyncFrame H} (hf : s.frames i = some f)
    (hoperand : g.operand = f.operand) (hfuture : g.future = f.future)
    (hwaiting : ∀ h, g.waiting = some h → f.waiting = some h ∨ h = f.operand) :
    Counted (s.setFrame i (some g)) := by
  refine hs.setFrame fun g' hg ↦ ?_
  cases hg
  constructor
  · intro h hw
    rcases hwaiting h hw with hw | rfl
    · exact (hs.known hf).waiting h hw
    · exact (hs.known hf).operand
  · rw [hoperand]
    exact (hs.known hf).operand
  · rw [hfuture]
    exact (hs.known hf).future

end Counted

/-- The frames that wait in a state of the system. -/
def AwaitSystem.Parks (s : AwaitSystem ι H) : Prop :=
  Parked s.frames s.jobs fun h ↦ (s.futures h).continuations

namespace AwaitSystem

variable {s t : AwaitSystem ι H} {h : H}

/-- The lists of the futures after one future changed. -/
theorem continuations_update (x : AwaitedFuture ι) :
    (fun h' ↦ (Function.update s.futures h x h').continuations) =
      Function.update (fun h' ↦ (s.futures h').continuations) h x.continuations := by
  funext h'
  by_cases hsame : h' = h
  · rw [hsame, Function.update_self, Function.update_self]
  · rw [Function.update_of_ne hsame, Function.update_of_ne hsame]

omit [DecidableEq H] in
theorem parks_touch (hs : s.Parks) (h : H) : (s.touch h).Parks := by
  rw [Parks, touch_frames, touch_jobs, touch_futures]
  exact hs

theorem parks_create (hs : s.Parks) (h : H) : (s.create h).Parks := by
  show Parked s.frames s.jobs _
  rw [create, record, setFuture, continuations_update]
  exact hs.drop h

theorem parks_retain (hs : s.Parks) (w : Option ℕ) (h : H) : (s.retain w h).Parks := by
  rw [Parks, retain_frames, retain_jobs, retain_futures, continuations_update,
    Function.update_eq_self]
  exact hs

theorem parks_release (hs : s.Parks) (w : Option ℕ) (h : H) : (s.release w h).Parks := by
  rw [Parks, release_frames, release_jobs, release_futures, continuations_update]
  split
  · exact hs.drop h
  · rw [Function.update_eq_self]
    exact hs

theorem parks_complete (hs : s.Parks) (h : H) (error : ℤ) : (s.complete h error).Parks := by
  simp only [complete]
  split
  · exact parks_touch hs h
  · rw [Parks]
    simp only [setFuture, touch_frames, touch_futures, continuations_update]
    exact hs.submit h

end AwaitSystem

variable [DecidableEq ι]

namespace AwaitSystem

open AwaitCode

variable {s t : AwaitSystem ι H} {i : ι} {f : AsyncFrame H} {c : AwaitCode} {code : List AwaitCode}

theorem exec_get {allocated : Bool} (hexec : s.exec i f .get code allocated = some t) :
    ∃ h, f.waiting = some h ∧
      (s.touch h).setFrame i (some { f with code := code, error := (s.futures h).error }) = t := by
  obtain ⟨_, _, _, waiting, _, _, _, _, _, _⟩ := f
  cases waiting with
  | none => cases hexec
  | some h => exact ⟨h, rfl, Option.some.inj (Option.ite_none_right_eq_some.mp hexec).2⟩

theorem exec_jumpIfReady {m : ℕ} {allocated : Bool}
    (hexec : s.exec i f (.jumpIfReady m) code allocated = some t) :
    ∃ h, f.waiting = some h ∧ (s.touch h).setFrame i (some
      (if (s.futures h).complete then { f with code := AwaitCode.goto m code }
        else { f with code := code })) = t := by
  obtain ⟨_, _, _, waiting, _, _, _, _, _, _⟩ := f
  cases waiting with
  | none => cases hexec
  | some h => exact ⟨h, rfl, Option.some.inj hexec⟩

theorem exec_thenReturn {allocated : Bool} (hexec : s.exec i f .thenReturn code allocated = some t) :
    (∃ h, f.waiting = some h ∧
      t = (s.setFrame i (some { f with code := [], suspended := true })).thenDo i h) ∨
    t = { s with aborted := true } := by
  obtain ⟨_, _, _, waiting, _, _, _, _, _, _⟩ := f
  cases waiting with
  | none => cases hexec
  | some h =>
      cases allocated with
      | false => exact .inr (Option.some.inj hexec).symm
      | true => exact .inl ⟨h, rfl, (Option.some.inj hexec).symm⟩

theorem exec_retain {allocated : Bool} (hexec : s.exec i f .retain code allocated = some t) :
    ∃ h, f.waiting = some h ∧
      t = (s.setFrame i (some { f with code := code })).retain (some f.await) h := by
  obtain ⟨_, _, _, waiting, _, _, _, _, _, _⟩ := f
  cases waiting with
  | none => cases hexec
  | some h => exact ⟨h, rfl, (Option.some.inj hexec).symm⟩

theorem exec_release {allocated : Bool} (hexec : s.exec i f .release code allocated = some t) :
    ∃ h, f.waiting = some h ∧
      t = (s.setFrame i (some { f with code := code })).release (some f.await) h := by
  obtain ⟨_, _, _, waiting, _, _, _, _, _, _⟩ := f
  cases waiting with
  | none => cases hexec
  | some h => exact ⟨h, rfl, (Option.some.inj hexec).symm⟩

/-- A statement keeps the progress of all awaits. -/
theorem progress_exec (h : Progress s.frames s.history s.awaits) (hrefs : Counted s)
    (hf : s.frames i = some f) (hrun : f.suspended = false) (hcode : f.code = c :: code)
    {allocated : Bool} (hexec : s.exec i f c code allocated = some t) :
    Progress t.frames t.history t.awaits := by
  have hrest : f.rest = c :: code := rest_of_running hrun hcode
  have hne : f.rest ≠ [] := by
    rw [hrest]
    exact List.cons_ne_nil c code
  obtain ⟨k, a, hway⟩ := h.underway hf hne
  rw [hrest] at hway
  have hfollows := follows_of_suffix hway.suffix
  have hwaits (hc : c ≠ .hold) (hnot : AwaitCode.hold ∉ code) (hmem : AwaitCode.clear ∈ code) :
      f.waiting = some f.operand := by
    refine hway.waiting (fun hold ↦ ?_) (List.mem_cons_of_mem c hmem)
    rcases List.mem_cons.mp hold with hold | hold
    · exact hc hold.symm
    · exact hnot hold
  have hstates (hc : c ≠ .state (k + 1)) (hnot : AwaitCode.state (k + 1) ∉ code) :
      f.state = k + 1 := by
    refine hway.state fun hmem ↦ ?_
    rcases List.mem_cons.mp hmem with hmem | hmem
    · exact hc hmem.symm
    · exact hnot hmem
  -- a statement that adds no reference only moves the await on
  have hmove {g : AsyncFrame H} {code' : List AwaitCode} (hg : g.rest = code')
      (hfunction : g.function = f.function) (hawait : g.await = f.await)
      (hoperand : g.operand = f.operand) (hsuffix : code' <:+ c :: code)
      (hdue : due code' = due (c :: code))
      (hwaiting : AwaitCode.hold ∉ code' → AwaitCode.clear ∈ code' → g.waiting = some f.operand)
      (hstate : AwaitCode.state (k + 1) ∉ code' → g.state = k + 1) :
      Progress (Function.update s.frames i (some g)) s.history s.awaits := by
    refine h.setFrame fun g' hg' _ ↦ ?_
    injection hg' with hg'
    subst hg'
    subst hg
    exact ⟨⟨k, a, hway.move hfunction hawait hoperand hsuffix hdue hwaiting hstate⟩, f, hf, hne,
      hawait.symm⟩
  have hrunning {g : AsyncFrame H} {code' : List AwaitCode} (hg : g.suspended = f.suspended)
      (hc : g.code = code') : g.rest = code' := rest_of_running (hg.trans hrun) hc
  have hrun' : AsyncFrame.rest { f with code := code } = code := hrunning rfl rfl
  have hnext (hc : c.adds = 0) : due code = due (c :: code) := by rw [due_cons, hc, zero_add]
  have htail : code <:+ c :: code := List.suffix_cons c code
  cases c with
  | hold =>
      cases hexec
      exact hmove (hrunning rfl rfl) rfl rfl rfl htail (hnext rfl) (fun _ _ ↦ rfl)
        (hstates (by rintro ⟨⟩))
  | state m =>
      obtain ⟨rfl, hcode'⟩ := hfollows
      cases hexec
      exact hmove (hrunning rfl rfl) rfl rfl rfl htail (hnext rfl) (hwaits (by rintro ⟨⟩))
        (fun _ ↦ rfl)
  | label m =>
      cases hexec
      exact hmove (hrunning rfl rfl) rfl rfl rfl htail (hnext rfl) (hwaits (by rintro ⟨⟩))
        (hstates (by rintro ⟨⟩))
  | clear =>
      cases hexec
      refine hmove (hrunning rfl rfl) rfl rfl rfl htail (hnext rfl) ?_ (hstates (by rintro ⟨⟩))
      intro _ hmem
      rw [show code = [.check] from hfollows] at hmem
      cases List.mem_singleton.mp hmem
  | get =>
      obtain ⟨h', -, rfl⟩ := exec_get hexec
      rw [setFrame_frames, setFrame_history, setFrame_awaits, touch_frames, touch_history,
        touch_awaits]
      exact hmove (hrunning rfl rfl) rfl rfl rfl htail (hnext rfl) (hwaits (by rintro ⟨⟩))
        (hstates (by rintro ⟨⟩))
  | jumpIfReady m =>
      obtain ⟨rfl, hcode'⟩ := hfollows
      obtain ⟨h', -, rfl⟩ := exec_jumpIfReady hexec
      rw [setFrame_frames, setFrame_history, setFrame_awaits, touch_frames, touch_history,
        touch_awaits]
      by_cases hready : (s.futures h').complete = true
      · rw [if_pos hready]
        have hgoto : AwaitCode.goto (k + 1) code = afterLabel (k + 1) := hcode' ▸ goto_afterJump _
        have hlabel : afterLabel (k + 1) <:+ code := hcode' ▸ List.suffix_cons _ _
        refine hmove (hrunning rfl hgoto) rfl rfl rfl (hlabel.trans htail) ?_ ?_ ?_
        · rw [hcode']
          rfl
        · intro _ _
          exact hwaits (by rintro ⟨⟩) (hcode' ▸ by simp [afterLabel])
            (hcode' ▸ by simp [afterLabel])
        · intro _
          exact hstates (by rintro ⟨⟩) (hcode' ▸ by simp [afterLabel])
      · rw [if_neg hready]
        exact hmove (hrunning rfl rfl) rfl rfl rfl htail (hnext rfl) (hwaits (by rintro ⟨⟩))
          (hstates (by rintro ⟨⟩))
  | thenReturn =>
      have hcode' : code = afterLabel (k + 1) := hfollows
      have hstate : f.state = k + 1 := hstates (by rintro ⟨⟩) (hcode' ▸ by simp [afterLabel])
      have hwaiting : f.waiting = some f.operand :=
        hwaits (by rintro ⟨⟩) (hcode' ▸ by simp [afterLabel]) (hcode' ▸ by simp [afterLabel])
      rcases exec_thenReturn hexec with ⟨h', -, rfl⟩ | rfl
      · rw [thenDo_frames, thenDo_history, thenDo_awaits]
        have hresumed : AsyncFrame.rest { f with code := [], suspended := true } =
            afterLabel (k + 1) := by
          show f.function.resume f.state = afterLabel (k + 1)
          rw [hstate, resume_succ hway.site]
        refine hmove hresumed rfl rfl rfl (hcode' ▸ htail) ?_ (fun _ _ ↦ hwaiting)
          (fun _ ↦ hstate)
        rw [← hcode']
        exact hnext rfl
      · exact h
  | retain =>
      obtain ⟨hretained, hcode'⟩ := hfollows
      have hwaiting : f.waiting = some f.operand :=
        hwaits (by rintro ⟨⟩) (hcode' ▸ by simp [afterRetain]) (hcode' ▸ by simp [afterRetain])
      obtain ⟨h', hh', rfl⟩ := exec_retain hexec
      obtain rfl : f.operand = h' := Option.some.inj (hwaiting.symm.trans hh')
      rw [retain_frames, retain_history, retain_awaits]
      refine h.act hf hne rfl ?_ ?_
      · refine h.settled.snoc le_rfl ?_ (by rintro _ _ _ ⟨⟩) ?_ (by rintro _ _ ⟨⟩)
          (by rintro _ _ ⟨⟩)
        · intro w hw
          cases hw
          exact h.settled.numbered _ hway.began _ rfl
        · intro w e he hw
          cases hw
          exact hway.unended e he
      · intro _
        refine ⟨rfl, k, a, ?_⟩
        rw [hrun']
        refine hway.count (by rintro ⟨⟩) (by rintro ⟨⟩) rfl (by rintro _ _ ⟨⟩) fun h' ↦ ?_
        simp [AwaitOutcome.change, adds, eq_comm]
  | release =>
      have hcode' : code = [.clear, .check] := hfollows
      have hwaiting : f.waiting = some f.operand :=
        hwaits (by rintro ⟨⟩) (hcode' ▸ by simp) (hcode' ▸ by simp)
      obtain ⟨h', hh', rfl⟩ := exec_release hexec
      obtain rfl : f.operand = h' := Option.some.inj (hwaiting.symm.trans hh')
      rw [release_frames, release_history, release_awaits]
      refine h.act hf hne rfl ?_ ?_
      · refine h.settled.snoc le_rfl ?_ (by rintro _ _ _ ⟨⟩) ?_ (by rintro _ _ ⟨⟩) ?_
        · intro w hw
          cases hw
          exact h.settled.numbered _ hway.began _ rfl
        · intro w e he hw
          cases hw
          exact hway.unended e he
        · intro w h' hsame
          injection hsame with hw hh hfree
          injection hw with hw
          subst hw
          subst hh
          refine ⟨a, f.operand, hway.began, fun hretained ↦ ?_⟩
          have hone : contribution f.await f.operand s.history = 1 := by
            have hown := hway.own f.operand
            rw [settled, if_pos rfl, if_pos rfl, if_pos hretained, hcode'] at hown
            simp only [due, adds, List.map_cons, List.map_nil, List.sum_cons, List.sum_nil] at hown
            omega
          have hzero : (s.futures f.operand).refs - 1 = 0 := by
            rw [setFrame_futures] at hfree
            exact of_decide_eq_true hfree
          rw [hrefs.refs, references_eq (w := f.await), hone] at hzero
          push_cast at hzero
          simpa using hzero
      · intro _
        refine ⟨rfl, k, a, ?_⟩
        rw [hrun']
        refine hway.count (by rintro ⟨⟩) (by rintro ⟨⟩) rfl (by rintro _ _ ⟨⟩) fun h' ↦ ?_
        simp [AwaitOutcome.change, adds, eq_comm]
  | check =>
      have hcode' : code = [] := hfollows
      cases hexec
      refine h.act hf hne rfl ?_ ?_
      · refine h.settled.snoc le_rfl ?_ (by rintro _ _ _ ⟨⟩) ?_ ?_ (by rintro _ _ ⟨⟩)
        · intro w hw
          cases hw
          exact h.settled.numbered _ hway.began _ rfl
        · intro w e he hw
          cases hw
          exact hway.unended e he
        · intro w e hsame a' h₁ hbegan h'
          cases hsame
          obtain ⟨rfl, rfl⟩ := h.settled.once hbegan hway.began
          rw [← hway.own h', hcode']
          split <;> simp [due, adds]
      · intro hnil
        exact absurd (hrun'.trans hcode') hnil

/-- A statement keeps the counts. -/
theorem counted_exec (hs : Counted s) (hf : s.frames i = some f) {allocated : Bool}
    (hexec : s.exec i f c code allocated = some t) : Counted t := by
  have hsame (state : ℕ) (suspended failing : Bool) (code : List AwaitCode) :
      Counted (s.setFrame i (some
        { f with state := state, suspended := suspended, failing := failing, code := code })) :=
    hs.setFrame_same hf rfl rfl fun _ hw ↦ .inl hw
  cases c with
  | hold =>
      cases hexec
      exact hs.setFrame_same hf rfl rfl fun h hw ↦ .inr (Option.some.inj hw).symm
  | state m =>
      cases hexec
      exact hsame m _ _ _
  | label m =>
      cases hexec
      exact hsame _ _ _ _
  | clear =>
      cases hexec
      exact hs.setFrame_same hf rfl rfl nofun
  | get =>
      obtain ⟨h, -, rfl⟩ := exec_get hexec
      have hf' : (s.touch h).frames i = some f := by rwa [touch_frames]
      exact (hs.touch h).setFrame_same hf' rfl rfl fun _ hw ↦ .inl hw
  | jumpIfReady m =>
      obtain ⟨h, -, rfl⟩ := exec_jumpIfReady hexec
      have hf' : (s.touch h).frames i = some f := by rwa [touch_frames]
      refine (hs.touch h).setFrame_same hf' ?_ ?_ fun _ hw ↦ .inl ?_
      · split <;> rfl
      · split <;> rfl
      · split at hw <;> exact hw
  | thenReturn =>
      rcases exec_thenReturn hexec with ⟨h, -, rfl⟩ | rfl
      · exact (hsame f.state true f.failing []).thenDo i h
      · exact hs.same rfl (fun _ ↦ rfl) (fun _ ↦ rfl) (fun _ ↦ rfl)
  | retain =>
      obtain ⟨h, hw, rfl⟩ := exec_retain hexec
      exact (hsame f.state f.suspended f.failing code).retain ((hs.known hf).waiting h hw) _
  | release =>
      obtain ⟨h, hw, rfl⟩ := exec_release hexec
      exact (hsame f.state f.suspended f.failing code).release ((hs.known hf).waiting h hw) _
  | check =>
      cases hexec
      refine (hsame f.state f.suspended _ code).same rfl (fun _ ↦ rfl) (fun _ ↦ rfl) fun h ↦ ?_
      exact (Counted.references_snoc _ _ _).trans (add_zero _)

/-- A statement keeps the places of the frames that wait. -/
theorem parks_exec (hs : s.Parks) (hf : s.frames i = some f) (hrun : f.suspended = false)
    {allocated : Bool} (hexec : s.exec i f c code allocated = some t) : t.Parks := by
  have hidle : ∀ g, s.frames i = some g → g.suspended = false := by
    intro g hg
    obtain rfl : f = g := Option.some.inj (hf.symm.trans hg)
    exact hrun
  have hframe (x : Option (AsyncFrame H)) : (s.setFrame i x).Parks := Parked.setFrame hs hidle x
  have htouched (h : H) (x : Option (AsyncFrame H)) : ((s.touch h).setFrame i x).Parks := by
    refine Parked.setFrame (parks_touch hs h) ?_ x
    rwa [touch_frames]
  cases c with
  | hold | state m | label m | clear | check =>
      cases hexec
      exact hframe _
  | get =>
      obtain ⟨h, -, rfl⟩ := exec_get hexec
      exact htouched h _
  | jumpIfReady m =>
      obtain ⟨h, -, rfl⟩ := exec_jumpIfReady hexec
      exact htouched h _
  | retain =>
      obtain ⟨h, -, rfl⟩ := exec_retain hexec
      exact parks_retain (hframe _) _ h
  | release =>
      obtain ⟨h, -, rfl⟩ := exec_release hexec
      exact parks_release (hframe _) _ h
  | thenReturn =>
      rcases exec_thenReturn hexec with ⟨h, hw, rfl⟩ | rfl
      · simp only [thenDo]
        split
        · rw [Parks, touch_frames, touch_futures]
          exact Parked.queue hs hidle rfl
        · rw [Parks]
          simp only [setFuture, touch_frames, touch_futures, touch_jobs, continuations_update]
          exact Parked.list hs hidle rfl hw
      · exact hs

end AwaitSystem

/-! ## Steps -/

structure AwaitInv (s : AwaitSystem ι H) : Prop where
  counted : Counted s
  parks : s.Parks
  progress : Progress s.frames s.history s.awaits

namespace AwaitInv

open AwaitSystem

variable {s t : AwaitSystem ι H}

omit [DecidableEq ι] in
theorem initial : AwaitInv (.initial : AwaitSystem ι H) where
  counted := ⟨fun _ ↦ rfl, fun _ _ ↦ rfl, nofun⟩
  parks := ⟨List.nodup_nil, fun _ ↦ List.nodup_nil, fun _ _ ↦ nofun, nofun, fun _ _ ↦ nofun⟩
  progress := ⟨⟨nofun, nofun, nofun, each_nil _⟩, nofun, nofun⟩

omit [DecidableEq ι] in
theorem create (hs : AwaitInv s) {h : H} (hh : (s.futures h).created = false) :
    AwaitInv (s.create h) :=
  ⟨hs.counted.create hh, parks_create hs.parks h, hs.progress.foreign rfl⟩

omit [DecidableEq ι] in
theorem retain (hs : AwaitInv s) {h : H} (hh : (s.futures h).created = true) :
    AwaitInv (s.retain none h) := by
  refine ⟨hs.counted.retain hh none, parks_retain hs.parks none h, ?_⟩
  rw [retain_frames, retain_history, retain_awaits]
  exact hs.progress.foreign rfl

omit [DecidableEq ι] in
theorem release (hs : AwaitInv s) {h : H} (hh : (s.futures h).created = true) :
    AwaitInv (s.release none h) := by
  refine ⟨hs.counted.release hh none, parks_release hs.parks none h, ?_⟩
  rw [release_frames, release_history, release_awaits]
  exact hs.progress.foreign rfl

omit [DecidableEq ι] in
theorem complete (hs : AwaitInv s) (h : H) (error : ℤ) : AwaitInv (s.complete h error) := by
  refine ⟨hs.counted.complete h error, parks_complete hs.parks h error, ?_⟩
  rw [complete_frames, complete_history, complete_awaits]
  exact hs.progress

omit [DecidableEq ι] in
theorem touch (hs : AwaitInv s) (h : H) : AwaitInv (s.touch h) := by
  refine ⟨hs.counted.touch h, parks_touch hs.parks h, ?_⟩
  rw [touch_frames, touch_history, touch_awaits]
  exact hs.progress

variable {i : ι} {f : AsyncFrame H}

theorem exec (hs : AwaitInv s) (hf : s.frames i = some f) (hrun : f.suspended = false)
    {c : AwaitCode} {code : List AwaitCode} (hcode : f.code = c :: code) {allocated : Bool}
    (hexec : s.exec i f c code allocated = some t) : AwaitInv t :=
  ⟨counted_exec hs.counted hf hexec, parks_exec hs.parks hf hrun hexec,
    progress_exec hs.progress hs.counted hf hrun hcode hexec⟩

theorem evaluate (hs : AwaitInv s) (hf : s.frames i = some f) (hrun : f.suspended = false)
    {k : ℕ} {a : Operand} (ha : f.function.awaits[k]? = some a) {h : H}
    (hh : (s.futures h).created = true) : AwaitInv (s.evaluate i f k a h) where
  counted := by
    have hframe := hs.counted.setFrame (i := i) (x := some
      { f with code := awaitCode a (k + 1), operand := h, await := s.awaits }) fun g hg ↦ by
        cases hg
        exact ⟨(hs.counted.known hf).waiting, hh, (hs.counted.known hf).future⟩
    refine hframe.same rfl (fun _ ↦ rfl) (fun _ ↦ rfl) fun h' ↦ ?_
    exact (Counted.references_snoc _ _ _).trans (add_zero _)
  parks := by
    refine Parked.setFrame hs.parks (fun g hg ↦ ?_) _
    obtain rfl : f = g := Option.some.inj (hf.symm.trans hg)
    exact hrun
  progress := by
    refine hs.progress.begin
      (g := { f with code := awaitCode a (k + 1), operand := h, await := s.awaits }) ha ?_ rfl
    exact rest_of_running (f := { f with code := _, operand := h, await := s.awaits }) hrun rfl

theorem runJob (hs : AwaitInv s) (hf : s.frames i = some f) (hi : i ∈ s.jobs) :
    AwaitInv (s.runJob i f) where
  counted := by
    have hframe := hs.counted.setFrame_same (g :=
      { f with suspended := false, code := f.function.resume f.state }) hf rfl rfl
        fun _ hw ↦ .inl hw
    exact hframe.same rfl (fun _ ↦ rfl) (fun _ ↦ rfl) (fun _ ↦ rfl)
  parks := Parked.take hs.parks hi _
  progress := by
    obtain ⟨g, hg, hsuspended⟩ := hs.parks.job i hi
    obtain rfl : f = g := Option.some.inj (hf.symm.trans hg)
    have hrest : f.rest = f.function.resume f.state := by
      rw [AsyncFrame.rest, hsuspended]
      rfl
    refine hs.progress.setFrame fun g hg hne ↦ ?_
    injection hg with hg
    subst hg
    have hgrest : AsyncFrame.rest
        { f with suspended := false, code := f.function.resume f.state } = f.rest :=
      hrest.symm
    rw [hgrest] at hne ⊢
    obtain ⟨k, a, hway⟩ := hs.progress.underway hf hne
    exact ⟨⟨k, a, hway.move rfl rfl rfl List.suffix_rfl rfl hway.waiting hway.state⟩, f, hf, hne,
      rfl⟩

theorem finish (hs : AwaitInv s) (hf : s.frames i = some f) (hrun : f.suspended = false)
    (error : ℤ) : AwaitInv (s.finish i f error) := by
  have hfuture : ((s.complete f.future (if f.failing then f.error else error)).futures
      f.future).created = true := by
    rw [complete_created]
    exact (hs.counted.known hf).future
  have hdone := (hs.complete f.future (if f.failing then f.error else error)).release hfuture
  refine ⟨hdone.counted.setFrame nofun, ?_, hdone.progress.setFrame nofun⟩
  refine Parked.setFrame hdone.parks (fun g hg ↦ ?_) none
  rw [release_frames, complete_frames] at hg
  obtain rfl : f = g := Option.some.inj (hf.symm.trans hg)
  exact hrun

theorem call (hs : AwaitInv s) (hi : s.frames i = none) {h : H}
    (hh : (s.futures h).created = false) (f : AsyncFunction) : AwaitInv (s.call i f h) := by
  have hcreated := (hs.create hh).retain (h := h) (by simp [AwaitSystem.create, record, setFuture])
  have hnew : (((s.create h).retain none h).futures h).created = true := by
    simp [AwaitSystem.create, AwaitSystem.retain, record, setFuture]
  constructor
  · refine (hcreated.counted.setFrame (i := i) fun g hg ↦ ?_).same rfl (fun _ ↦ rfl) (fun _ ↦ rfl)
      fun _ ↦ rfl
    cases hg
    exact ⟨by rintro _ ⟨⟩, hnew, hnew⟩
  · refine Parked.queue hcreated.parks (fun g hg ↦ ?_) rfl
    rw [retain_frames] at hg
    cases hi.symm.trans hg
  · refine hcreated.progress.setFrame fun g hg hne ↦ ?_
    cases hg
    exact absurd rfl hne

/-- Every step keeps the invariant. -/
theorem step (hs : AwaitInv s) {e : AwaitEvent ι H} (hstep : (transitions ι H).step s e = some t) :
    AwaitInv t := by
  simp only [transitions] at hstep
  split at hstep
  · cases hstep
  cases e with
  | create h =>
      obtain ⟨hh, hstep⟩ := Option.ite_none_left_eq_some.mp hstep
      cases hstep
      exact hs.create (Bool.eq_false_iff.mpr hh)
  | call i f h =>
      obtain ⟨hnew, hstep⟩ := Option.ite_none_left_eq_some.mp hstep
      cases hstep
      simp only [Bool.or_eq_true, not_or, Bool.not_eq_true, Option.isSome_eq_false_iff,
        Option.isNone_iff_eq_none] at hnew
      exact hs.call hnew.2 hnew.1 f
  | retain h =>
      obtain ⟨hh, hstep⟩ := Option.ite_none_right_eq_some.mp hstep
      cases hstep
      exact hs.retain hh
  | release h =>
      obtain ⟨hh, hstep⟩ := Option.ite_none_right_eq_some.mp hstep
      cases hstep
      exact hs.release hh
  | complete h error =>
      obtain ⟨-, hstep⟩ := Option.ite_none_right_eq_some.mp hstep
      cases hstep
      exact hs.complete h error
  | read h =>
      obtain ⟨-, hstep⟩ := Option.ite_none_right_eq_some.mp hstep
      cases hstep
      exact hs.touch h
  | evaluate i k h =>
      obtain ⟨f, hf, hstep⟩ := Option.bind_eq_some_iff.mp hstep
      obtain ⟨a, ha, hstep⟩ := Option.bind_eq_some_iff.mp hstep
      obtain ⟨hidle, hstep⟩ := Option.ite_none_right_eq_some.mp hstep
      cases hstep
      simp only [Bool.and_eq_true, Bool.not_eq_true'] at hidle
      exact hs.evaluate hf hidle.1.1 ha hidle.2
  | exec i allocated =>
      obtain ⟨f, hf, hstep⟩ := Option.bind_eq_some_iff.mp hstep
      split at hstep
      · next c code hrun hcode => exact hs.exec hf hrun hcode hstep
      · cases hstep
  | runJob i =>
      obtain ⟨f, hf, hstep⟩ := Option.bind_eq_some_iff.mp hstep
      obtain ⟨hi, hstep⟩ := Option.ite_none_right_eq_some.mp hstep
      cases hstep
      exact hs.runJob hf hi
  | finish i error =>
      obtain ⟨f, hf, hstep⟩ := Option.bind_eq_some_iff.mp hstep
      obtain ⟨hidle, hstep⟩ := Option.ite_none_right_eq_some.mp hstep
      cases hstep
      simp only [Bool.and_eq_true, Bool.not_eq_true'] at hidle
      exact hs.finish hf hidle.1 error

theorem run (hs : AwaitInv s) {events : List (AwaitEvent ι H)}
    (hrun : (transitions ι H).run s events = some t) : AwaitInv t :=
  Transitions.run_invariant (fun hs hstep ↦ hs.step hstep) hs hrun

end AwaitInv

end TinyCPlus.Runtime
