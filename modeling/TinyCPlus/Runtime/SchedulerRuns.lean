import TinyCPlus.Runtime.Scheduler

/-!
# No task outlives the scheduler

Every task that has begun and not ended stands at exactly one place: in the code
of a thread, in a queue, with the reactor or behind a continuation.  The counter
is the number of these places, and a thread other than the main one acts only
ahead of the end of a task.
-/

namespace TinyCPlus.Runtime

open TinyCPlus.Library

/-! ## Where tasks stand -/

/-- The task that a continuation resumes. -/
def Resumption.carried : Resumption → Multiset Task
  | .resume t => {t}
  | .call => 0

namespace Action

/-- The task that an action has in hand. -/
def carried : Action → Multiset Task
  | .step t | .poolSubmit t | .resolverSubmit t | .ioEnqueue t | .connectResolve t | .taskEnd t =>
      {t}
  | .futureThen _ k | .continue k => k.carried
  | _ => 0

/-- The task that an action is going to begin. -/
def starting : Action → Multiset Task
  | .taskBegin t _ => {t}
  | _ => 0

/-- Actions that can lead to a new task or to a submission. -/
def active : Action → Bool
  | .futureRelease _ | .free _ | .taskEnd _ | .awaitTasks | .poolDestroy => false
  | _ => true

end Action

def carried (code : List Action) : Multiset Task := (code.map Action.carried).sum

def starting (code : List Action) : Multiset Task := (code.map Action.starting).sum

/-- How often a thread waits for the tasks. -/
def waits (code : List Action) : ℕ := code.count .awaitTasks

/-- How often a thread destroys the pool without waiting. -/
def destroys (code : List Action) : ℕ := code.count .poolDestroy

@[simp] theorem carried_nil : carried [] = 0 := rfl

@[simp] theorem carried_cons (a : Action) (code : List Action) :
    carried (a :: code) = a.carried + carried code := by
  simp [carried]

@[simp] theorem carried_append (c d : List Action) : carried (c ++ d) = carried c + carried d := by
  simp [carried]

@[simp] theorem starting_nil : starting [] = 0 := rfl

@[simp] theorem starting_cons (a : Action) (code : List Action) :
    starting (a :: code) = a.starting + starting code := by
  simp [starting]

@[simp] theorem starting_append (c d : List Action) :
    starting (c ++ d) = starting c + starting d := by
  simp [starting]

theorem waits_append (c d : List Action) : waits (c ++ d) = waits c + waits d :=
  List.count_append

theorem destroys_append (c d : List Action) : destroys (c ++ d) = destroys c + destroys d :=
  List.count_append

/-- Something in the code keeps the scheduler alive: a task, or the wait of the
main thread. -/
def Anchored (code : List Action) : Prop := carried code ≠ 0 ∨ .awaitTasks ∈ code

@[simp] theorem anchored_append {c d : List Action} :
    Anchored (c ++ d) ↔ Anchored c ∨ Anchored d := by
  simp only [Anchored, carried_append, ne_eq, add_eq_zero, List.mem_append]
  tauto

/-- Every active action stands ahead of an anchor or is one. -/
def Covered : List Action → Prop
  | [] => True
  | a :: rest => (a.active → Anchored (a :: rest)) ∧ Covered rest

theorem Covered.append {c d : List Action} (hc : Covered c) (hd : Covered d) :
    Covered (c ++ d) := by
  induction c with
  | nil => exact hd
  | cons a c ih => exact ⟨fun ha ↦ anchored_append.mpr (.inl (hc.1 ha)), ih hc.2⟩

theorem Covered.append_anchored {d : List Action} (hd : Covered d) (hanchor : Anchored d)
    (c : List Action) : Covered (c ++ d) := by
  induction c with
  | nil => exact hd
  | cons a c ih => exact ⟨fun _ ↦ (anchored_append (c := a :: c)).mpr (.inr hanchor), ih⟩

/-- Nothing in the code can lead to a new task. -/
theorem Covered.quiet {code : List Action} (h : Covered code) (hquiet : ¬ Anchored code) :
    ∀ a ∈ code, a.active = false := by
  induction code with
  | nil => simp
  | cons a rest ih =>
      have hrest : ¬ Anchored rest := fun hr ↦
        hquiet ((anchored_append (c := [a])).mpr (.inr hr))
      intro b hb
      rcases List.mem_cons.mp hb with rfl | hb
      · exact Bool.eq_false_iff.mpr fun hact ↦ hquiet (h.1 hact)
      · exact ih h.2 hrest b hb

theorem covered_singleton (a : Action) (ha : a.carried ≠ 0) : Covered [a] :=
  ⟨fun _ ↦ .inl (by simpa using ha), trivial⟩

theorem covered_asyncFinish (t : Task) : Covered t.asyncFinish := by
  simp [Task.asyncFinish, Covered, Anchored, Action.active, Action.carried]

/-- Code that a thread gets to do together with the tasks `C`. -/
structure JobCode (C : Multiset Task) (code : List Action) : Prop where
  starting : starting code = 0
  carried : carried code = C
  covered : Covered code
  waits : waits code = 0
  destroys : destroys code = 0

theorem jobCode_nil : JobCode 0 [] := ⟨rfl, rfl, trivial, rfl, rfl⟩

theorem JobCode.append {C D : Multiset Task} {c d : List Action} (hc : JobCode C c)
    (hd : JobCode D d) : JobCode (C + D) (c ++ d) where
  starting := by rw [starting_append, hc.starting, hd.starting, add_zero]
  carried := by rw [carried_append, hc.carried, hd.carried]
  covered := hc.covered.append hd.covered
  waits := by rw [waits_append, hc.waits, hd.waits]
  destroys := by rw [destroys_append, hc.destroys, hd.destroys]

theorem jobCode_ioComplete (t : Task) : JobCode {t} t.ioComplete :=
  ⟨rfl, rfl, covered_asyncFinish t, rfl, rfl⟩

theorem jobCode_poolJob (t : Task) : JobCode {t} t.poolJob := by
  unfold Task.poolJob
  split
  · exact ⟨rfl, rfl, covered_singleton _ (Multiset.singleton_ne_zero t), rfl, rfl⟩
  · refine ⟨rfl, rfl, ?_, rfl, rfl⟩
    simp [Task.spawnFinish, Covered, Anchored, Action.active, Action.carried]

theorem jobCode_resolverJob (t : Task) : JobCode {t} t.resolverJob := by
  unfold Task.resolverJob
  split
  · exact ⟨rfl, rfl, covered_singleton _ (Multiset.singleton_ne_zero t), rfl, rfl⟩
  · refine ⟨rfl, rfl, ?_, rfl, rfl⟩
    simp [Task.resolverFinish, Covered, Anchored, Action.active, Action.carried]

/-- The reactor answers a list of requests. -/
theorem jobCode_answers (ready : List Task) :
    JobCode ready (ready.flatMap Task.ioComplete) := by
  induction ready with
  | nil => exact jobCode_nil
  | cons t ready ih =>
      rw [List.flatMap_cons, ← Multiset.cons_coe, ← Multiset.singleton_add]
      exact (jobCode_ioComplete t).append ih

namespace Scheduler

/-- The tasks behind continuations. -/
def waiting (continuations : List (FutureRef × Resumption)) : Multiset Task :=
  (continuations.map fun p ↦ p.2.carried).sum

/-- The tasks that no thread has in hand. -/
def stored (s : Scheduler) : Multiset Task :=
  s.pool + s.resolver + s.requests + waiting s.continuations

theorem waiting_eq (f : FutureRef) (l : List (FutureRef × Resumption)) :
    waiting l = carried (resumed f l) + waiting (l.filter fun p ↦ p.1 ≠ f) := by
  induction l with
  | nil => rfl
  | cons p l ih =>
      have hcons : waiting (p :: l) = p.2.carried + waiting l := by simp [waiting]
      by_cases hp : p.1 = f
      · have hresumed : resumed f (p :: l) = .continue p.2 :: resumed f l := by
          simp [resumed, hp]
        have hrest : ((p :: l).filter fun p ↦ p.1 ≠ f) = l.filter fun p ↦ p.1 ≠ f := by
          simp [hp]
        rw [hcons, ih, hresumed, hrest, carried_cons, add_assoc]
        rfl
      · have hresumed : resumed f (p :: l) = resumed f l := by simp [resumed, hp]
        have hrest : ((p :: l).filter fun p ↦ p.1 ≠ f) = p :: l.filter fun p ↦ p.1 ≠ f := by
          simp [hp]
        rw [hcons, ih, hresumed, hrest, add_left_comm]
        simp [waiting]

theorem starting_resumed (f : FutureRef) (l : List (FutureRef × Resumption)) :
    starting (resumed f l) = 0 := by
  induction l with
  | nil => rfl
  | cons p l ih =>
      by_cases hp : p.1 = f
      · have hresumed : resumed f (p :: l) = .continue p.2 :: resumed f l := by
          simp [resumed, hp]
        rw [hresumed, starting_cons, ih]
        rfl
      · have hresumed : resumed f (p :: l) = resumed f l := by simp [resumed, hp]
        rw [hresumed, ih]

/-- What a call of the runtime can do. -/
inductive Performs (s : Scheduler) : Action → Scheduler → List Action → Prop where
  | idle {a} (ha : a = .program ∨ (∃ f, a = .futureRelease f) ∨ ∃ t, a = .free t) :
      Performs s a s []
  | create {a} (t how) (ha : a = .program ∨ ∃ u, a = .step u) (hfresh : t ∉ s.created) :
      Performs s a { s with created := t ::ₘ s.created } [.taskBegin t how, a]
  | complete {a} (f) (ha : a = .program ∨ ∃ u, a = .step u) :
      Performs s a s [.futureComplete f, a]
  | call {a} (f) (ha : a = .program ∨ ∃ u, a = .step u) :
      Performs s a s [.futureThen f .call, a]
  | taskBegin (t how) : Performs s (.taskBegin t how) (s.taskBegin t) (how.code t)
  | submit {a} (t) (ha : a = .poolSubmit t ∨ a = .continue (.resume t)) :
      Performs s a (s.poolSubmit t) []
  | resolverSubmit (t) :
      Performs s (.resolverSubmit t) { s with resolver := s.resolver ++ [t] } []
  | enqueue (t) : Performs s (.ioEnqueue t) { s with requests := t ::ₘ s.requests } []
  | register (f k) :
      Performs s (.futureThen f k) { s with continuations := (f, k) :: s.continuations } []
  | again (f) : Performs s (.futureComplete f) s []
  | resume (f) :
      Performs s (.futureComplete f)
        { s with
          completed := f :: s.completed
          continuations := s.continuations.filter fun p ↦ p.1 ≠ f }
        (resumed f s.continuations)
  | relay {a now} (hcarried : carried now = a.carried) (hstarting : starting now = a.starting)
      (hactive : a.active) (hcovered : a.carried ≠ 0 → Covered now)
      (hwaits : waits now = 0) (hdestroys : destroys now = 0) : Performs s a s now
  | taskEnd (t) : Performs s (.taskEnd t) (s.taskEnd t) []
  | awaitTasks (hpending : s.pending = 0) :
      Performs s .awaitTasks { s with passed := true } [.poolDestroy]
  | poolDestroy : Performs s .poolDestroy { s with destroyed := true } []

theorem runProgram_cases {s s' : Scheduler} {a : Action} {choice : Choice} {now : List Action}
    (ha : a = .program ∨ ∃ u, a = .step u)
    (h : ((s.runProgram choice).map fun (s', now) ↦ (s', now ++ [a])) = some (s', now)) :
    Performs s a s' now := by
  cases choice with
  | start t how =>
      simp only [runProgram] at h
      split at h
      · rename_i hstart
        cases h
        exact .create t how ha hstart.1
      · cases h
  | complete f =>
      cases h
      exact .complete f ha
  | call f =>
      cases h
      exact .call f ha
  | go | fail | leave | await | pass => cases h

theorem perform_cases {s s' : Scheduler} {a : Action} {choice : Choice} {now : List Action}
    (h : s.perform a choice = some (s', now)) : Performs s a s' now := by
  cases a with
  | program =>
      cases choice with
      | leave =>
          cases h
          exact .idle (.inl rfl)
      | _ =>
          simp only [perform] at h
          exact runProgram_cases (.inl rfl) h
  | step t =>
      cases choice with
      | leave =>
          cases h
          exact .relay rfl rfl rfl (fun _ ↦ covered_asyncFinish t) rfl rfl
      | await f =>
          simp only [perform] at h
          split at h
          · cases h
            exact .relay rfl rfl rfl (fun ht ↦ covered_singleton _ ht) rfl rfl
          · cases h
            exact .relay rfl rfl rfl (fun ht ↦ covered_singleton _ ht) rfl rfl
      | _ =>
          simp only [perform] at h
          exact runProgram_cases (.inr ⟨t, rfl⟩) h
  | taskBegin t how =>
      cases choice <;> cases h
      exact .taskBegin t how
  | poolSubmit t =>
      cases choice <;> cases h
      exact .submit t (.inl rfl)
  | resolverSubmit t =>
      cases choice <;> cases h
      exact .resolverSubmit t
  | ioEnqueue t =>
      cases choice <;> simp only [perform, reduceCtorEq] at h
      split at h
      · cases h
        exact .relay rfl rfl rfl (fun _ ↦ covered_asyncFinish t) rfl rfl
      · cases h
        exact .enqueue t
  | connectResolve t =>
      cases choice <;> cases h
      · exact .relay rfl rfl rfl (fun ht ↦ covered_singleton _ ht) rfl rfl
      · exact .relay rfl rfl rfl (fun _ ↦ covered_asyncFinish t) rfl rfl
  | futureThen f k =>
      cases choice <;> simp only [perform, reduceCtorEq] at h
      split at h
      · cases h
        exact .relay (add_zero _) rfl rfl (covered_singleton (.continue k)) rfl rfl
      · cases h
        exact .register f k
  | futureComplete f =>
      cases choice <;> simp only [perform, reduceCtorEq] at h
      split at h
      · cases h
        exact .again f
      · cases h
        exact .resume f
  | «continue» k =>
      cases k with
      | resume t =>
          cases choice <;> cases h
          · exact .submit t (.inr rfl)
          · exact .relay rfl rfl rfl (fun ht ↦ covered_singleton _ ht) rfl rfl
      | call =>
          cases choice <;> cases h
          exact .relay rfl rfl rfl (fun h0 ↦ absurd rfl h0) rfl rfl
  | futureRelease f =>
      cases choice <;> cases h
      exact .idle (.inr (.inl ⟨f, rfl⟩))
  | free t =>
      cases choice <;> cases h
      exact .idle (.inr (.inr ⟨t, rfl⟩))
  | taskEnd t =>
      cases choice <;> cases h
      exact .taskEnd t
  | awaitTasks =>
      cases choice <;> simp only [perform, reduceCtorEq] at h
      split at h
      · rename_i hpending
        cases h
        exact .awaitTasks hpending
      · cases h
  | poolDestroy =>
      cases choice <;> cases h
      exact .poolDestroy

theorem notMem_resumed {a : Action} (ha : ∀ k, a ≠ .continue k) (f : FutureRef)
    (l : List (FutureRef × Resumption)) : a ∉ resumed f l := by
  intro hmem
  obtain ⟨p, -, rfl⟩ := List.mem_map.mp hmem
  exact ha p.2 rfl

theorem waits_resumed (f : FutureRef) (l : List (FutureRef × Resumption)) :
    waits (resumed f l) = 0 :=
  List.count_eq_zero.mpr (notMem_resumed (by simp) f l)

theorem destroys_resumed (f : FutureRef) (l : List (FutureRef × Resumption)) :
    destroys (resumed f l) = 0 :=
  List.count_eq_zero.mpr (notMem_resumed (by simp) f l)

/-- The books of the scheduler when the code of the threads starts the tasks `S`
and has the tasks `K` in hand. -/
structure Accounts (S K : Multiset Task) (s : Scheduler) : Prop where
  created : s.created = S + s.begun
  begun : s.begun = K + s.stored + s.ended
  nodup : s.created.Nodup
  pending : s.pending = (K + s.stored).card

theorem decrement_add_one (k : ℕ) : decrement (k + 1) = k := by simp [decrement]

namespace Accounts

variable {S K : Multiset Task} {s s' : Scheduler} {a : Action} {now : List Action}

/-- A change that only moves tasks. -/
theorem move {K' : Multiset Task} (h : Accounts S K s) (hcreated : s'.created = s.created)
    (hbegun : s'.begun = s.begun) (hended : s'.ended = s.ended) (hpending : s'.pending = s.pending)
    (hmoved : K' + s'.stored = K + s.stored) : Accounts S K' s' where
  created := by simpa only [hcreated, hbegun] using h.created
  begun := by simpa only [hbegun, hended, hmoved] using h.begun
  nodup := by simpa only [hcreated] using h.nodup
  pending := by simpa only [hpending, hmoved] using h.pending

/-- A thread stores what it has in hand. -/
theorem store {C : Multiset Task} (h : Accounts S (C + K) s) (hcreated : s'.created = s.created)
    (hbegun : s'.begun = s.begun) (hended : s'.ended = s.ended) (hpending : s'.pending = s.pending)
    (hstored : s'.stored = C + s.stored) : Accounts S (0 + K) s' :=
  h.move hcreated hbegun hended hpending (by rw [hstored, zero_add, add_left_comm, add_assoc])

theorem create (h : Accounts S K s) {t : Task} (hfresh : t ∉ s.created) :
    Accounts (t ::ₘ S) K { s with created := t ::ₘ s.created } where
  created := by
    rw [Multiset.cons_add]
    exact congrArg (t ::ₘ ·) h.created
  begun := h.begun
  nodup := Multiset.nodup_cons.mpr ⟨hfresh, h.nodup⟩
  pending := h.pending

theorem taskBegin {t : Task} (h : Accounts (t ::ₘ S) K s) :
    Accounts S (t ::ₘ K) (s.taskBegin t) where
  created := by
    rw [Scheduler.taskBegin, Multiset.add_cons, ← Multiset.cons_add]
    exact h.created
  begun := by
    rw [Scheduler.taskBegin, Multiset.cons_add, Multiset.cons_add]
    exact congrArg (t ::ₘ ·) h.begun
  nodup := h.nodup
  pending := by
    rw [Multiset.cons_add, Multiset.card_cons]
    exact congrArg (· + 1) h.pending

theorem taskEnd {t : Task} (h : Accounts S (t ::ₘ K) s) : Accounts S K (s.taskEnd t) where
  created := h.created
  begun := by
    rw [Scheduler.taskEnd, Multiset.add_cons, ← Multiset.cons_add, ← Multiset.cons_add]
    exact h.begun
  nodup := h.nodup
  pending := by
    have hcard : s.pending = (K + s.stored).card + 1 := by
      rw [h.pending, Multiset.cons_add, Multiset.card_cons]
    exact (congrArg decrement hcard).trans (decrement_add_one _)

/-- A call of the runtime keeps the books. -/
theorem performs (h : Accounts (a.starting + S) (a.carried + K) s) (hp : Performs s a s' now) :
    Accounts (Runtime.starting now + S) (Runtime.carried now + K) s' := by
  cases hp with
  | idle ha =>
      rcases ha with rfl | ⟨f, rfl⟩ | ⟨t, rfl⟩ <;> exact h
  | create t how ha hfresh =>
      rcases ha with rfl | ⟨u, rfl⟩ <;>
        simpa [Action.starting, Action.carried] using h.create hfresh
  | complete f ha | call f ha =>
      rcases ha with rfl | ⟨u, rfl⟩ <;>
        simpa [Action.starting, Action.carried, Resumption.carried] using h
  | taskBegin t how =>
      have hbegun : Accounts S (t ::ₘ K) (s.taskBegin t) := by
        refine taskBegin ?_
        simpa [Action.starting, Action.carried] using h
      have hstarting : Runtime.starting (how.code t) = 0 := by cases how <;> rfl
      have hcarried : Runtime.carried (how.code t) = {t} := by cases how <;> rfl
      simpa [hstarting, hcarried] using hbegun
  | submit t ha =>
      have hstored : (s.poolSubmit t).stored = {t} + s.stored := by
        simp only [poolSubmit, stored, ← Multiset.coe_add, Multiset.coe_singleton]
        abel
      rcases ha with rfl | rfl <;>
        exact h.store rfl rfl rfl rfl hstored
  | resolverSubmit t =>
      refine h.store rfl rfl rfl rfl ?_
      simp only [stored, ← Multiset.coe_add, Multiset.coe_singleton, Action.carried]
      abel
  | enqueue t =>
      refine h.store rfl rfl rfl rfl ?_
      simp only [stored, ← Multiset.singleton_add, Action.carried]
      abel
  | register f k =>
      refine h.store rfl rfl rfl rfl ?_
      simp only [stored, waiting, List.map_cons, List.sum_cons, Action.carried]
      abel
  | again f => exact h
  | resume f =>
      rw [starting_resumed]
      refine h.move rfl rfl rfl rfl ?_
      simp only [stored, waiting_eq f s.continuations, Action.carried]
      abel
  | relay hcarried hstarting =>
      rw [hcarried, hstarting]
      exact h
  | taskEnd t =>
      have ht : Accounts S (t ::ₘ K) s := by simpa [Action.starting, Action.carried] using h
      simpa using ht.taskEnd
  | awaitTasks hpending | poolDestroy => exact h.move rfl rfl rfl rfl rfl

end Accounts

namespace Performs

variable {s s' : Scheduler} {a : Action} {now : List Action}

/-- What follows an action with a task in hand still has that task ahead. -/
theorem covered (hp : Performs s a s' now) (hcarried : a.carried ≠ 0) : Covered now := by
  cases hp with
  | idle | submit | resolverSubmit | enqueue | register | again | taskEnd | poolDestroy =>
      trivial
  | create t how ha | complete f ha | call f ha =>
      have hlast : Covered [a] := covered_singleton a hcarried
      exact hlast.append_anchored (.inl (by simpa using hcarried)) [_]
  | taskBegin | resume | awaitTasks => exact absurd rfl hcarried
  | relay _ _ _ hcovered => exact hcovered hcarried

theorem covered_of_inactive (hp : Performs s a s' now) (hactive : a.active = false) :
    Covered now := by
  cases hp with
  | idle | submit | resolverSubmit | enqueue | register | again | taskEnd | poolDestroy =>
      trivial
  | create t how ha | complete f ha | call f ha =>
      rcases ha with rfl | ⟨u, rfl⟩ <;> cases hactive
  | taskBegin | resume => cases hactive
  | awaitTasks => exact ⟨nofun, trivial⟩
  | relay _ _ hact => exact absurd hact (by simp [hactive])

theorem quiet (hp : Performs s a s' now) (hactive : a.active = false) (hcarried : a.carried = 0) :
    s'.begun = s.begun ∧ s'.submitted = s.submitted ∧ s'.pending = s.pending := by
  cases hp with
  | taskBegin => cases hactive
  | submit t ha => rcases ha with rfl | rfl <;> cases hactive
  | taskEnd t => exact absurd hcarried (Multiset.singleton_ne_zero t)
  | _ => exact ⟨rfl, rfl, rfl⟩

/-- What a call does to the shutdown. -/
theorem shutdown (hp : Performs s a s' now) :
    (s'.passed = s.passed ∧ s'.destroyed = s.destroyed ∧ waits now = waits [a] ∧
      destroys now = destroys [a]) ∨
    (a = .awaitTasks ∧ s.pending = 0 ∧ s'.pending = 0 ∧ s'.passed = true ∧
      s'.destroyed = s.destroyed ∧ now = [.poolDestroy]) ∨
    (a = .poolDestroy ∧ s'.passed = s.passed ∧ now = []) := by
  cases hp with
  | awaitTasks hpending => exact .inr (.inl ⟨rfl, hpending, hpending, rfl, rfl, rfl⟩)
  | poolDestroy => exact .inr (.inr ⟨rfl, rfl, rfl⟩)
  | idle ha =>
      left
      rcases ha with rfl | ⟨f, rfl⟩ | ⟨t, rfl⟩ <;> exact ⟨rfl, rfl, rfl, rfl⟩
  | create t how ha | complete f ha | call f ha =>
      left
      rcases ha with rfl | ⟨u, rfl⟩ <;> exact ⟨rfl, rfl, rfl, rfl⟩
  | taskBegin t how =>
      left
      cases how <;> exact ⟨rfl, rfl, rfl, rfl⟩
  | submit t ha =>
      left
      rcases ha with rfl | rfl <;> exact ⟨rfl, rfl, rfl, rfl⟩
  | resolverSubmit | enqueue | register | again | taskEnd => exact .inl ⟨rfl, rfl, rfl, rfl⟩
  | resume f => exact .inl ⟨rfl, rfl, waits_resumed f _, destroys_resumed f _⟩
  | relay _ _ hactive _ hwaits hdestroys =>
      left
      refine ⟨rfl, rfl, ?_, ?_⟩
      · rw [hwaits]
        cases a <;> first | rfl | cases hactive
      · rw [hdestroys]
        cases a <;> first | rfl | cases hactive

end Performs

/-- What an idle thread can find. -/
theorem take_cases {s s' : Scheduler} {role : Role} {choice : Choice} {now : List Action}
    (h : s.take role choice = some (s', now)) :
    ∃ C, JobCode C now ∧ s.stored = C + s'.stored ∧ s'.pending = s.pending ∧
      s'.created = s.created ∧ s'.begun = s.begun ∧ s'.ended = s.ended ∧
      s'.submitted = s.submitted ∧ s'.passed = s.passed ∧ s'.destroyed = s.destroyed := by
  cases role <;> cases choice <;> simp only [take, reduceCtorEq] at h
  · split at h
    · cases h
    · rename_i t queue hpool
      cases h
      refine ⟨{t}, jobCode_poolJob t, ?_, rfl, rfl, rfl, rfl, rfl, rfl, rfl⟩
      simp only [stored, hpool, ← Multiset.cons_coe, ← Multiset.singleton_add]
      abel
  · split at h
    · rename_i ready hready
      cases h
      refine ⟨ready, jobCode_answers ready, ?_, rfl, rfl, rfl, rfl, rfl, rfl, rfl⟩
      have hrequests : s.requests = ready + (s.requests - ready) :=
        (add_tsub_cancel_of_le hready).symm
      simp only [stored]
      nth_rewrite 1 [hrequests]
      generalize s.requests - ↑ready = rest
      abel
    · cases h
  · split at h
    · cases h
    · rename_i t queue hresolver
      cases h
      refine ⟨{t}, jobCode_resolverJob t, ?_, rfl, rfl, rfl, rfl, rfl, rfl, rfl⟩
      simp only [stored, hresolver, ← Multiset.cons_coe, ← Multiset.singleton_add]
      abel

variable {S K : Multiset Task} {s s' : Scheduler} {role : Role} {choice : Choice}
  {code code' : List Action}

/-- A step of a thread: it finds a job, or it performs the first call of its code. -/
theorem act_cases (h : s.act role choice code = some (s', code')) :
    code = [] ∧ s.take role choice = some (s', code') ∨
      ∃ a rest now, code = a :: rest ∧ code' = now ++ rest ∧ Performs s a s' now := by
  cases code with
  | nil => exact .inl ⟨rfl, h⟩
  | cons a rest =>
      obtain ⟨⟨t, now⟩, hperform, heq⟩ := Option.map_eq_some_iff.mp h
      cases heq
      exact .inr ⟨a, rest, now, rfl, rfl, perform_cases hperform⟩

/-- Every step keeps the books. -/
theorem Accounts.act (hs : Accounts (Runtime.starting code + S) (Runtime.carried code + K) s)
    (h : s.act role choice code = some (s', code')) :
    Accounts (Runtime.starting code' + S) (Runtime.carried code' + K) s' := by
  rcases act_cases h with ⟨rfl, htake⟩ | ⟨a, rest, now, rfl, rfl, hperforms⟩
  · obtain ⟨C, hcode, hstored, hpending, hcreated, hbegun, hended, -⟩ := take_cases htake
    rw [hcode.starting]
    refine hs.move hcreated hbegun hended hpending ?_
    rw [hstored, hcode.carried, carried_nil]
    abel
  · rw [starting_append, carried_append, add_assoc, add_assoc]
    rw [starting_cons, carried_cons, add_assoc, add_assoc] at hs
    exact hs.performs hperforms

theorem act_covered (hcovered : Covered code) (h : s.act role choice code = some (s', code')) :
    Covered code' := by
  rcases act_cases h with ⟨rfl, htake⟩ | ⟨a, rest, now, rfl, rfl, hperforms⟩
  · obtain ⟨C, hcode, -⟩ := take_cases htake
    exact hcode.covered
  · by_cases hcarried : a.carried = 0
    · cases hactive : a.active with
      | false => exact (hperforms.covered_of_inactive hactive).append hcovered.2
      | true =>
          refine hcovered.2.append_anchored ?_ now
          rcases (anchored_append (c := [a])).mp (hcovered.1 hactive) with ha | hrest
          · rcases ha with ha | ha
            · exact absurd (by simpa using hcarried) ha
            · cases List.mem_singleton.mp ha
              cases hactive
          · exact hrest
    · exact (hperforms.covered hcarried).append hcovered.2

/-- What a step of a thread does to the shutdown. -/
theorem act_shutdown (h : s.act role choice code = some (s', code')) :
    (s'.passed = s.passed ∧ s'.destroyed = s.destroyed ∧ waits code' = waits code ∧
      destroys code' = destroys code) ∨
    (s.pending = 0 ∧ s'.pending = 0 ∧ s'.passed ∧ s'.destroyed = s.destroyed ∧
      waits code = waits code' + 1) ∨
    (s'.passed = s.passed ∧ waits code' = waits code ∧ destroys code = destroys code' + 1) := by
  rcases act_cases h with ⟨rfl, htake⟩ | ⟨a, rest, now, rfl, rfl, hperforms⟩
  · obtain ⟨C, hcode, -, -, -, -, -, -, hpassed, hdestroyed⟩ := take_cases htake
    exact .inl ⟨hpassed, hdestroyed, hcode.waits, hcode.destroys⟩
  · have hcons (b : Action) (rest : List Action) : b :: rest = [b] ++ rest := rfl
    rcases hperforms.shutdown with ⟨hpassed, hdestroyed, hwaits, hdestroys⟩ |
        ⟨rfl, hpending, hpending', hpassed, hdestroyed, rfl⟩ | ⟨rfl, hpassed, rfl⟩
    · left
      refine ⟨hpassed, hdestroyed, ?_, ?_⟩
      · rw [waits_append, hwaits, ← waits_append, ← hcons]
      · rw [destroys_append, hdestroys, ← destroys_append, ← hcons]
    · refine .inr (.inl ⟨hpending, hpending', hpassed, hdestroyed, ?_⟩)
      rw [hcons, waits_append, waits_append, add_comm]
      exact congrArg (· + 1) (zero_add _).symm
    · refine .inr (.inr ⟨hpassed, rfl, ?_⟩)
      rw [hcons, destroys_append, add_comm]
      rfl

end Scheduler

namespace SchedulerSystem

variable {n : ℕ} {role : ℕ → Role} {s s' : SchedulerSystem}

/-- The tasks between `tc_task_begin` and `tc_task_end`. -/
def inHand (n : ℕ) (s : SchedulerSystem) : Multiset Task :=
  tally n (fun _ ↦ carried) s.threads + s.scheduler.stored

/-- What holds in every state that the scheduler reaches. -/
structure Sound (n : ℕ) (s : SchedulerSystem) : Prop where
  accounts : s.scheduler.Accounts (tally n (fun _ ↦ starting) s.threads)
    (tally n (fun _ ↦ carried) s.threads)
  covered : ∀ w, Covered (s.threads w)
  waits : ∀ w, waits (s.threads w) ≤ if w = 0 ∧ s.scheduler.passed = false then 1 else 0
  destroys : s.scheduler.passed = false → ∀ w, destroys (s.threads w) = 0
  destroyed : s.scheduler.destroyed → s.scheduler.passed
  pending : s.scheduler.passed → s.scheduler.pending = 0

theorem sound_start (n : ℕ) : Sound n start where
  accounts := by
    have hstarting : tally n (fun _ ↦ starting) start.threads = 0 :=
      tally_eq_zero fun w _ ↦ by by_cases hw : w = 0 <;> simp [start, hw, Action.starting]
    have hcarried : tally n (fun _ ↦ carried) start.threads = 0 :=
      tally_eq_zero fun w _ ↦ by by_cases hw : w = 0 <;> simp [start, hw, Action.carried]
    rw [hstarting, hcarried]
    exact ⟨rfl, rfl, Multiset.nodup_zero, rfl⟩
  covered w := by
    by_cases hw : w = 0 <;> simp [start, hw, Covered, Anchored]
  waits w := by
    by_cases hw : w = 0 <;> simp [start, hw, Runtime.waits, Scheduler.start]
  destroys _ w := by
    by_cases hw : w = 0 <;> simp [start, hw, Runtime.destroys]
  destroyed := nofun
  pending := nofun

theorem step_cases {e : ℕ × Choice} (h : (transitions n role).step s e = some s') :
    e.1 < n ∧ ∃ code, s.scheduler.act (role e.1) e.2 (s.threads e.1) = some (s'.scheduler, code) ∧
      s'.threads = Function.update s.threads e.1 code := by
  simp only [transitions] at h
  split at h
  · rename_i hlt
    obtain ⟨⟨t, code⟩, hact, heq⟩ := Option.map_eq_some_iff.mp h
    cases heq
    exact ⟨hlt, code, hact, rfl⟩
  · cases h

namespace Sound

/-- Nobody has a task in hand once the main thread is past its wait. -/
theorem quiet (hs : Sound n s) (hpassed : s.scheduler.passed) {w : ℕ} (hw : w < n) :
    ¬ Anchored (s.threads w) ∧ s.scheduler.stored = 0 := by
  have hzero : tally n (fun _ ↦ carried) s.threads + s.scheduler.stored = 0 := by
    apply Multiset.card_eq_zero.mp
    rw [← hs.accounts.pending]
    exact hs.pending hpassed
  obtain ⟨hcarried, hstored⟩ := add_eq_zero.mp hzero
  refine ⟨?_, hstored⟩
  rintro (hw' | hw')
  · obtain ⟨t, ht⟩ := Multiset.exists_mem_of_ne_zero hw'
    have hmem : t ∈ tally n (fun _ ↦ carried) s.threads := mem_tally.mpr ⟨w, hw, ht⟩
    rw [hcarried] at hmem
    exact Multiset.notMem_zero t hmem
  · have hwaits := hs.waits w
    rw [if_neg (by simp [hpassed])] at hwaits
    exact List.count_eq_zero.mp (Nat.le_zero.mp hwaits) hw'

/-- Past the wait nothing begins and nothing is submitted any more. -/
theorem step_passed (hs : Sound n s) (hpassed : s.scheduler.passed) {e : ℕ × Choice}
    (h : (transitions n role).step s e = some s') :
    s'.scheduler.begun = s.scheduler.begun ∧ s'.scheduler.submitted = s.scheduler.submitted ∧
      s'.scheduler.pending = s.scheduler.pending := by
  obtain ⟨hlt, code, hact, -⟩ := step_cases h
  have hquiet := (hs.quiet hpassed hlt).1
  have hcovered := hs.covered e.1
  generalize s.threads e.1 = before at hact hquiet hcovered
  rcases Scheduler.act_cases hact with ⟨rfl, htake⟩ | ⟨a, rest, now, rfl, rfl, hperforms⟩
  · obtain ⟨C, -, -, hpending, -, hbegun, -, hsubmitted, -⟩ := Scheduler.take_cases htake
    exact ⟨hbegun, hsubmitted, hpending⟩
  · refine hperforms.quiet (hcovered.quiet hquiet a List.mem_cons_self) ?_
    by_contra hcarried
    exact hquiet (.inl (by simp [hcarried]))

theorem passed_of_step (hpassed : s.scheduler.passed) {e : ℕ × Choice}
    (h : (transitions n role).step s e = some s') : s'.scheduler.passed := by
  obtain ⟨-, code, hact, -⟩ := step_cases h
  rcases Scheduler.act_shutdown hact with ⟨hsame, -⟩ | ⟨-, -, hpassed', -⟩ | ⟨hsame, -⟩
  · exact hsame.trans hpassed
  · exact hpassed'
  · exact hsame.trans hpassed

/-- The code of the other threads stays as it is. -/
theorem thread_eq {f : List Action → Multiset Task} (hf : f [] = 0) {w : ℕ} (hw : w < n)
    (threads : ℕ → List Action) (code : List Action) :
    tally n (fun _ ↦ f) (Function.update threads w code) =
      f code + tally n (fun _ ↦ f) (Function.update threads w []) := by
  rw [tally_lose (f := fun _ ↦ f) (y := []) hw hf, Function.update_self,
    Function.update_idem]

theorem step (hs : Sound n s) {e : ℕ × Choice} (h : (transitions n role).step s e = some s') :
    Sound n s' := by
  obtain ⟨hlt, code, hact, hthreads⟩ := step_cases h
  have hbefore (f : List Action → Multiset Task) (hf : f [] = 0) :=
    Function.update_eq_self e.1 s.threads ▸ thread_eq hf hlt s.threads (s.threads e.1)
  have hown : s'.threads e.1 = code := by rw [hthreads, Function.update_self]
  have hother (w : ℕ) (hw : w ≠ e.1) : s'.threads w = s.threads w := by
    rw [hthreads, Function.update_of_ne hw]
  have haccounts : s'.scheduler.Accounts (tally n (fun _ ↦ starting) s'.threads)
      (tally n (fun _ ↦ carried) s'.threads) := by
    have hs := hs.accounts
    rw [hbefore starting rfl, hbefore carried rfl] at hs
    rw [hthreads, thread_eq (f := starting) rfl hlt, thread_eq (f := carried) rfl hlt]
    exact hs.act hact
  have hcovered (w : ℕ) : Covered (s'.threads w) := by
    by_cases hw : w = e.1
    · rw [hw, hown]
      exact Scheduler.act_covered (hs.covered e.1) hact
    · rw [hother w hw]
      exact hs.covered w
  have hpending (hpassed : s.scheduler.passed) : s'.scheduler.pending = 0 :=
    (hs.step_passed hpassed h).2.2.trans (hs.pending hpassed)
  rcases Scheduler.act_shutdown hact with ⟨hpassed, hdestroyed, hwaits, hdestroys⟩ |
      ⟨hzero, hzero', hpassed, hdestroyed, hwaits⟩ | ⟨hpassed, hwaits, hdestroys⟩
  · refine ⟨haccounts, hcovered, fun w ↦ ?_, fun hfalse w ↦ ?_, ?_, fun htrue ↦ ?_⟩
    · rw [hpassed]
      by_cases hw : w = e.1
      · rw [hw, hown, hwaits]
        exact hs.waits e.1
      · rw [hother w hw]
        exact hs.waits w
    · by_cases hw : w = e.1
      · rw [hw, hown, hdestroys]
        exact hs.destroys (hpassed ▸ hfalse) e.1
      · rw [hother w hw]
        exact hs.destroys (hpassed ▸ hfalse) w
    · rw [hpassed, hdestroyed]
      exact hs.destroyed
    · exact hpending (hpassed ▸ htrue)
  · have hmain := hs.waits e.1
    rw [hwaits] at hmain
    have hbound : e.1 = 0 ∧ s.scheduler.passed = false := by
      by_contra hne
      rw [if_neg hne] at hmain
      omega
    rw [if_pos hbound] at hmain
    refine ⟨haccounts, hcovered, fun w ↦ ?_, fun hfalse ↦ ?_, fun _ ↦ hpassed, fun _ ↦ hzero'⟩
    · by_cases hw : w = e.1
      · rw [hw, hown]
        omega
      · have hrest := hs.waits w
        rw [if_neg fun hmain ↦ hw (hmain.1.trans hbound.1.symm)] at hrest
        rw [hother w hw]
        exact hrest.trans (Nat.zero_le _)
    · rw [hpassed] at hfalse
      cases hfalse
  · have htrue : s.scheduler.passed = true := by
      by_contra hfalse
      have hnone := hs.destroys (Bool.eq_false_iff.mpr hfalse) e.1
      omega
    refine ⟨haccounts, hcovered, fun w ↦ ?_, fun hfalse ↦ ?_, fun _ ↦ hpassed.trans htrue,
      fun _ ↦ hpending htrue⟩
    · rw [hpassed]
      by_cases hw : w = e.1
      · rw [hw, hown, hwaits]
        exact hs.waits e.1
      · rw [hother w hw]
        exact hs.waits w
    · rw [hpassed, htrue] at hfalse
      cases hfalse

end Sound

theorem sound_of_run {events : List (ℕ × Choice)}
    (hrun : (transitions n role).run start events = some s) : Sound n s :=
  Transitions.run_invariant (fun hs hstep ↦ hs.step hstep) (sound_start n) hrun

/-- What happens past the wait of the main thread, in any number of steps. -/
theorem Sound.run_passed (hs : Sound n s) (hpassed : s.scheduler.passed)
    {events : List (ℕ × Choice)} (hrun : (transitions n role).run s events = some s') :
    s'.scheduler.pending = 0 ∧ s'.scheduler.begun = s.scheduler.begun ∧
      s'.scheduler.submitted = s.scheduler.submitted := by
  induction events generalizing s with
  | nil =>
      cases hrun
      exact ⟨hs.pending hpassed, rfl, rfl⟩
  | cons e rest ih =>
      obtain ⟨u, hstep, hrest⟩ := (transitions n role).run_cons_eq_some.mp hrun
      obtain ⟨hbegun, hsubmitted, -⟩ := hs.step_passed hpassed hstep
      obtain ⟨hpending, hbegun', hsubmitted'⟩ :=
        ih (hs.step hstep) (passed_of_step hpassed hstep) hrest
      exact ⟨hpending, hbegun'.trans hbegun, hsubmitted'.trans hsubmitted⟩

/-- In every state that the scheduler reaches, the counter is the number of the
tasks that have begun and not ended.  Each of them ends at most once, what has not
ended is in hand exactly once, and no end finds the counter at zero.  The pool is
destroyed behind the wait only, where the counter is zero; from then on nothing
begins and nothing is submitted to the pool. -/
theorem tasks_end_once {events : List (ℕ × Choice)}
    (hrun : (transitions n role).run start events = some s) :
    s.scheduler.pending = (s.scheduler.begun - s.scheduler.ended).card ∧
      s.scheduler.begun.Nodup ∧ s.scheduler.ended ≤ s.scheduler.begun ∧
      (∀ t ∈ s.scheduler.begun, s.scheduler.ended.count t + (s.inHand n).count t = 1) ∧
      (∀ w < n, ∀ t rest, s.threads w = .taskEnd t :: rest → s.scheduler.pending ≠ 0) ∧
      (s.scheduler.destroyed → s.scheduler.passed) ∧
      (s.scheduler.passed → ∀ later s', (transitions n role).run s later = some s' →
        s'.scheduler.pending = 0 ∧ s'.scheduler.begun = s.scheduler.begun ∧
          s'.scheduler.submitted = s.scheduler.submitted) := by
  have hs := sound_of_run hrun
  have hbegun : s.scheduler.begun = s.inHand n + s.scheduler.ended := hs.accounts.begun
  have hnodup : s.scheduler.begun.Nodup := by
    have hcreated := hs.accounts.nodup
    rw [hs.accounts.created] at hcreated
    exact (Multiset.nodup_add.mp hcreated).2.1
  refine ⟨?_, hnodup, ?_, fun t ht ↦ ?_, fun w hw t rest hcode ↦ ?_, hs.destroyed,
    fun hpassed later s' ↦ hs.run_passed hpassed⟩
  · rw [hbegun, Multiset.add_sub_cancel_right]
    exact hs.accounts.pending
  · rw [hbegun]
    exact Multiset.le_add_left _ _
  · rw [add_comm, ← Multiset.count_add, ← hbegun]
    exact Multiset.count_eq_one_of_mem hnodup ht
  · have hmem : t ∈ s.inHand n := by
      refine Multiset.mem_add.mpr (.inl (mem_tally.mpr ⟨w, hw, ?_⟩))
      rw [hcode, carried_cons]
      exact Multiset.mem_add.mpr (.inl (Multiset.mem_singleton_self t))
    have hpending : s.scheduler.pending = (s.inHand n).card := hs.accounts.pending
    rw [hpending]
    exact (Multiset.card_pos_iff_exists_mem.mpr ⟨t, hmem⟩).ne'

/-- Main spawns a call and calls an asynchronous function that awaits it; one
worker runs both, and main destroys the pool. -/
def awaitedRun : List (ℕ × Choice) :=
  let spawned : Task := ⟨.spawn, 0⟩
  let caller : Task := ⟨.async, 1⟩
  [(0, .start caller .pool), (0, .go), (0, .go), (0, .start spawned .pool), (0, .go), (0, .go),
    (0, .leave), (1, .go), (1, .await (.ofTask spawned)), (1, .go), (1, .go), (1, .leave),
    (1, .go), (1, .go), (1, .go), (1, .go), (1, .go), (1, .go), (1, .leave), (1, .go), (1, .go),
    (1, .go), (0, .go), (1, .go), (0, .go)]

theorem tasks_end_once_awaited :
    ∃ s, (transitions 2 fun _ ↦ .worker).run start awaitedRun = some s ∧
    s.scheduler.destroyed ∧ s.scheduler.begun.card = 2 ∧
    s.scheduler.pending = (s.scheduler.begun - s.scheduler.ended).card := by
  have hrun : ((transitions 2 fun _ ↦ .worker).run start awaitedRun).any
      (fun s ↦ s.scheduler.destroyed ∧ s.scheduler.begun.card = 2) = true := by
    decide +kernel
  obtain ⟨s, hs, hend⟩ := (Option.any_eq_true _ _).mp hrun
  obtain ⟨hdestroyed, hbegun⟩ := of_decide_eq_true hend
  exact ⟨s, hs, hdestroyed, hbegun, (tasks_end_once hs).1⟩

end SchedulerSystem

end TinyCPlus.Runtime
