import TinyCPlus.Runtime.GrpcServer

/-!
# The flag of a server

Every call of `tc_grpc_server_serve` in progress counts one in `running`, unless
one stores 0 while another has not yet taken its add back.
-/

namespace TinyCPlus.Runtime

open TinyCPlus.Library

namespace TcGrpcServer

/-- What a step of a call does to the flag. -/
theorem advance_cases {s s' : TcGrpcServer} {c : ServeCall} {o : ServeOutcome}
    {r : ServeCall ⊕ ℕ} (h : s.advance c o = some (s', r)) :
    (c.point = .refused ∧ r = .inr 1 ∧ s' = s.addRunning (-1)) ∨
      (c.point = .leaving ∧ r = .inr c.error ∧ s' = { s with running := 0 }) ∨
      (c.Past ∧ s'.running = s.running ∧ ∃ c' : ServeCall, c'.Past ∧ r = .inl c') := by
  rcases c with ⟨point, maximum, count, jobs, error⟩
  cases point <;> cases o <;> simp only [advance] at h <;> (try split_ifs at h) <;>
    simp only [reduceCtorEq, Option.some.injEq, Prod.mk.injEq] at h <;>
    obtain ⟨rfl, rfl⟩ := h <;> simp [ServeCall.Past]

end TcGrpcServer

namespace ServerSystem

section Steps

variable {s t : ServerSystem}

theorem step_serve {maximum : ℤ} (h : transitions.step s (.serve maximum) = some t) :
    t = s.serve maximum := by
  rcases hd : s.destroyer <;> simp only [transitions, hd, reduceCtorEq, Option.some.injEq] at h <;>
    exact h.symm

theorem step_call {c : ServeCall} {o : ServeOutcome}
    (h : transitions.step s (.step c o) = some t) :
    c ∈ s.calls ∧ ∃ server r, s.server.advance c o = some (server, r) ∧
      t = s.settle c server r := by
  have hopen : (if c ∈ s.calls then
      (s.server.advance c o).map fun p ↦ s.settle c p.1 p.2 else none) = some t := by
    rcases hd : s.destroyer <;> simp only [transitions, hd, reduceCtorEq] at h <;> exact h
  obtain ⟨hc, hmap⟩ := Option.ite_none_right_eq_some.mp hopen
  obtain ⟨⟨server, r⟩, hadvance, rfl⟩ := Option.map_eq_some_iff.mp hmap
  exact ⟨hc, server, r, hadvance, rfl⟩

theorem step_connectionEnds {c : ServeCall}
    (h : transitions.step s (.connectionEnds c) = some t) :
    c ∈ s.calls ∧ t = s.connectionEnds c := by
  have hopen : (if c ∈ s.calls ∧ 0 < c.jobs then some (s.connectionEnds c) else none) = some t := by
    rcases hd : s.destroyer <;> simp only [transitions, hd, reduceCtorEq] at h <;> exact h
  obtain ⟨hc, heq⟩ := Option.ite_none_right_eq_some.mp hopen
  exact ⟨hc.1, (Option.some.inj heq).symm⟩

/-- The step concerns neither the flag nor the calls. -/
def Aside (s t : ServerSystem) : Prop :=
  t.calls = s.calls ∧ t.server.running = s.server.running

theorem step_stop (h : transitions.step s .stop = some t) : Aside s t := by
  rcases hd : s.destroyer <;> simp only [transitions, hd, reduceCtorEq, Option.some.injEq] at h <;>
    subst h <;> exact ⟨rfl, rfl⟩

theorem step_destroy (h : transitions.step s .destroy = some t) :
    Aside s t ∧ t.destroyer = .waiting := by
  rcases hd : s.destroyer <;> simp only [transitions, hd, reduceCtorEq, Option.some.injEq] at h
  subst h
  exact ⟨⟨rfl, rfl⟩, rfl⟩

theorem step_look (h : transitions.step s .look = some t) :
    Aside s t ∧ (s.server.running = 0 → t.destroyer = .returned) := by
  rcases hd : s.destroyer <;> simp only [transitions, hd, reduceCtorEq, Option.some.injEq] at h
  subst h
  rw [look]
  by_cases hrunning : s.server.running ≠ 0
  · rw [if_pos hrunning]
    exact ⟨⟨rfl, rfl⟩, fun hzero ↦ absurd hzero hrunning⟩
  · rw [if_neg hrunning]
    exact ⟨⟨rfl, rfl⟩, fun _ ↦ rfl⟩

end Steps

/-- What holds of the flag whatever is going on. -/
structure Guarded (s : ServerSystem) : Prop where
  idle : s.calls = 0 → s.server.running = 0
  single : s.calls.countP ServeCall.Past ≤ 1
  admits : s.calls = 0 → ∀ {maximum : ℤ} {t : ServerSystem},
    transitions.step s (.serve maximum) = some t → ∃ c : ServeCall, t.calls = {c} ∧ c.Past
  ends : s.calls = 0 → ∀ {t u : ServerSystem}, transitions.step s .destroy = some t →
    transitions.step t .look = some u → u.destroyer = .returned

/-- Nobody stores 0 between an add of another call and the add that takes it back,
and the calls can be counted in 64 bits. -/
def Apart (s : ServerSystem) : ServerEvent → Prop
  | .serve _ => s.calls.card + 1 < 2 ^ 64
  | .step c _ => c.point = .leaving → ∀ d ∈ s.calls, d.Past
  | _ => True

instance (s : ServerSystem) : (e : ServerEvent) → Decidable (s.Apart e)
  | .serve _ => inferInstanceAs (Decidable (_ < _))
  | .step c _ => inferInstanceAs (Decidable (c.point = .leaving → ∀ d ∈ s.calls, d.Past))
  | .connectionEnds _ | .stop | .destroy | .look => inferInstanceAs (Decidable True)

/-- The flag counts the calls, and one of them at most is past its guard. -/
structure Counted (s : ServerSystem) : Prop where
  running : s.server.running = BitVec.ofNat 64 s.calls.card
  small : s.calls.card < 2 ^ 64
  single : s.calls.countP ServeCall.Past ≤ 1

namespace Counted

variable {s t : ServerSystem}

theorem running_eq_zero_iff (h : s.Counted) : s.server.running = 0 ↔ s.calls = 0 := by
  rw [h.running, ← Multiset.card_eq_zero]
  constructor
  · intro hzero
    have := congrArg BitVec.toNat hzero
    rwa [BitVec.toNat_ofNat, Nat.mod_eq_of_lt h.small] at this
  · intro hzero
    rw [hzero]
    rfl

theorem serve (h : s.Counted) (maximum : ℤ) (hsmall : s.calls.card + 1 < 2 ^ 64) :
    (s.serve maximum).Counted where
  running := by
    rw [ServerSystem.serve, Multiset.card_cons, BitVec.ofNat_add, ← h.running]
    exact TcGrpcServer.addRunning_running s.server 1
  small := by
    rw [ServerSystem.serve, Multiset.card_cons]
    exact hsmall
  single := by
    rw [ServerSystem.serve]
    by_cases hrunning : s.server.running ≠ 0
    · rw [if_pos hrunning, Multiset.countP_cons_of_neg _ (by simp [ServeCall.Past])]
      exact h.single
    · rw [if_neg hrunning]
      rw [not_not, h.running_eq_zero_iff] at hrunning
      dsimp only
      rw [hrunning]
      exact Multiset.countP_le_card _ _

/-- The call that leaves is alone when all calls are past their guards. -/
theorem alone (h : s.Counted) {c : ServeCall} (hc : c ∈ s.calls)
    (hpast : ∀ d ∈ s.calls, d.Past) : s.calls = {c} := by
  have hcard : s.calls.card ≤ 1 := by
    rw [← Multiset.countP_eq_card.mpr hpast]
    exact h.single
  obtain ⟨rest, hrest⟩ := Multiset.exists_cons_of_mem hc
  rw [hrest, Multiset.card_cons] at hcard
  have hnil : rest = 0 := Multiset.card_eq_zero.mp (by omega)
  rw [hrest, hnil]
  rfl

theorem exchange (h : s.Counted) {c c' : ServeCall} (hc : c ∈ s.calls)
    (hpast : c'.Past → c.Past) (hcalls : t.calls = c' ::ₘ s.calls.erase c)
    (hrunning : t.server.running = s.server.running) : t.Counted := by
  have hcard : t.calls.card = s.calls.card := by
    rw [hcalls, Multiset.card_cons, Multiset.card_erase_add_one hc]
  refine ⟨by rw [hrunning, hcard, h.running], by rw [hcard]; exact h.small, ?_⟩
  have hsingle := h.single
  rw [← Multiset.cons_erase hc, Multiset.countP_cons] at hsingle
  rw [hcalls, Multiset.countP_cons]
  by_cases hc' : c'.Past
  · rw [if_pos (hpast hc')] at hsingle
    rwa [if_pos hc']
  · rw [if_neg hc', add_zero]
    exact (Nat.le_add_right _ _).trans hsingle

/-- A refused call takes its add back. -/
theorem refused (h : s.Counted) {c : ServeCall} (hc : c ∈ s.calls) (hpoint : c.point = .refused) :
    (s.settle c (s.server.addRunning (-1)) (.inr 1)).Counted := by
  have hcard : (s.calls.erase c).card + 1 = s.calls.card := Multiset.card_erase_add_one hc
  have hrefused : ¬ c.Past := not_not.mpr hpoint
  have hsingle := h.single
  rw [← Multiset.cons_erase hc, Multiset.countP_cons_of_neg _ hrefused] at hsingle
  have hless : (s.calls.erase c).card < s.calls.card := by omega
  refine ⟨?_, hless.trans h.small, hsingle⟩
  change (s.server.addRunning (-1)).running = BitVec.ofNat 64 (s.calls.erase c).card
  rw [TcGrpcServer.addRunning_running]
  have hcancel : BitVec.ofNat 64 1 + -1 = 0#64 := by decide
  rw [h.running, ← hcard, BitVec.ofNat_add, BitVec.add_assoc, hcancel, BitVec.add_zero]

/-- The call that leaves stores the number of the others. -/
theorem leaving (h : s.Counted) {c : ServeCall} (hc : c ∈ s.calls)
    (hpast : ∀ d ∈ s.calls, d.Past) (code : ℕ) :
    (s.settle c { s.server with running := 0 } (.inr code)).Counted := by
  have hnil : s.calls.erase c = 0 := by
    rw [h.alone hc hpast]
    exact Multiset.erase_singleton c
  have hcalls : (s.settle c { s.server with running := 0 } (.inr code)).calls = 0 := hnil
  refine ⟨?_, ?_, ?_⟩ <;> rw [hcalls]
  · rfl
  · rw [Multiset.card_zero]
    norm_num
  · exact Nat.zero_le 1

theorem keeps (h : s.Counted) (haside : Aside s t) : t.Counted := by
  obtain ⟨hcalls, hrunning⟩ := haside
  exact ⟨by rw [hrunning, hcalls]; exact h.running, by rw [hcalls]; exact h.small,
    by rw [hcalls]; exact h.single⟩

theorem step (h : s.Counted) {e : ServerEvent} (he : s.Apart e)
    (hstep : transitions.step s e = some t) : t.Counted := by
  cases e with
  | serve maximum =>
      rw [step_serve hstep]
      exact h.serve maximum he
  | step c o =>
      obtain ⟨hc, server, r, hadvance, rfl⟩ := step_call hstep
      rcases TcGrpcServer.advance_cases hadvance with
        ⟨hpoint, rfl, rfl⟩ | ⟨hpoint, rfl, rfl⟩ | ⟨hpast, hrunning, c', hpast', rfl⟩
      · exact h.refused hc hpoint
      · exact h.leaving hc (he hpoint) _
      · exact h.exchange hc (fun _ ↦ hpast) rfl hrunning
  | connectionEnds c =>
      obtain ⟨hc, rfl⟩ := step_connectionEnds hstep
      have hpast : ({ c with jobs := c.jobs - 1 } : ServeCall).Past → c.Past := id
      have hrunning : (s.connectionEnds c).server.running = s.server.running := by
        rw [connectionEnds_server, TcGrpcServer.addActive_running]
      exact h.exchange hc hpast rfl hrunning
  | stop => exact h.keeps (step_stop hstep)
  | destroy => exact h.keeps (step_destroy hstep).1
  | look => exact h.keeps (step_look hstep).1

theorem guarded (h : s.Counted) : s.Guarded where
  idle := h.running_eq_zero_iff.mpr
  single := h.single
  admits := by
    intro hidle maximum t hserve
    have hzero : s.server.running = 0 := h.running_eq_zero_iff.mpr hidle
    rw [step_serve hserve, ServerSystem.serve, if_neg (not_not.mpr hzero)]
    refine ⟨_, congrArg _ hidle, ?_⟩
    simp [ServeCall.Past]
  ends := by
    intro hidle t u hdestroy hlook
    obtain ⟨⟨-, hrunning⟩, -⟩ := step_destroy hdestroy
    exact (step_look hlook).2 (hrunning.trans (h.running_eq_zero_iff.mpr hidle))

end Counted

theorem counted_create : create.Counted := by
  have hcalls : create.calls = 0 := rfl
  refine ⟨rfl, ?_, Nat.zero_le 1⟩
  rw [hcalls, Multiset.card_zero]
  norm_num

/-- The flag guards the server in every run in which no store of 0 comes between a
refused call's two adds. -/
theorem guarded_of_apart {events : List ServerEvent} {s : ServerSystem}
    (h : (transitions.restrict Apart).run create events = some s) : s.Guarded := by
  refine Counted.guarded (Transitions.run_invariant (P := Counted) ?_ counted_create h)
  intro s e t hs hstep
  obtain ⟨he, hstep⟩ := Transitions.restrict_step_eq_some.mp hstep
  exact hs.step he hstep

/-- One call serves until the server is stopped, and leaves. -/
def servedRun : List ServerEvent :=
  [.serve 0, .step ⟨.entered, 0, 0, 0, 0⟩ .success, .stop,
    .step ⟨.head, 0, 0, 0, 0⟩ .success, .step ⟨.draining, 0, 0, 0, 0⟩ .success,
    .step ⟨.leaving, 0, 0, 0, 0⟩ .success]

theorem guarded_of_apart_served :
    ∃ s, (transitions.restrict Apart).run create servedRun = some s ∧ s.Guarded := by
  have hrun : ((transitions.restrict Apart).run create servedRun).isSome = true := by decide +kernel
  obtain ⟨s, hs⟩ := Option.isSome_iff_exists.mp hrun
  exact ⟨s, hs, guarded_of_apart hs⟩

/-- A second call adds while the first one serves, and takes its add back when the
first one has left. -/
def driftingRun : List ServerEvent :=
  [.serve 0, .step ⟨.entered, 0, 0, 0, 0⟩ .success, .serve 0, .stop,
    .step ⟨.head, 0, 0, 0, 0⟩ .success, .step ⟨.draining, 0, 0, 0, 0⟩ .success,
    .step ⟨.leaving, 0, 0, 0, 0⟩ .success, .step ⟨.refused, 0, 0, 0, 0⟩ .success]

theorem driftingRun_not_guarded :
    ∃ s, transitions.run create driftingRun = some s ∧ ¬ s.Guarded := by
  have hrun : (transitions.run create driftingRun).isSome = true := by decide +kernel
  obtain ⟨s, hs⟩ := Option.isSome_iff_exists.mp hrun
  have hend : (transitions.run create driftingRun).map
      (fun s ↦ (s.calls, s.server.running)) = some (0, -1) := by decide +kernel
  rw [hs] at hend
  obtain ⟨hcalls, hrunning⟩ := Prod.ext_iff.mp (Option.some.inj hend)
  have hdrift : s.server.running = -1 := hrunning
  refine ⟨s, hs, fun hguarded ↦ absurd (hguarded.idle hcalls) ?_⟩
  rw [hdrift]
  decide

end ServerSystem

end TinyCPlus.Runtime
