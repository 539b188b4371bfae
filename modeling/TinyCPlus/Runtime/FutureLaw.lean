import TinyCPlus.Runtime.FutureRuns

/-!
# The law of futures

Every step keeps the references, the value and the continuations in order, so
that every run does.
-/

namespace TinyCPlus.Runtime

open TinyCPlus.Library

variable {τ V P A : Type*}

/-- A step by which a continuation gets closer to its run. -/
def FutureEvent.Delivers : FutureEvent τ V P A → Prop
  | .deliver _ _ | .actionReturns _ | .runJob _ => True
  | .retain _ _ | .release _ | .dispose | .complete _ _ _ | .ready _ | .get _ | .getAgain _
  | .thenDo _ _ _ _ | .wake _ => False

/-- The continuations that some thread has in hand. -/
def inHand (deliveries : Multiset (Delivery P A)) : Multiset (Continuation P A) :=
  deliveries.bind fun d ↦ d.pending

theorem inHand_cons (d : Delivery P A) (deliveries : Multiset (Delivery P A)) :
    inHand (d ::ₘ deliveries) = (d.pending : Multiset (Continuation P A)) + inHand deliveries :=
  Multiset.cons_bind _ _ _

structure FutureInv (s : FutureSystem τ V P A) : Prop where
  references : References s.future.refs s.holders s.disposing s.frees s.ready
  completion : Completion s.future.complete s.future.data s.future.error s.history
  registrations : Registrations s.future.complete s.future.continuations
    (inHand s.deliveries) s.jobs s.calls s.history
  fault_eq : s.fault = false

namespace FutureInv

theorem create (t : τ) (zero : V) : FutureInv (.create t zero : FutureSystem τ V P A) :=
  ⟨References.create t, ⟨rfl, each_nil _⟩, Registrations.create, rfl⟩

variable {s s' : FutureSystem τ V P A} {t : τ}

theorem touch_eq (h : FutureInv s) (ht : t ∈ s.holders) : s.touch = s :=
  if_pos (h.references.frees_eq ht)

theorem complete (h : FutureInv s) (value : Option V) (error : ℤ) :
    FutureInv (s.complete t value error) := by
  have hcompletion := h.completion
  rw [FutureSystem.complete]
  split
  · rename_i hdone
    exact ⟨h.references, hcompletion.record rfl (hcompletion.ne_nil_iff.mpr hdone),
      h.registrations.record rfl rfl, h.fault_eq⟩
  · rename_i hopen
    rw [Bool.not_eq_true] at hopen
    rw [hopen] at hcompletion
    have hregistrations := h.registrations.complete t (value.getD s.future.data) error
    refine ⟨h.references.withReady fun u hu ↦ h.references.waiters u ?_,
      hcompletion.complete t _ error, ?_, h.fault_eq⟩
    · have hmem : u ∈ (0 : Multiset τ) + (s.ready.woken + s.ready.waiting) := hu
      rwa [zero_add, add_comm] at hmem
    · rw [← inHand_cons ⟨false, s.future.continuations⟩] at hregistrations
      exact hregistrations

theorem get (h : FutureInv s) (ht : t ∈ s.holders) : FutureInv (s.get t) := by
  rw [FutureSystem.get]
  split
  · rename_i hdone
    have hgot : completions s.history = [(s.future.data, s.future.error)] := by
      rw [h.completion.completions_eq, if_pos hdone]
    exact ⟨h.references, h.completion.record rfl hgot, h.registrations.record rfl rfl,
      h.fault_eq⟩
  · refine ⟨h.references.withReady fun u hu ↦ ?_, h.completion, h.registrations, h.fault_eq⟩
    rw [CondVar.wait_waiting, CondVar.wait_woken, Multiset.cons_add, Multiset.mem_cons] at hu
    rcases hu with rfl | hu
    · exact ht
    · exact h.references.waiters u hu

theorem thenDo (h : FutureInv s) (pool : Option P) (action : A) :
    FutureInv (s.thenDo pool action) := by
  have hcompletion := h.completion.record (x := .registered ⟨s.calls, pool, action⟩) rfl trivial
  have hregistrations := h.registrations
  rw [FutureSystem.thenDo]
  dsimp only
  split
  · rename_i hdone
    rw [hdone] at hregistrations
    have hlate := hregistrations.late pool action
    rw [← Multiset.singleton_add, ← Multiset.coe_singleton,
      ← inHand_cons ⟨false, [⟨s.calls, pool, action⟩]⟩, ← hdone] at hlate
    exact ⟨h.references, hcompletion, hlate, h.fault_eq⟩
  · rename_i hopen
    rw [Bool.not_eq_true] at hopen
    rw [hopen] at hregistrations
    have hpush := hregistrations.push pool action
    rw [← hopen] at hpush
    exact ⟨h.references, hcompletion, hpush, h.fault_eq⟩

/-! ## Deliveries -/

section Deliveries

variable [DecidableEq P] [DecidableEq A]

theorem deliver (h : FutureInv s) {d : Delivery P A} (hd : d ∈ s.deliveries) {accepted : Bool}
    (hdeliver : s.deliver d accepted = some s') : FutureInv s' := by
  rw [FutureSystem.deliver.eq_def] at hdeliver
  split at hdeliver
  · rename_i k rest
    have hregistrations := h.registrations
    rw [← Multiset.cons_erase hd, inHand_cons, ← Multiset.cons_coe, Multiset.cons_add]
      at hregistrations
    split at hdeliver
    · cases hdeliver
      have hsubmit := hregistrations.submit
      rw [← inHand_cons ⟨false, rest⟩] at hsubmit
      exact ⟨h.references, h.completion, hsubmit, h.fault_eq⟩
    · cases hdeliver
      have hmem : k ∈ k ::ₘ (rest + inHand (s.deliveries.erase ⟨false, k :: rest⟩)) + s.jobs :=
        Multiset.mem_add.mpr (.inl (Multiset.mem_cons_self _ _))
      have hallowed : FutureAllowed s.history (.ran k) :=
        ⟨h.completion.ne_nil_iff.mpr (hregistrations.delivered k hmem),
          hregistrations.mem_registered hmem⟩
      have hrun := hregistrations.run_pending
      rw [← inHand_cons ⟨true, rest⟩] at hrun
      exact ⟨h.references, h.completion.record rfl hallowed, hrun, h.fault_eq⟩
  · cases hdeliver
  · cases hdeliver

theorem runJob (h : FutureInv s) {k : Continuation P A} (hk : k ∈ s.jobs) :
    FutureInv ({ s with jobs := s.jobs.erase k }.record (.ran k)) := by
  have hmem : k ∈ inHand s.deliveries + s.jobs := Multiset.mem_add.mpr (.inr hk)
  have hallowed : FutureAllowed s.history (.ran k) :=
    ⟨h.completion.ne_nil_iff.mpr (h.registrations.delivered k hmem),
      h.registrations.mem_registered hmem⟩
  have hregistrations := h.registrations
  rw [← Multiset.cons_erase hk] at hregistrations
  exact ⟨h.references, h.completion.record rfl hallowed, hregistrations.run_job, h.fault_eq⟩

theorem actionReturns (h : FutureInv s) {d : Delivery P A} (hd : d ∈ s.deliveries) :
    FutureInv { s with deliveries := ⟨false, d.pending⟩ ::ₘ s.deliveries.erase d } := by
  have hregistrations := h.registrations
  rw [← Multiset.cons_erase hd, inHand_cons, ← inHand_cons ⟨false, d.pending⟩]
    at hregistrations
  exact ⟨h.references, h.completion, hregistrations, h.fault_eq⟩

end Deliveries

/-! ## Runs -/

variable [DecidableEq τ] [DecidableEq P] [DecidableEq A]

theorem step {e : FutureEvent τ V P A} (h : FutureInv s)
    (hstep : (FutureSystem.transitions τ V P A).step s e = some s') : FutureInv s' := by
  cases e with
  | retain t u =>
      obtain ⟨⟨hcall, hroom⟩, ⟨⟩⟩ := Option.ite_none_right_eq_some.mp hstep
      rw [h.touch_eq hcall.1]
      exact ⟨h.references.retain hcall.1 hroom u, h.completion, h.registrations, h.fault_eq⟩
  | release t =>
      obtain ⟨hcall, ⟨⟩⟩ := Option.ite_none_right_eq_some.mp hstep
      rw [h.touch_eq hcall.1]
      exact ⟨h.references.release hcall.1 hcall.2, h.completion, h.registrations, h.fault_eq⟩
  | dispose =>
      obtain ⟨hne, ⟨⟩⟩ := Option.ite_none_left_eq_some.mp hstep
      obtain ⟨hfrees, hreferences⟩ := h.references.dispose hne
      rw [FutureSystem.touch, if_pos hfrees]
      exact ⟨hreferences, h.completion, h.registrations, h.fault_eq⟩
  | complete t value error =>
      obtain ⟨hcall, ⟨⟩⟩ := Option.ite_none_right_eq_some.mp hstep
      rw [h.touch_eq hcall.1]
      exact h.complete value error
  | ready t =>
      obtain ⟨hcall, ⟨⟩⟩ := Option.ite_none_right_eq_some.mp hstep
      rw [h.touch_eq hcall.1]
      exact ⟨h.references, h.completion.record rfl h.completion.ne_nil_iff.symm,
        h.registrations.record rfl rfl, h.fault_eq⟩
  | get t =>
      obtain ⟨hcall, ⟨⟩⟩ := Option.ite_none_right_eq_some.mp hstep
      rw [h.touch_eq hcall.1]
      exact h.get hcall.1
  | getAgain t =>
      obtain ⟨ready, hresume, rfl⟩ := Option.map_eq_some_iff.mp hstep
      have htotal := CondVar.resume_total hresume
      have ht : t ∈ s.holders := h.references.waiters t (by
        rw [← htotal]
        exact Multiset.mem_add.mpr (.inl (Multiset.mem_singleton_self t)))
      have hresumed : FutureInv { s with ready := ready } :=
        ⟨h.references.withReady fun u hu ↦ h.references.waiters u (by
          rw [← htotal]
          exact Multiset.mem_add.mpr (.inr hu)), h.completion, h.registrations, h.fault_eq⟩
      rw [hresumed.touch_eq ht]
      exact hresumed.get ht
  | thenDo t allocated pool action =>
      obtain ⟨hcall, ⟨⟩⟩ := Option.ite_none_right_eq_some.mp hstep
      split
      · rw [h.touch_eq hcall.1]
        exact h.thenDo pool action
      · exact h
  | deliver d accepted =>
      obtain ⟨hd, hstep⟩ := Option.ite_none_right_eq_some.mp hstep
      exact h.deliver hd hstep
  | actionReturns d =>
      obtain ⟨hd, ⟨⟩⟩ := Option.ite_none_right_eq_some.mp hstep
      exact h.actionReturns hd.1
  | runJob k =>
      obtain ⟨hk, ⟨⟩⟩ := Option.ite_none_right_eq_some.mp hstep
      exact h.runJob hk
  | wake t =>
      obtain ⟨ready, hwake, rfl⟩ := Option.map_eq_some_iff.mp hstep
      have htotal := CondVar.spurious_total hwake
      exact ⟨h.references.withReady fun u hu ↦ h.references.waiters u (htotal.subst hu),
        h.completion, h.registrations, h.fault_eq⟩

theorem run {events : List (FutureEvent τ V P A)} (h : FutureInv s)
    (hrun : (FutureSystem.transitions τ V P A).run s events = some s') : FutureInv s' :=
  Transitions.run_invariant step h hrun

/-- Some thread gets on with a continuation that has not run. -/
theorem delivers (hopen : inHand s.deliveries + s.jobs ≠ 0) :
    ∃ e : FutureEvent τ V P A, e.Delivers ∧
      ((FutureSystem.transitions τ V P A).step s e).isSome := by
  obtain ⟨k, hk⟩ := Multiset.exists_mem_of_ne_zero hopen
  rcases Multiset.mem_add.mp hk with hk | hk
  · obtain ⟨d, hd, hkd⟩ := Multiset.mem_bind.mp hk
    obtain ⟨inline, pending⟩ := d
    cases inline with
    | true => exact ⟨.actionReturns ⟨true, pending⟩, trivial, by
        simp [FutureSystem.transitions, hd]⟩
    | false =>
        obtain ⟨l, rest, rfl⟩ := List.exists_cons_of_ne_nil (List.ne_nil_of_mem hkd)
        refine ⟨.deliver ⟨false, l :: rest⟩ false, trivial, ?_⟩
        simp [FutureSystem.transitions, hd, FutureSystem.deliver]
  · exact ⟨.runJob k, trivial, by simp [FutureSystem.transitions, hk]⟩

end FutureInv

variable [DecidableEq τ] [DecidableEq P] [DecidableEq A]

/-- Whatever the parties do: a future is completed at most once and keeps that
value and error, which is what every `tc_future_get` returns; a continuation is
run only when it has been registered and the future completed, never twice, and
once when the future is completed and nobody has it in hand; `refs` counts the
references, and when there is none the future is freed once and not used. -/
theorem future_law {t₀ : τ} {zero : V} {events : List (FutureEvent τ V P A)}
    {s : FutureSystem τ V P A}
    (hrun : (FutureSystem.transitions τ V P A).run (.create t₀ zero) events = some s) :
    (completions s.history =
        if s.future.complete = true then [(s.future.data, s.future.error)] else []) ∧
      (∀ pre t value error post, s.history = pre ++ .got t value error :: post →
        completions pre = [(value, error)]) ∧
      (∀ pre k post, s.history = pre ++ .ran k :: post →
        completions pre ≠ [] ∧ k ∈ registered pre) ∧
      ((registered s.history).Nodup ∧
        (ran s.history : Multiset (Continuation P A)) ≤ registered s.history ∧
        (s.future.complete = true → (registered s.history : Multiset (Continuation P A)) =
          inHand s.deliveries + s.jobs + ran s.history) ∧
        (inHand s.deliveries + s.jobs ≠ 0 → ∃ e : FutureEvent τ V P A, e.Delivers ∧
          ((FutureSystem.transitions τ V P A).step s e).isSome)) ∧
      s.future.refs.toNat = s.holders.card ∧
      (s.disposing + s.frees = if s.holders = 0 then 1 else 0) ∧ s.fault = false := by
  have hinv := (FutureInv.create t₀ zero).run hrun
  have hreferences := hinv.references
  have hregistrations := hinv.registrations
  refine ⟨hinv.completion.completions_eq,
    fun pre t value error post hsplit ↦ hinv.completion.allowed pre (.got t value error) post hsplit,
    fun pre k post hsplit ↦ hinv.completion.allowed pre (.ran k) post hsplit,
    ⟨?_, ?_, fun hdone ↦ ?_, FutureInv.delivers⟩, ?_, ?_, hinv.fault_eq⟩
  · exact List.Nodup.of_map Continuation.call (hregistrations.calls_eq ▸ List.nodup_range)
  · rw [hregistrations.registered_eq]
    exact Multiset.le_add_left _ _
  · rw [hregistrations.registered_eq, hregistrations.detached hdone, zero_add]
  · rw [hreferences.refs_eq, BitVec.toNat_ofNat, Nat.mod_eq_of_lt hreferences.card_lt]
  · split
    · rename_i hnone
      exact hreferences.last hnone
    · rename_i hsome
      obtain ⟨hdisposing, hfrees⟩ := hreferences.shared hsome
      rw [hdisposing, hfrees]

/-- Two parties; a continuation is registered before the completion, one after
it, and the pool refuses the second one. -/
theorem future_law_two_parties :
    ∃ s : FutureSystem ℕ ℕ ℕ ℕ, (FutureSystem.transitions ℕ ℕ ℕ ℕ).run (.create 0 0)
        [.retain 0 1, .get 1, .thenDo 0 true (some 5) 6, .complete 0 (some 7) 0, .getAgain 1,
          .deliver ⟨false, [⟨0, some 5, 6⟩]⟩ true, .thenDo 1 true (some 5) 8,
          .release 1, .deliver ⟨false, [⟨1, some 5, 8⟩]⟩ false, .release 0, .dispose,
          .runJob ⟨0, some 5, 6⟩] = some s ∧
      s.fault = false := by
  have hrun : ((FutureSystem.transitions ℕ ℕ ℕ ℕ).run (.create 0 0)
      [.retain 0 1, .get 1, .thenDo 0 true (some 5) 6, .complete 0 (some 7) 0, .getAgain 1,
        .deliver ⟨false, [⟨0, some 5, 6⟩]⟩ true, .thenDo 1 true (some 5) 8,
        .release 1, .deliver ⟨false, [⟨1, some 5, 8⟩]⟩ false, .release 0, .dispose,
        .runJob ⟨0, some 5, 6⟩]).isSome = true := by decide +kernel
  obtain ⟨s, hs⟩ := Option.isSome_iff_exists.mp hrun
  exact ⟨s, hs, (future_law hs).2.2.2.2.2.2⟩

end TinyCPlus.Runtime
