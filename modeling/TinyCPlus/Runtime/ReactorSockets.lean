import TinyCPlus.Runtime.ReactorRuns

/-!
# The sockets of connects

Every socket that a resolver job opens is closed once, except the one that a connect still waits
for or has handed over.
-/

namespace TinyCPlus.Runtime

open TinyCPlus.Library

/-! ## The loop over the addresses -/

/-- The socket that the loop leaves open. -/
def ConnectOutcome.socket? : ConnectOutcome → Option ℕ
  | .failed => none
  | .connected k | .pending k => some k

/-- The loop closes each socket that it opens, except the one that it leaves. -/
theorem connectLoop_spec (s : ℕ) (outcomes : List AddressOutcome) {closed : List ℕ} {next : ℕ}
    {outcome : ConnectOutcome} (h : connectLoop s outcomes = (closed, next, outcome)) :
    s ≤ next ∧ (∀ k ∈ closed, s ≤ k ∧ k < next) ∧
      (∀ k, outcome.socket? = some k → s ≤ k ∧ k < next) ∧
        ∀ k, s ≤ k → k < next → closed.count k = if outcome.socket? = some k then 0 else 1 := by
  induction outcomes generalizing s closed next outcome with
  | nil =>
      cases h
      refine ⟨le_rfl, ?_, ?_, ?_⟩
      · rintro k ⟨⟩
      · rintro k ⟨⟩
      · intro k hlow hhigh
        omega
  | cons first rest ih =>
      cases first with
      | unavailable => exact ih s h
      | refused =>
          rcases hrest : connectLoop (s + 1) rest with ⟨closed', next', outcome'⟩
          rw [connectLoop, hrest, Prod.mk.injEq, Prod.mk.injEq] at h
          obtain ⟨hle, hclosed, hsocket, hcount⟩ := ih (s + 1) hrest
          rw [← h.1, ← h.2.1, ← h.2.2]
          refine ⟨by omega, ?_, ?_, ?_⟩
          · intro k hk
            rcases List.mem_cons.1 hk with rfl | hk
            · omega
            · obtain ⟨hlow, hhigh⟩ := hclosed k hk
              omega
          · intro k hk
            obtain ⟨hlow, hhigh⟩ := hsocket k hk
            omega
          · intro k hlow hhigh
            by_cases hk : k = s
            · have hnot : outcome'.socket? ≠ some k := by
                intro hsome
                obtain ⟨hlow', -⟩ := hsocket k hsome
                omega
              have hzero : closed'.count k = 0 := by
                rw [List.count_eq_zero]
                intro hmem
                obtain ⟨hlow', -⟩ := hclosed k hmem
                omega
              rw [if_neg hnot, hk, List.count_cons_self, ← hk, hzero]
            · rw [List.count_cons_of_ne (Ne.symm hk)]
              exact hcount k (by omega) hhigh
      | connected =>
          cases h
          refine ⟨Nat.le_succ s, by rintro k ⟨⟩, fun k hk ↦ ?_, fun k hlow hhigh ↦ ?_⟩
          · obtain rfl := Option.some.inj hk
            exact ⟨le_rfl, Nat.lt_succ_self _⟩
          · obtain rfl : s = k := by omega
            exact (if_pos rfl).symm
      | pending =>
          cases h
          refine ⟨Nat.le_succ s, by rintro k ⟨⟩, fun k hk ↦ ?_, fun k hlow hhigh ↦ ?_⟩
          · obtain rfl := Option.some.inj hk
            exact ⟨le_rfl, Nat.lt_succ_self _⟩
          · obtain rfl : s = k := by omega
            exact (if_pos rfl).symm

/-! ## Open sockets -/

/-- The request has no socket yet. -/
def RequestPoint.early : RequestPoint → Bool
  | .absent | .created | .resolving => true
  | _ => false

/-- The socket of a connect is open: the request waits for it or has handed it over. -/
def RequestSlot.socketOpen (slot : RequestSlot) : Bool :=
  slot.request.kind = .connect ∧ slot.point.early = false ∧
    (slot.point.settled = true → slot.request.error = 0)

theorem RequestSlot.socketOpen_iff {slot : RequestSlot} : slot.socketOpen = true ↔
    slot.request.kind = .connect ∧ slot.point.early = false ∧
      (slot.point.settled = true → slot.request.error = 0) := by
  rw [socketOpen, decide_eq_true_eq]

/-- The sockets opened so far: each is closed once, or is the open socket of its request. -/
structure Reactor.Sockets (s : Reactor) : Prop where
  closed : ∀ (k id : ℕ), s.opened[k]? = some id → s.closed.count (k : ℤ) =
    if (s.slots id).socketOpen = true ∧ (s.slots id).request.socket = k then 0 else 1
  owner : ∀ id, (s.slots id).socketOpen = true →
    ∃ k : ℕ, (s.slots id).request.socket = k ∧ s.opened[k]? = some id
  late : ∀ id ∈ s.opened, (s.slots id).point.early = false
  range : ∀ x ∈ s.closed, ∃ k : ℕ, x = k ∧ k < s.opened.length

namespace Reactor

variable {s : Reactor}

theorem start_sockets : start.Sockets where
  closed k id h := by cases h
  owner id h := by cases h
  late id h := by cases h
  range x h := by cases h

/-- A step that opens and closes nothing. -/
theorem Sockets.keep (h : s.Sockets) {s' : Reactor} {id : ℕ} {slot : RequestSlot}
    (hslots : s'.slots = Function.update s.slots id slot)
    (hsame : s'.opened = s.opened ∧ s'.closed = s.closed)
    (hopen : slot.socketOpen = (s.slots id).socketOpen)
    (hsocket : slot.socketOpen = true → slot.request.socket = (s.slots id).request.socket)
    (hlate : slot.point.early = true → (s.slots id).point.early = true) : s'.Sockets := by
  have hself : s'.slots id = slot := by rw [hslots, Function.update_self]
  have hother (j : ℕ) (hj : j ≠ id) : s'.slots j = s.slots j := by
    rw [hslots, Function.update_of_ne hj]
  refine ⟨?_, ?_, ?_, ?_⟩
  · intro k j hk
    rw [hsame.1] at hk
    rw [hsame.2, h.closed k j hk]
    by_cases hj : j = id
    · subst hj
      rw [hself, hopen]
      by_cases hold : (s.slots j).socketOpen = true
      · rw [hsocket (hopen.trans hold)]
      · simp [hold]
    · rw [hother j hj]
  · intro j hj
    rw [hsame.1]
    by_cases heq : j = id
    · subst heq
      rw [hself] at hj ⊢
      rw [hsocket hj]
      exact h.owner j (hopen ▸ hj)
    · rw [hother j heq] at hj ⊢
      exact h.owner j hj
  · intro j hj
    rw [hsame.1] at hj
    by_cases heq : j = id
    · subst heq
      rw [hself, ← Bool.not_eq_true]
      intro hearly
      rw [h.late j hj] at hlate
      exact absurd (hlate hearly) (by decide)
    · rw [hother j heq]
      exact h.late j hj
  · rw [hsame.1, hsame.2]
    exact h.range

/-- A step that closes the socket of a connect. -/
theorem Sockets.close (h : s.Sockets) {s' : Reactor} {id : ℕ} {slot : RequestSlot}
    (hslots : s'.slots = Function.update s.slots id slot)
    (hchange : s'.opened = s.opened ∧ s'.closed = (s.slots id).request.socket :: s.closed)
    (hopen : (s.slots id).socketOpen = true) (hclosed : slot.socketOpen = false)
    (hlate : slot.point.early = false) : s'.Sockets := by
  have hself : s'.slots id = slot := by rw [hslots, Function.update_self]
  have hother (j : ℕ) (hj : j ≠ id) : s'.slots j = s.slots j := by
    rw [hslots, Function.update_of_ne hj]
  obtain ⟨own, hown, hopened⟩ := h.owner id hopen
  refine ⟨?_, ?_, ?_, ?_⟩
  · intro k j hk
    rw [hchange.1] at hk
    have hcount := h.closed k j hk
    rw [hchange.2, hown]
    by_cases hk' : k = own
    · subst hk'
      obtain rfl : id = j := Option.some.inj (hopened.symm.trans hk)
      rw [if_pos ⟨hopen, hown⟩] at hcount
      rw [List.count_cons_self, hcount, hself, hclosed]
      rfl
    · have hne : (own : ℤ) ≠ (k : ℤ) := fun heq ↦ hk' (Int.ofNat.inj heq).symm
      rw [List.count_cons_of_ne hne, hcount]
      by_cases hj : j = id
      · subst hj
        rw [hself, hclosed, hown, if_neg fun hboth ↦ hne hboth.2]
        rfl
      · rw [hother j hj]
  · intro j hj
    rw [hchange.1]
    by_cases heq : j = id
    · subst heq
      rw [hself, hclosed] at hj
      cases hj
    · rw [hother j heq] at hj ⊢
      exact h.owner j hj
  · intro j hj
    rw [hchange.1] at hj
    by_cases heq : j = id
    · rw [heq, hself]
      exact hlate
    · rw [hother j heq]
      exact h.late j hj
  · rw [hchange.1, hchange.2]
    intro x hx
    rcases List.mem_cons.1 hx with rfl | hx
    · obtain ⟨hlt, -⟩ := List.getElem?_eq_some_iff.1 hopened
      exact ⟨own, hown, hlt⟩
    · exact h.range x hx

theorem socketOpen_of_early {slot : RequestSlot} (h : slot.point.early = true) :
    slot.socketOpen = false := by
  rw [← Bool.not_eq_true, RequestSlot.socketOpen_iff]
  rintro ⟨-, hlate, -⟩
  rw [h] at hlate
  cases hlate

theorem socketOpen_of_kind {slot : RequestSlot} (h : slot.request.kind ≠ .connect) :
    slot.socketOpen = false := by
  rw [← Bool.not_eq_true, RequestSlot.socketOpen_iff]
  exact fun hopen ↦ h hopen.1

theorem socketOpen_complete (slot : RequestSlot) {error : ℤ} (h : error ≠ 0) :
    (slot.complete error).socketOpen = false := by
  rw [← Bool.not_eq_true, RequestSlot.socketOpen_iff]
  exact fun hopen ↦ h (hopen.2.2 rfl)

/-- Two stages of one request have the same socket open. -/
theorem socketOpen_eq {slot slot' : RequestSlot} (hkind : slot'.request.kind = slot.request.kind)
    (hlate : slot.point.early = false) (hlate' : slot'.point.early = false)
    (herror : (slot'.point.settled = true → slot'.request.error = 0) ↔
      (slot.point.settled = true → slot.request.error = 0)) :
    slot'.socketOpen = slot.socketOpen := by
  rw [Bool.eq_iff_iff, RequestSlot.socketOpen_iff, RequestSlot.socketOpen_iff, hkind, hlate, hlate',
    herror]

theorem Sockets.create (h : s.Sockets) (hs : s.Sound) {r : TcIoRequest} {point : RequestPoint}
    (hopen : r.kind ≠ .connect ∨ point = .resolving) : (s.create r point).Sockets := by
  have habsent : (s.slots s.next).point = .absent := hs.fresh s.next le_rfl
  have hearly : (s.slots s.next).point.early = true := by
    rw [habsent]
    rfl
  have hclosed : (RequestSlot.new r point).socketOpen = false := by
    rcases hopen with hkind | rfl
    · exact socketOpen_of_kind hkind
    · exact socketOpen_of_early rfl
  refine h.keep rfl ⟨rfl, rfl⟩ ?_ ?_ fun _ ↦ hearly
  · rw [hclosed, socketOpen_of_early hearly]
  · intro hopen'
    rw [hclosed] at hopen'
    cases hopen'

theorem Sockets.check (h : s.Sockets) (hs : s.Sound) {id : ℕ}
    (hpoint : (s.slots id).point = .created) (nonblock : Bool) :
    (s.set id ((s.slots id).check nonblock)).Sockets := by
  have hearly : (s.slots id).point.early = true := by
    rw [hpoint]
    rfl
  have hkind : ((s.slots id).check nonblock).request.kind = (s.slots id).request.kind := by
    rw [RequestSlot.check]
    split
    · rfl
    · split <;> rfl
  have hclosed : ((s.slots id).check nonblock).socketOpen = false :=
    socketOpen_of_kind (hkind ▸ (hs.slots id).created hpoint)
  refine h.keep rfl ⟨rfl, rfl⟩ ?_ ?_ fun _ ↦ hearly
  · rw [hclosed, socketOpen_of_early hearly]
  · intro hopen
    rw [hclosed] at hopen
    cases hopen

/-- A request leaves with an error, and a connect without its socket. -/
theorem Sockets.fail (h : s.Sockets) {s' : Reactor} {id : ℕ} {slot : RequestSlot}
    (hslots : s'.slots = Function.update s.slots id slot)
    (hchange : s'.opened = s.opened ∧ s'.closed = (s.closeSocket (s.slots id)).closed)
    (hlate : (s.slots id).point.early = false) (hunsettled : (s.slots id).point.settled = false)
    (hclosed : slot.socketOpen = false) (hlate' : slot.point.early = false) : s'.Sockets := by
  rw [closeSocket] at hchange
  by_cases hkind : (s.slots id).request.kind = .connect
  · rw [if_pos hkind] at hchange
    apply h.close hslots hchange _ hclosed hlate'
    rw [RequestSlot.socketOpen_iff]
    refine ⟨hkind, hlate, fun hsettled ↦ ?_⟩
    rw [hunsettled] at hsettled
    cases hsettled
  · rw [if_neg hkind] at hchange
    refine h.keep hslots hchange ?_ ?_ ?_
    · rw [hclosed, socketOpen_of_kind hkind]
    · intro hopen
      rw [hclosed] at hopen
      cases hopen
    · intro hearly
      rw [hlate'] at hearly
      cases hearly

theorem Sockets.enqueue (h : s.Sockets) {id : ℕ} (hpoint : (s.slots id).point = .enqueuing) :
    (s.enqueue id).Sockets := by
  rw [Reactor.enqueue]
  split
  · have heq : (s.closeSocket (s.slots id)).slots = s.slots ∧
        (s.closeSocket (s.slots id)).opened = s.opened := by
      rcases closeSocket_eq s (s.slots id) with hclose | hclose <;> rw [hclose] <;> exact ⟨rfl, rfl⟩
    have herror : (8 : ℤ) ≠ 0 := by decide
    refine h.fail ?_ ⟨heq.2, rfl⟩ (by rw [hpoint]; rfl) (by rw [hpoint]; rfl)
      (socketOpen_complete (s.slots id) herror) rfl
    rw [set_slots, heq.1]
  · refine h.keep rfl ⟨rfl, rfl⟩ ?_ (fun _ ↦ rfl) (absurd · Bool.false_ne_true)
    refine socketOpen_eq rfl (by rw [hpoint]; rfl) rfl ?_
    rw [hpoint]
    exact Iff.rfl

/-- The second critical section of a pass. -/
theorem Sockets.sweep (now : ℕ) (verdict : ℕ → Verdict) {kept todo : List ℕ} (h : s.Sockets)
    (hs : s.Sound) (hsplit : s.ioRequests = kept ++ todo) :
    (sweep now verdict kept todo s).Sockets := by
  induction todo generalizing s kept with
  | nil => exact h
  | cons id rest ih =>
      have hlisted : id ∈ s.ioRequests := by
        rw [hsplit]
        exact List.mem_append_right _ List.mem_cons_self
      have hpoint := (hs.listed id).1 hlisted
      have hlate : (s.slots id).point.early = false := by
        rw [hpoint]
        rfl
      have hr := TcIoRequest.poll_polled (s.slots id).request now (verdict id)
      rw [Reactor.sweep]
      split
      · rename_i hdone
        refine ih ?_ (hs.unlink hsplit hr hdone) rfl
        refine h.keep rfl ⟨rfl, rfl⟩ ?_ (fun _ ↦ hr.socket) (absurd · Bool.false_ne_true)
        refine socketOpen_eq hr.kind hlate rfl ?_
        rw [hpoint]
        exact iff_of_true (absurd · Bool.false_ne_true) (absurd · Bool.false_ne_true)
      · rename_i hdone
        refine ih ?_ (hs.keep hlisted hr (by simpa using hdone)) ?_
        · refine h.keep rfl ⟨rfl, rfl⟩ ?_ (fun _ ↦ hr.socket) fun hearly ↦ hearly
          refine socketOpen_eq hr.kind hlate hlate ?_
          change ((s.slots id).point.settled = true → _) ↔ _
          rw [hpoint]
          exact iff_of_true (absurd · Bool.false_ne_true) (absurd · Bool.false_ne_true)
        · change s.ioRequests = _
          rw [hsplit, List.append_assoc]
          rfl

theorem Sockets.take (h : s.Sockets) {id : ℕ} (rest : List ℕ)
    (hpoint : (s.slots id).point = .unlinked) : (s.take id rest).Sockets := by
  have hlate : (s.slots id).point.early = false := by
    rw [hpoint]
    rfl
  have hunsettled : (s.slots id).point.settled = false := by
    rw [hpoint]
    rfl
  rw [Reactor.take]
  split
  · rename_i herror
    have heq : (s.closeSocket (s.slots id)).slots = s.slots ∧
        (s.closeSocket (s.slots id)).opened = s.opened := by
      rcases closeSocket_eq s (s.slots id) with hclose | hclose <;> rw [hclose] <;> exact ⟨rfl, rfl⟩
    have hclosed : ({ s.slots id with point := .completing } : RequestSlot).socketOpen = false := by
      rw [← Bool.not_eq_true, RequestSlot.socketOpen_iff]
      exact fun hopen ↦ herror (hopen.2.2 rfl)
    refine h.fail ?_ ⟨heq.2, rfl⟩ hlate hunsettled hclosed rfl
    change Function.update (s.closeSocket (s.slots id)).slots id _ = _
    rw [heq.1]
  · rename_i herror
    refine h.keep rfl ⟨rfl, rfl⟩ ?_ (fun _ ↦ rfl) (absurd · Bool.false_ne_true)
    refine socketOpen_eq rfl hlate rfl (iff_of_true (fun _ ↦ not_not.1 herror) ?_)
    rw [hunsettled]
    exact (absurd · Bool.false_ne_true)

theorem Sockets.advance (h : s.Sockets) {id : ℕ} {slot : RequestSlot}
    (hslot : (s.slots id).advance = some slot) :
    ({ s.set id slot with
      busy := if slot.point = .freed ∧ s.busy = some id then none else s.busy } :
        Reactor).Sockets := by
  obtain ⟨hrequest, hsettled, hsettled', -, -⟩ := RequestSlot.advance_cases hslot
  have hlate (p : RequestPoint) (hp : p.settled = true) : p.early = false := by
    cases p <;> first | rfl | cases hp
  refine h.keep rfl ⟨rfl, rfl⟩ ?_ (fun _ ↦ by rw [hrequest]) fun hearly ↦ ?_
  · refine socketOpen_eq (by rw [hrequest]) (hlate _ hsettled) (hlate _ hsettled') ?_
    rw [hrequest, hsettled, hsettled']
  · rw [hlate _ hsettled'] at hearly
    cases hearly

/-- A resolver job opens sockets and leaves at most one of them. -/
theorem Sockets.connect (h : s.Sockets) {s' : Reactor} {id : ℕ} {slot : RequestSlot}
    (hpoint : (s.slots id).point = .resolving) {outcomes : List AddressOutcome} {closed : List ℕ}
    {next : ℕ} {outcome : ConnectOutcome}
    (hloop : connectLoop s.opened.length outcomes = (closed, next, outcome))
    (hslots : s'.slots = Function.update s.slots id slot)
    (hopened : s'.opened = s.opened ++ List.replicate (next - s.opened.length) id)
    (hclosed : s'.closed = closed.map (fun k : ℕ ↦ (k : ℤ)) ++ s.closed)
    (hslot : ∀ k : ℕ, slot.socketOpen = true ∧ slot.request.socket = k ↔ outcome.socket? = some k)
    (howner : slot.socketOpen = true → ∃ k : ℕ, slot.request.socket = k)
    (hlate : slot.point.early = false) : s'.Sockets := by
  obtain ⟨hle, hrange, hsocket, hcount⟩ := connectLoop_spec _ _ hloop
  have hself : s'.slots id = slot := by rw [hslots, Function.update_self]
  have hother (j : ℕ) (hj : j ≠ id) : s'.slots j = s.slots j := by
    rw [hslots, Function.update_of_ne hj]
  have hlength : s'.opened.length = next := by
    rw [hopened, List.length_append, List.length_replicate]
    omega
  have hfresh (j : ℕ) (hj : j ∈ s.opened) : j ≠ id := by
    rintro rfl
    have hearly := h.late j hj
    rw [hpoint] at hearly
    cases hearly
  have hcast (k : ℕ) : (closed.map fun k : ℕ ↦ (k : ℤ)).count (k : ℤ) = closed.count k :=
    List.count_map_of_injective _ _ Nat.cast_injective k
  have hnew (k : ℕ) (hlow : s.opened.length ≤ k) (hhigh : k < next) :
      s'.opened[k]? = some id := by
    rw [hopened, List.getElem?_append_right hlow, List.getElem?_replicate, if_pos (by omega)]
  refine ⟨?_, ?_, ?_, ?_⟩
  · intro k j hk
    rw [hclosed, List.count_append, hcast]
    by_cases hlow : s.opened.length ≤ k
    · have hhigh : k < next := by
        obtain ⟨hlt, -⟩ := List.getElem?_eq_some_iff.1 hk
        omega
      obtain rfl : id = j := Option.some.inj ((hnew k hlow hhigh).symm.trans hk)
      have hzero : s.closed.count (k : ℤ) = 0 := by
        rw [List.count_eq_zero]
        intro hmem
        obtain ⟨i, hi, hlt⟩ := h.range _ hmem
        have heq : k = i := Int.ofNat.inj hi
        omega
      rw [hzero, Nat.add_zero, hcount k hlow hhigh, hself]
      simp only [hslot]
    · have hold : s.opened[k]? = some j := by
        rw [hopened, List.getElem?_append_left (Nat.not_le.1 hlow)] at hk
        exact hk
      have hzero : closed.count k = 0 := by
        rw [List.count_eq_zero]
        intro hmem
        exact hlow (hrange k hmem).1
      rw [hzero, Nat.zero_add, h.closed k j hold,
        hother j (hfresh j (List.mem_of_getElem? hold))]
  · intro j hj
    by_cases heq : j = id
    · subst heq
      rw [hself] at hj ⊢
      obtain ⟨k, hk⟩ := howner hj
      obtain ⟨hlow, hhigh⟩ := hsocket k ((hslot k).1 ⟨hj, hk⟩)
      exact ⟨k, hk, hnew k hlow hhigh⟩
    · rw [hother j heq] at hj ⊢
      obtain ⟨k, hk, hold⟩ := h.owner j hj
      obtain ⟨hlt, -⟩ := List.getElem?_eq_some_iff.1 hold
      exact ⟨k, hk, by rw [hopened, List.getElem?_append_left hlt, hold]⟩
  · intro j hj
    by_cases heq : j = id
    · rw [heq, hself]
      exact hlate
    · rw [hother j heq]
      rw [hopened, List.mem_append, List.mem_replicate] at hj
      exact h.late j (hj.resolve_right fun hj ↦ heq hj.2)
  · intro x hx
    rw [hclosed, List.mem_append, List.mem_map] at hx
    rw [hlength]
    rcases hx with ⟨k, hk, rfl⟩ | hx
    · exact ⟨k, rfl, (hrange k hk).2⟩
    · obtain ⟨k, hk, hlt⟩ := h.range x hx
      exact ⟨k, hk, by omega⟩

theorem Sockets.resolve (h : s.Sockets) (hs : s.Sound) {id : ℕ}
    (hpoint : (s.slots id).point = .resolving) {resolution : Resolution}
    (herror : ∀ error, resolution = .failed error → error ≠ 0) :
    (s.resolve id resolution).Sockets := by
  have hearly : (s.slots id).point.early = true := by
    rw [hpoint]
    rfl
  have hkind := (hs.slots id).resolving hpoint
  cases resolution with
  | failed error =>
      have hclosed := socketOpen_complete (s.slots id) (herror error rfl)
      refine h.keep rfl ⟨rfl, rfl⟩ ?_ ?_ fun _ ↦ hearly
      · rw [hclosed, socketOpen_of_early hearly]
      · intro hopen
        rw [hclosed] at hopen
        cases hopen
  | addresses outcomes =>
      rw [Reactor.resolve]
      rcases hloop : connectLoop s.opened.length outcomes with ⟨closed, next, outcome⟩
      have hcast (k i : ℕ) : ((k : ℤ) = i) ↔ some k = some i := by
        rw [Nat.cast_inj, Option.some_inj]
      cases outcome with
      | failed =>
          have hnot : (13 : ℤ) ≠ 0 := by decide
          have hclosed := socketOpen_complete (s.slots id) hnot
          refine h.connect hpoint hloop rfl rfl rfl (fun k ↦ ?_) (fun hopen ↦ ?_) rfl
          · rw [hclosed]
            exact iff_of_false (by rintro ⟨⟨⟩, -⟩) (by rintro ⟨⟩)
          · rw [hclosed] at hopen
            cases hopen
      | connected k =>
          refine h.connect hpoint hloop rfl rfl rfl (fun i ↦ ?_) (fun _ ↦ ⟨k, rfl⟩) rfl
          rw [RequestSlot.socketOpen_iff]
          exact (and_iff_right ⟨hkind, rfl, fun _ ↦ rfl⟩).trans (hcast k i)
      | pending k =>
          refine h.connect hpoint hloop rfl rfl rfl (fun i ↦ ?_) (fun _ ↦ ⟨k, rfl⟩) rfl
          rw [RequestSlot.socketOpen_iff]
          exact (and_iff_right ⟨hkind, rfl, fun _ ↦ rfl⟩).trans (hcast k i)

end Reactor

end TinyCPlus.Runtime
