import TinyCPlus.Protobuf.Cursor

/-!
# Readers under any calls

Whatever the input and whatever is called, the position stays inside the input,
an error stays and loops over the records end.
-/

namespace TinyCPlus.Protobuf

namespace Cursor

variable {r : Cursor} {t : TcPbReader}

/-! ## Skipping -/

theorem Represents.skipDepth {group : Cursor → U32 → ℕ → Except Trap Cursor}
    {group' : TcPbReader → ℕ → ℕ → TcPbReader} (h : Represents r t) {field : U32} {depth : ℕ}
    (hgroup : ∃ r', group r field depth = .ok r' ∧ Leaves r (group' t field.toNat depth) r') :
    ∃ r', Cursor.skipDepth group r field depth = .ok r' ∧
      Leaves r (TcPbReader.skipDepth group' t field.toNat depth) r' := by
  rw [Cursor.skipDepth, TcPbReader.skipDepth, h.wire]
  by_cases hdepth : 64 < depth
  · rw [if_pos hdepth, if_pos hdepth]
    exact ⟨r.fail, rfl, (Leaves.refl h).fail⟩
  · rw [if_neg hdepth, if_neg hdepth]
    rcases r.wire.toNat with _ | _ | _ | _ | _ | _ | _
    · obtain ⟨r', hrun, hleaves⟩ := h.readVarint
      exact ⟨r', by rw [hrun]; rfl, hleaves⟩
    · obtain ⟨r', hrun, hleaves⟩ := h.readFixed 8
      exact ⟨r', by rw [hrun]; rfl, hleaves⟩
    · obtain ⟨v, r', hrun, hleaves, -⟩ := h.readBytes
      exact ⟨r', by rw [hrun]; rfl, hleaves⟩
    · exact hgroup
    · exact ⟨r.fail, rfl, (Leaves.refl h).fail⟩
    · obtain ⟨r', hrun, hleaves⟩ := h.readFixed 4
      exact ⟨r', by rw [hrun]; rfl, hleaves⟩
    · exact ⟨r.fail, rfl, (Leaves.refl h).fail⟩

/-- More turns than bytes are left are enough for a group. -/
theorem Represents.skipGroup (h : Represents r t) (fuel fuel' : ℕ)
    (hfuel : t.rest.length < fuel) (hfuel' : t.rest.length < fuel') (field : U32) (depth : ℕ) :
    ∃ r', Cursor.skipGroup fuel r field depth = .ok r' ∧
      Leaves r (TcPbReader.skipGroup fuel' t field.toNat depth) r' := by
  induction fuel generalizing fuel' r t field depth with
  | zero => exact absurd hfuel (Nat.not_lt_zero _)
  | succ fuel ih =>
      obtain ⟨fuel', rfl⟩ : ∃ n, fuel' = n + 1 := ⟨fuel' - 1, by omega⟩
      rw [Cursor.skipGroup, TcPbReader.skipGroup, h.done]
      by_cases hdone : t.done = true
      · rw [if_pos hdone, if_pos hdone]
        exact ⟨r.fail, rfl, (Leaves.refl h).fail⟩
      · have htakes := TcPbReader.next_takes (Bool.eq_false_of_not_eq_true hdone)
        obtain ⟨n, r₁, hnext, hleaves, hnumber⟩ := h.next
        rw [if_neg hdone, if_neg hdone, hnext]
        rcases hread : t.next with ⟨number, t₁⟩
        rw [hread] at htakes hleaves hnumber
        dsimp only at htakes hnumber ⊢
        subst hnumber
        have h₁ : Represents r₁ t₁ := hleaves.represents
        have hwire : r₁.wire = 4 ↔ t₁.wire = 4 := by
          rw [h₁.wire, BitVec.toNat_eq]
          rfl
        have hsame : field ≠ n ↔ field.toNat ≠ n.toNat := not_congr BitVec.toNat_inj.symm
        by_cases hend : r₁.wire = 4
        · rw [if_pos (hwire.mp hend)]
          refine ⟨if field ≠ n then r₁.fail else r₁, if_pos hend, ?_⟩
          by_cases hfield : field ≠ n
          · rw [if_pos hfield, if_pos (hsame.mp hfield)]
            exact hleaves.fail
          · rw [if_neg hfield, if_neg (fun hne ↦ hfield (hsame.mpr hne))]
            exact hleaves
        · rw [if_neg (fun hfour ↦ hend (hwire.mpr hfour))]
          obtain ⟨r₂, hmember, hleaves₂⟩ := h₁.skipDepth
            (ih h₁ fuel' (by omega) (by omega) n (depth + 1))
          have hshrinks : (TcPbReader.skipDepth (TcPbReader.skipGroup fuel') t₁ n.toNat
              (depth + 1)).rest.length ≤ t₁.rest.length :=
            TcPbReader.skipDepth_shrinks (TcPbReader.skipGroup_shrinks _ _ _ _)
          obtain ⟨r₃, hrest, hleaves₃⟩ := ih hleaves₂.represents fuel' (by omega) (by omega)
            field depth
          refine ⟨r₃, (if_neg hend).trans ?_, (hleaves.trans hleaves₂).trans hleaves₃⟩
          change (Cursor.skipDepth (Cursor.skipGroup fuel) r₁ n (depth + 1) >>= fun r ↦
            Cursor.skipGroup fuel r field depth) = _
          rw [hmember]
          exact hrest

theorem Represents.rest_length_le (h : Represents r t) : t.rest.length ≤ r.left := by
  rw [h.rest, List.length_drop]
  exact Nat.sub_le_sub_right (bytes_length_le r.input) _

theorem Represents.skip (h : Represents r t) (field : U32) :
    ∃ r', Cursor.skip r field = .ok r' ∧ Leaves r (t.skip field.toNat) r' :=
  h.skipDepth (h.skipGroup _ _ (Nat.lt_succ_of_le h.rest_length_le) (Nat.lt_succ_self _) field 0)

end Cursor

/-! ## Calls -/

/-- A call on a reader. -/
inductive ReaderCall where
  | next
  | wire
  | readVarint
  | readFixed (count : ℤ)
  | readBytes
  | skip (field : U32)
  | done
  | fail

inductive ReaderAnswer where
  | nothing
  | number (x : U64)
  | view (v : View)
deriving DecidableEq

/-- `tc_pb_next` and the reads of a value. -/
def ReaderCall.IsRead : ReaderCall → Prop
  | .next | .readVarint | .readFixed _ | .readBytes => True
  | _ => False

/-- What a read answers after an error. -/
def ReaderAnswer.Empty (a : ReaderAnswer) : Prop := a = .number 0 ∨ a = .view View.null

namespace Cursor

/-- A call and its answer. -/
def call (r : Cursor) : ReaderCall → Except Trap (ReaderAnswer × Cursor)
  | .next => do
      let (number, r) ← r.next
      .ok (.number (number.setWidth 64), r)
  | .wire => .ok (.number (r.wire.setWidth 64), r)
  | .readVarint => do
      let (x, r) ← r.readVarint
      .ok (.number x, r)
  | .readFixed count => do
      let (x, r) ← r.readFixed count
      .ok (.number x, r)
  | .readBytes => do
      let (v, r) ← r.readBytes
      .ok (.view v, r)
  | .skip field => do
      let r ← r.skip field
      .ok (.nothing, r)
  | .done => .ok (.number (if r.done then 1 else 0), r)
  | .fail => .ok (.nothing, r.fail)

/-- The answers to a list of calls. -/
def calls (r : Cursor) : List ReaderCall → Except Trap (List ReaderAnswer × Cursor)
  | [] => .ok ([], r)
  | c :: rest => do
      let (a, r) ← r.call c
      let (as, r) ← r.calls rest
      .ok (a :: as, r)

end Cursor

/-! ## One call -/

namespace TcPbReader

theorem readFixed_takes {t : TcPbReader} (hdone : t.done = false) (count : ℕ) :
    (t.readFixed count).2.rest.length < t.rest.length ∨ (t.readFixed count).2.error ≠ 0 := by
  obtain ⟨hok, hne⟩ := t.done_eq_false_iff.mp hdone
  rw [readFixed, if_neg (not_not.mpr hok)]
  split
  · exact Or.inr (Nat.succ_ne_zero 2)
  · rename_i hroom
    obtain ⟨count, rfl⟩ : ∃ n, count = n + 1 := ⟨count - 1, by omega⟩
    refine Or.inl ?_
    rcases hrest : t.rest with _ | ⟨byte, s⟩
    · exact absurd hrest hne
    · exact (fixedLoop_shrinks count 1 _ s).trans_lt (Nat.lt_succ_self _)

theorem readBytes_takes {t : TcPbReader} (hdone : t.done = false) :
    t.readBytes.2.rest.length < t.rest.length := by
  have htakes := readVarint_takes hdone
  rw [readBytes]
  dsimp only
  split
  · exact htakes
  · dsimp only
    rw [List.length_drop]
    omega

end TcPbReader

namespace Cursor

variable {r s s' : Cursor} {t t' : TcPbReader}

/-- A position that a byte is read at moves. -/
theorem Leaves.moves (h : Leaves r t' s) (hr : Represents r t)
    (hless : t'.rest.length < t.rest.length) : r.position.toNat < s.position.toNat := by
  refine lt_of_le_of_ne h.advances fun heq ↦ ?_
  rw [h.represents.rest, hr.rest, h.input, heq] at hless
  exact absurd hless (lt_irrefl _)

theorem Leaves.sticky (h : Leaves r t' s) (hr : Represents r t)
    (hread : t.error ≠ 0 → t'.error ≠ 0) (herror : r.error ≠ 0) : s.error ≠ 0 := by
  rw [← hr.error] at herror
  rw [← h.represents.error]
  exact hread herror

/-- The position is inside the input, and the input has as many bytes as it says. -/
def Sound (r : Cursor) : Prop := ∃ t, Represents r t

/-- What a call does and answers. -/
structure Answers (r : Cursor) (c : ReaderCall) (a : ReaderAnswer) (s : Cursor) : Prop where
  input : s.input = r.input
  advances : r.position.toNat ≤ s.position.toNat
  sound : s.Sound
  inside : ∀ v, a = .view v → v.Inside r.input
  sticky : r.error ≠ 0 → s.error ≠ 0
  empty : r.error ≠ 0 → c.IsRead → a.Empty
  moves : r.done = false → c.IsRead → r.position.toNat < s.position.toNat ∨ s.error ≠ 0

theorem Sound.call (h : r.Sound) (c : ReaderCall) :
    ∃ a s, r.call c = .ok (a, s) ∧ Answers r c a s := by
  obtain ⟨t, h⟩ := h
  have hdone := h.done
  cases c with
  | next =>
      obtain ⟨n, s, hrun, hleaves, hnumber⟩ := h.next
      have hclosed (herror : r.error ≠ 0) : t.next = (0, t) := by
        rw [TcPbReader.next, if_pos]
        rw [TcPbReader.done, h.error, bne_iff_ne.mpr herror, Bool.true_or]
      refine ⟨.number (n.setWidth 64), s, by rw [Cursor.call, hrun]; rfl, hleaves.input,
        hleaves.advances, ⟨_, hleaves.represents⟩, fun v hv ↦ (by cases hv), ?_, ?_, ?_⟩
      · exact fun herror ↦ hleaves.sticky h (fun ht ↦ by rwa [hclosed herror]) herror
      · intro herror _
        rw [hclosed herror] at hnumber
        have hzero : n = 0 := BitVec.eq_of_toNat_eq hnumber
        subst hzero
        exact Or.inl rfl
      · intro hopen _
        exact Or.inl (hleaves.moves h (TcPbReader.next_takes (hdone.symm.trans hopen)))
  | wire =>
      exact ⟨_, r, rfl, rfl, le_rfl, ⟨t, h⟩, fun v hv ↦ (by cases hv), id, fun _ ↦ False.elim,
        fun _ ↦ False.elim⟩
  | readVarint =>
      obtain ⟨s, hrun, hleaves⟩ := h.readVarint
      refine ⟨.number t.readVarint.1, s, by rw [Cursor.call, hrun]; rfl, hleaves.input,
        hleaves.advances, ⟨_, hleaves.represents⟩, fun v hv ↦ (by cases hv),
        hleaves.sticky h TcPbReader.reads_varint.sticky, ?_, ?_⟩
      · intro herror _
        rw [← h.error] at herror
        rw [TcPbReader.readVarint, if_pos herror]
        exact Or.inl rfl
      · intro hopen _
        exact Or.inl (hleaves.moves h (TcPbReader.readVarint_takes (hdone.symm.trans hopen)))
  | readFixed count =>
      obtain ⟨s, hrun, hleaves⟩ := h.readFixed count
      refine ⟨.number (t.readFixed count.toNat).1, s, by rw [Cursor.call, hrun]; rfl,
        hleaves.input, hleaves.advances, ⟨_, hleaves.represents⟩, fun v hv ↦ (by cases hv),
        hleaves.sticky h (TcPbReader.reads_fixed count.toNat).sticky, ?_, ?_⟩
      · intro herror _
        rw [← h.error] at herror
        rw [TcPbReader.readFixed, if_pos herror]
        exact Or.inl rfl
      · intro hopen _
        rcases TcPbReader.readFixed_takes (hdone.symm.trans hopen) count.toNat with hless | herror
        · exact Or.inl (hleaves.moves h hless)
        · exact Or.inr (by rwa [← hleaves.represents.error])
  | readBytes =>
      obtain ⟨v, s, hrun, hleaves, hinside, -, hnull⟩ := h.readBytes
      refine ⟨.view v, s, by rw [Cursor.call, hrun]; rfl, hleaves.input, hleaves.advances,
        ⟨_, hleaves.represents⟩, fun w hw ↦ (by cases hw; exact hinside),
        hleaves.sticky h TcPbReader.reads_bytes.sticky, ?_, ?_⟩
      · intro herror _
        rw [← h.error] at herror
        exact Or.inr (congrArg ReaderAnswer.view (hnull herror))
      · intro hopen _
        exact Or.inl (hleaves.moves h (TcPbReader.readBytes_takes (hdone.symm.trans hopen)))
  | skip field =>
      obtain ⟨s, hrun, hleaves⟩ := h.skip field
      exact ⟨.nothing, s, by rw [Cursor.call, hrun]; rfl, hleaves.input, hleaves.advances,
        ⟨_, hleaves.represents⟩, fun v hv ↦ (by cases hv),
        hleaves.sticky h (TcPbReader.reads_skip field.toNat).sticky, fun _ ↦ False.elim,
        fun _ ↦ False.elim⟩
  | done =>
      exact ⟨_, r, rfl, rfl, le_rfl, ⟨t, h⟩, fun v hv ↦ (by cases hv), id, fun _ ↦ False.elim,
        fun _ ↦ False.elim⟩
  | fail =>
      exact ⟨_, r.fail, rfl, rfl, le_rfl, ⟨_, (Leaves.refl h).fail.represents⟩,
        fun v hv ↦ (by cases hv), fun _ ↦ Nat.succ_ne_zero 2, fun _ ↦ False.elim,
        fun _ ↦ False.elim⟩

/-! ## Many calls -/

/-- What a list of calls does and answers. -/
structure AllAnswered (r : Cursor) (cs : List ReaderCall) (as : List ReaderAnswer)
    (s : Cursor) : Prop where
  input : s.input = r.input
  advances : r.position.toNat ≤ s.position.toNat
  sound : s.Sound
  inside : ∀ v, .view v ∈ as → v.Inside r.input
  sticky : r.error ≠ 0 → s.error ≠ 0
  empty : r.error ≠ 0 → ∀ p ∈ cs.zip as, p.1.IsRead → p.2.Empty

theorem Sound.calls (h : r.Sound) (cs : List ReaderCall) :
    ∃ as s, r.calls cs = .ok (as, s) ∧ AllAnswered r cs as s := by
  induction cs generalizing r with
  | nil =>
      exact ⟨[], r, rfl, rfl, le_rfl, h, fun v hv ↦ absurd hv List.not_mem_nil, id,
        fun _ p hp ↦ absurd hp List.not_mem_nil⟩
  | cons c cs ih =>
      obtain ⟨a, s, hcall, hfirst⟩ := h.call c
      obtain ⟨as, s', hcalls, hrest⟩ := ih hfirst.sound
      refine ⟨a :: as, s', ?_, hrest.input.trans hfirst.input,
        hfirst.advances.trans hrest.advances, hrest.sound, ?_, hrest.sticky ∘ hfirst.sticky, ?_⟩
      · rw [Cursor.calls, hcall]
        change (s.calls cs >>= fun p ↦ Except.ok (a :: p.1, p.2)) = _
        rw [hcalls]
        rfl
      · intro v hv
        rcases List.mem_cons.mp hv with hv | hv
        · exact hfirst.inside v hv.symm
        · rw [← hfirst.input]
          exact hrest.inside v hv
      · intro herror p hp
        rcases List.mem_cons.mp hp with rfl | hp
        · exact hfirst.empty herror
        · exact hrest.empty (hfirst.sticky herror) p hp

theorem sound_create (input : TinyString) : (create input).Sound := ⟨_, represents_create input⟩

theorem Sound.within (h : r.Sound) : r.position.toNat ≤ r.input.length.toNat := by
  obtain ⟨t, h⟩ := h
  exact h.within

end Cursor

/-! ## Loops -/

/-- Code that calls a reader and goes on with the answers. -/
inductive Reading (α : Type) where
  | pure (x : α)
  | call (c : ReaderCall) (rest : ReaderAnswer → Reading α)

/-- A turn of a loop with `next`: the loop is left at a zero, else the body runs. -/
def nextTurn {σ ρ : Type} (stop : σ → ρ) (body : σ → ReaderAnswer → Reading (σ ⊕ ρ)) (x : σ) :
    Reading (σ ⊕ ρ) :=
  .call .next fun a ↦ if a = .number 0 then .pure (.inr (stop x)) else body x a

/-- A turn of a loop that reads a value first. -/
def readTurn {σ ρ : Type} (c : ReaderCall) (body : σ → ReaderAnswer → Reading (σ ⊕ ρ)) (x : σ) :
    Reading (σ ⊕ ρ) :=
  .call c (body x)

namespace Cursor

variable {α σ ρ : Type} {r s : Cursor}

def read (r : Cursor) : Reading α → Except Trap (α × Cursor)
  | .pure x => .ok (x, r)
  | .call c rest => do
      let (a, r) ← r.call c
      r.read (rest a)

/-- `while (!r.done()) turn`, for a number of turns; a turn goes on or leaves. -/
def loop (turn : σ → Reading (σ ⊕ ρ)) : ℕ → σ → Cursor → Except Trap ((σ ⊕ ρ) × Cursor)
  | 0, _, _ => .error .turns
  | fuel + 1, x, r =>
      if r.done then .ok (.inl x, r)
      else do
        match ← r.read (turn x) with
        | (.inl x, r) => loop turn fuel x r
        | (.inr x, r) => .ok (.inr x, r)

theorem Sound.read (h : r.Sound) (code : Reading α) :
    ∃ x s, r.read code = .ok (x, s) ∧ s.input = r.input ∧
      r.position.toNat ≤ s.position.toNat ∧ s.Sound ∧ (r.error ≠ 0 → s.error ≠ 0) := by
  induction code generalizing r with
  | pure x => exact ⟨x, r, rfl, rfl, le_rfl, h, id⟩
  | call c rest ih =>
      obtain ⟨a, s, hcall, hfirst⟩ := h.call c
      obtain ⟨x, s', hrun, hinput, hadvances, hsound, hsticky⟩ := ih a hfirst.sound
      refine ⟨x, s', ?_, hinput.trans hfirst.input, hfirst.advances.trans hadvances, hsound,
        hsticky ∘ hfirst.sticky⟩
      rw [Cursor.read, hcall]
      exact hrun

/-- The turns that a loop can still make when every turn takes a byte or fails. -/
def turnsLeft (r : Cursor) : ℕ := if r.error ≠ 0 then 0 else r.left + 1

/-- A turn takes a byte or fails when it goes on. -/
def Progress (turn : σ → Reading (σ ⊕ ρ)) : Prop :=
  ∀ (r s : Cursor) (x y : σ), r.Sound → r.done = false → r.read (turn x) = .ok (.inl y, s) →
    r.position.toNat < s.position.toNat ∨ s.error ≠ 0

theorem turnsLeft_lt (hr : r.error = 0) (hs : s.Sound) (hinput : s.input = r.input)
    (h : r.position.toNat < s.position.toNat ∨ s.error ≠ 0) : s.turnsLeft < r.turnsLeft := by
  have hwithin := hs.within
  rw [hinput] at hwithin
  rw [turnsLeft, turnsLeft, if_neg (not_not.mpr hr), left, left, hinput]
  split
  · exact Nat.succ_pos _
  · rename_i hok
    have hmoved := h.resolve_right hok
    omega

theorem loop_ends {turn : σ → Reading (σ ⊕ ρ)} (hturn : Progress turn) (h : r.Sound) {fuel : ℕ}
    (hfuel : r.turnsLeft < fuel) (x : σ) : ∃ z s, loop turn fuel x r = .ok (z, s) := by
  induction fuel generalizing r x with
  | zero => exact absurd hfuel (Nat.not_lt_zero _)
  | succ fuel ih =>
      by_cases hdone : r.done = true
      · exact ⟨.inl x, r, if_pos hdone⟩
      · have hopen : r.done = false := Bool.eq_false_of_not_eq_true hdone
        have hok : r.error = 0 := by
          by_contra herror
          exact hdone (by rw [done, bne_iff_ne.mpr herror, Bool.true_or])
        obtain ⟨z, s, hrun, hinput, -, hsound, -⟩ := h.read (turn x)
        rw [loop, if_neg hdone, hrun]
        cases z with
        | inl y =>
            have hless := turnsLeft_lt hok hsound hinput (hturn r s x y h hopen hrun)
            exact ih hsound (by omega) y
        | inr z => exact ⟨.inr z, s, rfl⟩

/-- A first call that takes a byte or fails makes a turn that does. -/
theorem progress_call {turn : σ → Reading (σ ⊕ ρ)} {c : ReaderCall} (hc : c.IsRead)
    {rest : σ → ReaderAnswer → Reading (σ ⊕ ρ)} (hcall : ∀ x, turn x = .call c (rest x)) :
    Progress turn := by
  intro r s x y h hopen hrun
  obtain ⟨a, r₁, hfirst, hanswers⟩ := h.call c
  obtain ⟨z, s', hrest, -, hadvances, -, hsticky⟩ := hanswers.sound.read (rest x a)
  rw [hcall, Cursor.read, hfirst] at hrun
  have hsame : (z, s') = (Sum.inl y, s) := Except.ok.inj (hrest.symm.trans hrun)
  cases hsame
  rcases hanswers.moves hopen hc with hmoved | herror
  · exact Or.inl (hmoved.trans_le hadvances)
  · exact Or.inr (hsticky herror)

theorem turnsLeft_le (r : Cursor) : r.turnsLeft ≤ r.left + 1 := by
  rw [turnsLeft]
  split
  · exact Nat.zero_le _
  · exact le_rfl

/-- No calls make a reader read outside its input or run on forever. -/
theorem reader_safe (input : TinyString) (before : List ReaderCall) :
    ∃ as r, (create input).calls before = .ok (as, r) ∧
      (∀ after, ∃ bs s, r.calls after = .ok (bs, s) ∧
        r.position.toNat ≤ s.position.toNat ∧ s.position.toNat ≤ input.length.toNat ∧
        (∀ v, .view v ∈ as ++ bs → v.Inside input) ∧
        (r.error ≠ 0 → s.error ≠ 0 ∧ ∀ p ∈ after.zip bs, p.1.IsRead → p.2.Empty)) ∧
      (∀ c, c.IsRead → r.done = false → ∃ a s, r.call c = .ok (a, s) ∧
        (r.position.toNat < s.position.toNat ∨ s.error ≠ 0)) ∧
      (∀ {σ ρ : Type} (stop : σ → ρ) (body : σ → ReaderAnswer → Reading (σ ⊕ ρ)) (x : σ),
        ∃ z s, loop (nextTurn stop body) (r.left + 2) x r = .ok (z, s)) ∧
      ∀ {σ ρ : Type} (c : ReaderCall) (body : σ → ReaderAnswer → Reading (σ ⊕ ρ)) (x : σ),
        c.IsRead → ∃ z s, loop (readTurn c body) (r.left + 2) x r = .ok (z, s) := by
  obtain ⟨as, r, hbefore, hfirst⟩ := (sound_create input).calls before
  have hinput : r.input = input := hfirst.input
  have hfuel : r.turnsLeft < r.left + 2 := Nat.lt_succ_of_le r.turnsLeft_le
  refine ⟨as, r, hbefore, fun after ↦ ?_, fun c hc hopen ↦ ?_, fun stop body x ↦ ?_,
    fun c body x hc ↦ ?_⟩
  · obtain ⟨bs, s, hafter, hrest⟩ := hfirst.sound.calls after
    have hwithin := hrest.sound.within
    rw [hrest.input, hinput] at hwithin
    refine ⟨bs, s, hafter, hrest.advances, hwithin, ?_, fun herror ↦
      ⟨hrest.sticky herror, hrest.empty herror⟩⟩
    intro v hv
    rcases List.mem_append.mp hv with hv | hv
    · exact hfirst.inside v hv
    · rw [← hinput]
      exact hrest.inside v hv
  · obtain ⟨a, s, hcall, hanswers⟩ := hfirst.sound.call c
    exact ⟨a, s, hcall, hanswers.moves hopen hc⟩
  · have hturn : Progress (nextTurn stop body) := progress_call (c := .next) trivial fun _ ↦ rfl
    exact loop_ends hturn hfirst.sound hfuel x
  · have hturn : Progress (readTurn c body) := progress_call hc fun _ ↦ rfl
    exact loop_ends hturn hfirst.sound hfuel x

end Cursor

end TinyCPlus.Protobuf
