import TinyCPlus.Protobuf.MemoryParts

/-!
# No block is lost, and none is freed twice

Merging leaves a reader and a message that own what has been allocated, whether it goes
to the end or returns an error.  Destroying the message frees all of that, and encoding
it leaves nothing but the string that it returns.
-/

namespace TinyCPlus.Protobuf

open TinyCPlus.Library TinyCPlus.Library.Blocks

variable {T : Type} {S : Schema T}

theorem ProtoReader.among {r : ProtoReader} {handle : ℕ} {block : Option ℕ}
    (hhandle : r.handle = handle) (hblock : r.block = block) (rest : Multiset ℕ) :
    r.Among ({handle} + ofOpt block + rest) := by
  constructor
  · rw [hhandle]
    simp only [Multiset.mem_add, Multiset.mem_singleton, true_or]
  · rw [hblock, add_assoc]
    exact (Multiset.le_add_right _ rest).trans (Multiset.le_add_left _ _)

namespace Memory

/-! ## Merging -/

/-- What merging a record leaves: the reader, and a message of the same kind that owns
the other blocks. -/
structure Merged {γ : Type} (S : Schema T) (t : T) (n handle : ℕ) (block : Option ℕ)
    (storage : TextView) (x : TcMessage × ProtoReader × γ) (s : Multiset ℕ) : Prop where
  sameHandle : x.2.1.handle = handle
  sameBlock : x.2.1.block = block
  sameStorage : x.1.wireStorage = storage
  fits : S.Fits block (n + 1) t x.1
  blocks : s = {handle} + ofOpt block + S.fieldBlocks (n + 1) t x.1

/-- What merging a message into another one does, at `n` levels. -/
def MergesChild (S : Schema T) (n : ℕ) (block : Option ℕ)
    (mergeChild : T → TcMessage → TextView → Effect Heap (TcMessage × ℕ)) : Prop :=
  ∀ t m input, input.block = block → S.Fits block n t m →
    Triple (ofOpt block + S.fieldBlocks n t m) (mergeChild t m input) fun x s ↦
      x.1.wireStorage = m.wireStorage ∧ S.Fits block n t x.1 ∧
        s = ofOpt block + S.fieldBlocks n t x.1

section Record

variable {t : T} {n handle : ℕ} {block : Option ℕ} {m : TcMessage} {r : ProtoReader}
  (hhandle : r.handle = handle) (hblock : r.block = block) (hm : S.Fits block (n + 1) t m)

include hhandle hblock hm

theorem merged_same {γ : Type} (e : γ) :
    Merged S t n handle block m.wireStorage (m, r, e)
      ({handle} + ofOpt block + S.fieldBlocks (n + 1) t m) :=
  ⟨hhandle, hblock, rfl, hm, rfl⟩

theorem triple_skipField (number : ℕ) :
    Triple ({handle} + ofOpt block + S.fieldBlocks (n + 1) t m) (skipField number m r)
      (Merged S t n handle block m.wireStorage) := by
  apply (r.among hhandle hblock _).skip_then
  exact .pure ⟨hhandle, hblock, rfl, hm, rfl⟩

/-- A slot that is set. -/
theorem merged_set {γ : Type} {f : Field T} (hf : f ∈ S.fields t) {slot : TcSlot TcMessage}
    (hslot : f.SlotFits block (S.Fits block n) slot) {rest : Multiset ℕ}
    (hrest : S.fieldBlocks (n + 1) t (m.set f.number slot) =
      f.slotBlocks (S.fieldBlocks n) slot + rest) (e : γ) :
    Merged S t n handle block m.wireStorage (m.set f.number slot, r, e)
      ({handle} + ofOpt block + (f.slotBlocks (S.fieldBlocks n) slot + rest)) :=
  ⟨hhandle, hblock, rfl, hm.set hf hslot, by rw [hrest]⟩

end Record

theorem triple_readPacked (k : NumberType) (fuel : ℕ) {a : TcArray U64} {r : ProtoReader}
    {handle : ℕ} {block : Option ℕ} (hhandle : r.handle = handle) (hblock : r.block = block) :
    Triple ({handle} + ofOpt block + ofOpt a.data) (readPacked k fuel a r) fun x s ↦
      x.2.handle = handle ∧ x.2.block = block ∧ s = {handle} + ofOpt block + ofOpt x.1.data := by
  induction fuel generalizing a r with
  | zero => exact .pure ⟨hhandle, hblock, rfl⟩
  | succ fuel ih =>
      rw [readPacked]
      apply (r.among hhandle hblock _).done_then
      split
      · exact .pure ⟨hhandle, hblock, rfl⟩
      · apply (r.among hhandle hblock _).read_then
        apply Triple.bind ({handle} + ofOpt block) (a.triple_push _) (add_comm _ _)
        rintro b _ ⟨rfl, -⟩
        rw [add_comm]
        exact ih hhandle hblock

section Field

variable {t : T} {n handle : ℕ} {block : Option ℕ} {m : TcMessage} {r : ProtoReader} {f : Field T}
  (hhandle : r.handle = handle) (hblock : r.block = block) (hm : S.Fits block (n + 1) t m)
  (hf : f ∈ S.fields t)

include hhandle hblock hm hf

theorem triple_mergeNumber {k : NumberType} (htype : f.type = .number k) :
    Triple ({handle} + ofOpt block + S.fieldBlocks (n + 1) t m) (mergeNumber f k m r)
      (Merged S t n handle block m.wireStorage) := by
  obtain ⟨rest, hsplit, hset⟩ := Schema.fieldBlocks_split n m hf
  have hfits : ∀ slot, f.SlotFits block (S.Fits block n) slot := by
    intro slot
    rw [Field.SlotFits, htype]
    trivial
  have harray : ∀ slot, f.repeated = true →
      f.slotBlocks (S.fieldBlocks n) slot = ofOpt slot.numberArray.data := by
    intro slot hrepeated
    simp only [Field.slotBlocks, htype, if_pos hrepeated]
  unfold mergeNumber
  dsimp only
  split
  · rename_i hpacked
    have hnumbers := harray (m.slot f.number) hpacked.1
    rw [hnumbers] at hsplit
    apply (r.among hhandle hblock _).bytes_then
    apply Triple.bind ({handle} + ofOpt block + S.fieldBlocks (n + 1) t m) (ProtoReader.triple_create _)
      (zero_add _).symm
    rintro packed _ ⟨hpblock, rfl⟩
    have hpb : packed.block = block := hpblock.trans hblock
    apply Triple.bind ({handle} + rest) (triple_readPacked k _ rfl hpb)
    · rw [hsplit]
      abel
    · rintro ⟨values, packed'⟩ _ ⟨hph, hpb', rfl⟩
      have hsum : {packed.handle} + ofOpt block + ofOpt values.data + ({handle} + rest) =
          {packed.handle} + ofOpt block + (ofOpt values.data + {handle} + rest) := by abel
      rw [hsum]
      apply (packed'.among hph hpb' _).error_then
      apply Triple.bind ({handle} + ofOpt block + (ofOpt values.data + rest)) (.free _)
      · rw [hph]
        abel
      · rintro - _ rfl
        have hslot := harray (.numbers values) hpacked.1
        rw [zero_add]
        apply Triple.pure
        have hmerged := merged_set (r := { r with state := r.state.readBytes.2 }) hhandle hblock hm
          hf (hfits (.numbers values)) (hset _) (returned packed'.state.error)
        rwa [hslot] at hmerged
  · split
    · exact triple_skipField hhandle hblock hm f.number
    · apply (r.among hhandle hblock _).read_then
      split
      · rename_i hrepeated
        have hnumbers := harray (m.slot f.number) hrepeated
        rw [hnumbers] at hsplit
        apply Triple.bind ({handle} + ofOpt block + rest) (TcArray.triple_push _ _)
        · rw [hsplit]
          abel
        · rintro values _ ⟨rfl, -⟩
          have hslot := harray (.numbers values) hrepeated
          have hmerged := merged_set (γ := Option ℕ)
            (r := { r with state := (Protobuf.readNumber k r.state).2 }) hhandle hblock hm
            hf (hfits (.numbers values)) (hset _) none
          rw [hslot] at hmerged
          apply Triple.pure
          have hsum : ofOpt values.data + ({handle} + ofOpt block + rest) =
              {handle} + ofOpt block + (ofOpt values.data + rest) := by abel
          exact hsum ▸ hmerged
      · rename_i hrepeated
        have hzero : ∀ slot, f.slotBlocks (S.fieldBlocks n) slot = 0 := by
          intro slot
          simp only [Field.slotBlocks, htype, if_neg hrepeated]
        have hmerged := merged_set (γ := Option ℕ)
          (r := { r with state := (Protobuf.readNumber k r.state).2 }) hhandle hblock hm hf
          (hfits (.number ((m.slot f.number).has || f.optional)
            (Protobuf.readNumber k r.state).1)) (hset _) none
        rw [hzero] at hmerged hsplit
        rw [hsplit]
        exact .pure hmerged

theorem triple_mergeText (htype : f.type = .string ∨ f.type = .bytes) :
    Triple ({handle} + ofOpt block + S.fieldBlocks (n + 1) t m) (mergeText f m r)
      (Merged S t n handle block m.wireStorage) := by
  obtain ⟨rest, hsplit, hset⟩ := Schema.fieldBlocks_split n m hf
  have hslotBlocks : ∀ slot, f.slotBlocks (S.fieldBlocks n) slot =
      if f.repeated then ofOpt slot.textArray.data else 0 := by
    intro slot
    rw [Field.slotBlocks]
    rcases htype with htype | htype <;> rw [htype]
  have hslotFits : ∀ slot, f.SlotFits block (S.Fits block n) slot ↔
      (∀ v ∈ slot.textArray.values, v.Within block) ∧ slot.textValue.Within block := by
    intro slot
    rw [Field.SlotFits]
    rcases htype with htype | htype <;> rw [htype]
  obtain ⟨hold, -⟩ := (hslotFits _).mp (hm f hf)
  have hview : TextView.Within ⟨r.block, r.state.readBytes.1⟩ block := .inr hblock
  have hnull : TextView.null.Within block := .inl rfl
  unfold mergeText
  dsimp only
  split
  · exact triple_skipField hhandle hblock hm f.number
  · have hamong := r.among hhandle hblock (S.fieldBlocks (n + 1) t m)
    apply hamong.bytes_then
    apply Triple.keep (.useOpt hamong.block)
    intro _
    split
    · exact .pure (merged_same (r := { r with state := r.state.readBytes.2 }) hhandle hblock hm _)
    · split
      · rename_i hrepeated
        simp only [hslotBlocks, if_pos hrepeated] at hsplit
        apply Triple.bind ({handle} + ofOpt block + rest) (TcArray.triple_push _ _)
        · rw [hsplit]
          abel
        · rintro values _ ⟨rfl, hvalues⟩
          have hfits : f.SlotFits block (S.Fits block n) (.texts values) := by
            refine (hslotFits _).mpr ⟨?_, hnull⟩
            intro v hv
            rw [TcSlot.textArray, hvalues] at hv
            rcases List.mem_append.mp hv with hv | hv
            · exact hold v hv
            · exact List.mem_singleton.mp hv ▸ hview
          have hmerged := merged_set (γ := Option ℕ)
            (r := { r with state := r.state.readBytes.2 }) hhandle hblock hm hf hfits (hset _) none
          simp only [hslotBlocks, if_pos hrepeated] at hmerged
          apply Triple.pure
          have hsum : ofOpt values.data + ({handle} + ofOpt block + rest) =
              {handle} + ofOpt block + (ofOpt values.data + rest) := by abel
          exact hsum ▸ hmerged
      · rename_i hrepeated
        have hfits : f.SlotFits block (S.Fits block n)
            (.text ((m.slot f.number).has || f.optional) ⟨r.block, r.state.readBytes.1⟩) :=
          (hslotFits _).mpr ⟨fun v hv ↦ absurd hv List.not_mem_nil, hview⟩
        have hmerged := merged_set (γ := Option ℕ)
          (r := { r with state := r.state.readBytes.2 }) hhandle hblock hm hf hfits (hset _) none
        simp only [hslotBlocks, if_neg hrepeated] at hmerged hsplit
        rw [hsplit]
        exact .pure hmerged

end Field

/-- The object behind a pointer, or a new one. -/
theorem triple_object {t : T} {k : ℕ} {block : Option ℕ} (c : Option (ℕ × TcMessage))
    (hc : ∀ x, c = some x → x.2.wireStorage = .null ∧ S.Fits block (k + 1) t x.2) :
    Triple (c.elim 0 fun x ↦ {x.1} + S.fieldBlocks (k + 1) t x.2)
      (c.elim (do
        let object ← alloc
        pure (object, S.fresh t)) pure) fun x s ↦
      x.2.wireStorage = .null ∧ S.Fits block (k + 1) t x.2 ∧
        s = {x.1} + S.fieldBlocks (k + 1) t x.2 := by
  cases c with
  | none =>
      apply Triple.bind 0 .alloc (zero_add _).symm
      rintro object _ rfl
      refine .pure ⟨rfl, Schema.fits_fresh k t, ?_⟩
      rw [Schema.fieldBlocks_fresh]
  | some x => exact .pure ⟨(hc x rfl).1, (hc x rfl).2, rfl⟩

theorem triple_mergeMessage {t t' : T} {k handle : ℕ} {block : Option ℕ} {m : TcMessage}
    {r : ProtoReader} {f : Field T} (hhandle : r.handle = handle) (hblock : r.block = block)
    (hm : S.Fits block (k + 2) t m) (hf : f ∈ S.fields t) (htype : f.type = .message t')
    {mergeChild : T → TcMessage → TextView → Effect Heap (TcMessage × ℕ)}
    (hchild : MergesChild S (k + 1) block mergeChild) :
    Triple ({handle} + ofOpt block + S.fieldBlocks (k + 2) t m)
      (mergeMessage S mergeChild f t' m r)
      (Merged S t (k + 1) handle block m.wireStorage) := by
  obtain ⟨rest, hsplit, hset⟩ := Schema.fieldBlocks_split (k + 1) m hf
  have hslotFits : ∀ slot, f.SlotFits block (S.Fits block (k + 1)) slot ↔
      (∀ c ∈ slot.childArray.values, c.wireStorage = .null ∧ S.Fits block (k + 1) t' c) ∧
        ∀ c, slot.childValue = some c → c.2.wireStorage = .null ∧ S.Fits block (k + 1) t' c.2 := by
    intro slot
    simp only [Field.SlotFits, htype]
  obtain ⟨hmembers, hsingle⟩ := (hslotFits _).mp (hm f hf)
  unfold mergeMessage
  dsimp only
  split
  · exact triple_skipField hhandle hblock hm f.number
  · apply (r.among hhandle hblock _).bytes_then
    split
    · rename_i hrepeated
      simp only [Field.slotBlocks, htype, if_pos hrepeated] at hsplit
      have hfresh : S.Fits block (k + 1) t' (S.fresh t') := Schema.fits_fresh k t'
      apply Triple.bind ({handle} + S.fieldBlocks (k + 2) t m)
        (hchild t' (S.fresh t') ⟨r.block, r.state.readBytes.1⟩ hblock hfresh)
      · rw [Schema.fieldBlocks_fresh]
        abel
      · rintro ⟨child, error⟩ _ ⟨hstorage, hfits, rfl⟩
        apply Triple.bind ({handle} + ofOpt block + S.fieldBlocks (k + 1) t' child +
          (((m.slot f.number).childArray.values.map (S.fieldBlocks (k + 1) t')).sum + rest))
          (TcArray.triple_push _ _)
        · rw [hsplit]
          abel
        · rintro values _ ⟨rfl, hvalues⟩
          have hslot : f.SlotFits block (S.Fits block (k + 1)) (.children values) := by
            refine (hslotFits _).mpr ⟨?_, fun c hc ↦ absurd hc.symm (Option.some_ne_none c)⟩
            intro c hc
            rw [TcSlot.childArray, hvalues] at hc
            rcases List.mem_append.mp hc with hc | hc
            · exact hmembers c hc
            · exact List.mem_singleton.mp hc ▸ ⟨hstorage, hfits⟩
          have hmerged := merged_set (r := { r with state := r.state.readBytes.2 }) hhandle hblock
            hm hf hslot (hset _) (returned error)
          simp only [Field.slotBlocks, htype, if_pos hrepeated, TcSlot.childArray_children, hvalues,
            List.map_append, List.sum_append, List.map_cons, List.map_nil, List.sum_cons,
            List.sum_nil] at hmerged
          apply Triple.pure
          convert hmerged using 1
          abel
    · rename_i hrepeated
      simp only [Field.slotBlocks, htype, if_neg hrepeated] at hsplit
      apply Triple.bind ({handle} + ofOpt block + rest)
        (triple_object (m.slot f.number).childValue hsingle)
      · rw [hsplit]
        abel
      · rintro ⟨object, child⟩ _ ⟨hstorage, hfits, rfl⟩
        apply Triple.keep (.use (by simp))
        intro _
        apply Triple.bind ({object} + ({handle} + rest))
          (hchild t' child ⟨r.block, r.state.readBytes.1⟩ hblock hfits)
        · abel
        · rintro ⟨child', error⟩ _ ⟨hstorage', hfits', rfl⟩
          have hslot : f.SlotFits block (S.Fits block (k + 1)) (.child (some (object, child'))) := by
            refine (hslotFits _).mpr ⟨fun c hc ↦ absurd hc List.not_mem_nil, ?_⟩
            rintro _ ⟨⟩
            exact ⟨hstorage'.trans hstorage, hfits'⟩
          have hmerged := merged_set (r := { r with state := r.state.readBytes.2 }) hhandle hblock
            hm hf hslot (hset _) (returned error)
          simp only [Field.slotBlocks, htype, if_neg hrepeated, TcSlot.childValue_child,
            Option.elim_some] at hmerged
          apply Triple.pure
          convert hmerged using 1
          abel

theorem triple_mergeRecord {t : T} {k handle : ℕ} {block : Option ℕ} {m : TcMessage}
    {r : ProtoReader} (hhandle : r.handle = handle) (hblock : r.block = block)
    (hm : S.Fits block (k + 2) t m)
    {mergeChild : T → TcMessage → TextView → Effect Heap (TcMessage × ℕ)}
    (hchild : MergesChild S (k + 1) block mergeChild) (number : ℕ) :
    Triple ({handle} + ofOpt block + S.fieldBlocks (k + 2) t m)
      (mergeRecord S mergeChild t number m r) (Merged S t (k + 1) handle block m.wireStorage) := by
  unfold mergeRecord
  split
  · rename_i f hfield
    have hf := (Schema.field_eq_some hfield).1
    unfold mergeField
    split
    · exact triple_mergeNumber hhandle hblock hm hf ‹_›
    · exact triple_mergeText hhandle hblock hm hf (.inl ‹_›)
    · exact triple_mergeText hhandle hblock hm hf (.inr ‹_›)
    · exact triple_mergeMessage hhandle hblock hm hf ‹_› hchild
  · exact triple_skipField hhandle hblock hm number

/-- The loop over the records, by induction on the turns that are left. -/
theorem triple_mergeLoop {t : T} {k handle : ℕ} {block : Option ℕ}
    {mergeChild : T → TcMessage → TextView → Effect Heap (TcMessage × ℕ)}
    (hchild : MergesChild S (k + 1) block mergeChild) (fuel : ℕ) {m : TcMessage}
    {r : ProtoReader} (hhandle : r.handle = handle) (hblock : r.block = block)
    (hm : S.Fits block (k + 2) t m) :
    Triple ({handle} + ofOpt block + S.fieldBlocks (k + 2) t m)
      (mergeLoop S mergeChild t fuel m r) (Merged S t (k + 1) handle block m.wireStorage) := by
  induction fuel generalizing m r with
  | zero =>
      apply (r.among hhandle hblock _).error_then
      exact .pure (merged_same hhandle hblock hm _)
  | succ fuel ih =>
      rw [mergeLoop]
      apply (r.among hhandle hblock _).done_then
      split
      · apply (r.among hhandle hblock _).error_then
        exact .pure (merged_same hhandle hblock hm _)
      · apply (r.among hhandle hblock _).read_then
        dsimp only
        split
        · apply (ProtoReader.among (r := { r with state := r.state.next.2 })
            hhandle hblock _).error_then
          exact .pure (merged_same (r := { r with state := r.state.next.2 }) hhandle hblock hm _)
        · apply Triple.bind 0
            (triple_mergeRecord (r := { r with state := r.state.next.2 }) hhandle hblock hm hchild _)
            (add_zero _).symm
          rintro ⟨m', r', error⟩ _ ⟨hhandle', hblock', hstorage, hfits, rfl⟩
          rw [add_zero]
          cases error with
          | some e => exact .pure ⟨hhandle', hblock', hstorage, hfits, rfl⟩
          | none =>
              rw [← hstorage]
              exact ih hhandle' hblock' hfits

theorem mergesChild_mergeInto (S : Schema T) (block : Option ℕ) (n : ℕ) :
    MergesChild S (n + 1) block (S.mergeInto n) := by
  induction n with
  | zero =>
      intro t m input _ hm
      exact .pure ⟨rfl, hm, rfl⟩
  | succ n ih =>
      intro t m input hinput hm
      rw [Schema.mergeInto]
      apply Triple.bind (ofOpt block + S.fieldBlocks (n + 2) t m) (ProtoReader.triple_create input)
        (zero_add _).symm
      rintro r _ ⟨hblock, rfl⟩
      apply Triple.bind 0 (triple_mergeLoop ih _ rfl (hblock.trans hinput) hm)
      · abel
      · rintro ⟨m', r', error⟩ _ ⟨hhandle, -, hstorage, hfits, rfl⟩
        apply Triple.bind (ofOpt block + S.fieldBlocks (n + 2) t m') (.free r'.handle)
        · rw [hhandle]
          abel
        · rintro - _ rfl
          exact .pure ⟨hstorage, hfits, zero_add _⟩

/-! ## Destroying -/

theorem triple_destroyField {n : ℕ} {block : Option ℕ}
    {destroyChild : T → TcMessage → Effect Heap Unit} (hchild : ∀ t m, S.Fits block n t m →
      m.wireStorage = .null → Triple (S.fieldBlocks n t m) (destroyChild t m) fun _ s ↦ s = 0)
    (f : Field T) {slot : TcSlot TcMessage} (hslot : f.SlotFits block (S.Fits block n) slot) :
    Triple (f.slotBlocks (S.fieldBlocks n) slot) (destroyField destroyChild f slot)
      fun _ s ↦ s = 0 := by
  rw [Field.SlotFits] at hslot
  unfold Field.slotBlocks destroyField
  cases htype : f.type with
  | number k =>
      dsimp only
      split
      · exact .freeOpt _
      · exact .pure rfl
  | string | bytes =>
      dsimp only
      split
      · exact .freeOpt _
      · exact .pure rfl
  | message t =>
      rw [htype] at hslot
      dsimp only
      split
      · apply Triple.bind 0 (Triple.forM ?_) (add_zero _).symm
        · rintro - _ rfl
          rw [add_zero]
          exact .freeOpt _
        · intro c hc
          obtain ⟨hstorage, hfits⟩ := hslot.1 c hc
          apply Triple.keep (.useOpt (Multiset.le_add_right _ _))
          intro _
          rw [add_comm]
          apply (hchild t c hfits hstorage).frame
          rintro - _ rfl
          exact zero_add _
      · cases hvalue : slot.childValue with
        | none => exact .pure rfl
        | some c =>
            obtain ⟨hstorage, hfits⟩ := hslot.2 c hvalue
            rw [Option.elim_some]
            apply Triple.keep (.use (by simp))
            intro _
            apply Triple.bind {c.1} (hchild t c.2 hfits hstorage) (add_comm _ _)
            rintro - _ rfl
            rw [zero_add]
            exact .free c.1

theorem triple_destroyOwned {n : ℕ} {block : Option ℕ} {t : T} {m : TcMessage}
    (hm : S.Fits block n t m) :
    Triple (ofOpt m.wireStorage.block + S.fieldBlocks n t m) (S.destroyOwned n t m)
      fun _ s ↦ s = 0 := by
  induction n generalizing t m with
  | zero => exact hm.elim
  | succ n ih =>
      rw [Schema.destroyOwned]
      apply Triple.bind (ofOpt m.wireStorage.block) (Triple.forM  ?_)
      · rw [zero_add, add_comm]
        rfl
      · rintro - _ rfl
        rw [zero_add]
        exact .freeOpt _
      · intro f hf
        rw [zero_add]
        apply triple_destroyField (fun t m hfits hstorage ↦ ?_) f (hm f hf)
        have hfree := ih hfits
        rwa [hstorage, TextView.null, ofOpt_none, zero_add] at hfree

/-! ## Encoding -/

/-- What is written by way of a writer: the message and the block of its strings stay. -/
def Writes (borrowed : Multiset ℕ) (x : ProtoWriter × Option ℕ) (s : Multiset ℕ) : Prop :=
  s = x.1.blocks + borrowed

variable {borrowed : Multiset ℕ}

theorem triple_untilError {α : Type}
    {step : ProtoWriter → α → Effect Heap (ProtoWriter × Option ℕ)} {xs : List α}
    (h : ∀ x ∈ xs, ∀ w, Triple (w.blocks + borrowed) (step w x) (Writes borrowed))
    (w : ProtoWriter) :
    Triple (w.blocks + borrowed) (untilError step xs w) (Writes borrowed) := by
  induction xs generalizing w with
  | nil => exact .pure rfl
  | cons x xs ih =>
      rw [untilError]
      apply Triple.bind 0 (h x List.mem_cons_self w) (add_zero _).symm
      rintro ⟨w', error⟩ _ rfl
      rw [add_zero]
      cases error with
      | some e => exact .pure rfl
      | none => exact ih (fun y hy ↦ h y (List.mem_cons_of_mem x hy)) w'

/-- The loop over an array that stays. -/
theorem triple_writeAll {α : Type}
    {write : ProtoWriter → α → Effect Heap (ProtoWriter × Option ℕ)} {a : TcArray α}
    (hdata : ofOpt a.data ≤ borrowed)
    (h : ∀ x ∈ a.values, ∀ w, Triple (w.blocks + borrowed) (write w x) (Writes borrowed))
    (w : ProtoWriter) :
    Triple (w.blocks + borrowed) (writeAll write w a) (Writes borrowed) := by
  apply triple_untilError
  intro x hx w
  apply Triple.keep (.useOpt (hdata.trans (Multiset.le_add_left _ _)))
  intro _
  exact h x hx w

theorem triple_writeNumber (k : NumberType) (w : ProtoWriter) (value : U64) :
    Triple (w.blocks + borrowed) (writeNumber k w value) fun w' s ↦ s = w'.blocks + borrowed := by
  unfold writeNumber
  split
  · exact w.triple_varint _
  · exact w.triple_fixed _ _
  · exact w.triple_fixed _ _

/-- A field that is written if its test holds. -/
theorem triple_writeIf {c : Prop} [Decidable c] {w : ProtoWriter}
    {x : Effect Heap (ProtoWriter × Option ℕ)}
    (h : Triple (w.blocks + borrowed) x (Writes borrowed)) :
    Triple (w.blocks + borrowed) (if c then x else pure (w, none)) (Writes borrowed) := by
  split
  · exact h
  · exact .pure rfl

section Encode

variable {f : Field T}

theorem triple_writeTagged (k : NumberType) (w : ProtoWriter) (value : U64) :
    Triple (w.blocks + borrowed) (writeTagged f k w value) (Writes borrowed) := by
  apply Triple.bind 0 (w.triple_tag _ _) (add_zero _).symm
  rintro w' _ rfl
  apply Triple.bind 0 (triple_writeNumber k w' value) rfl
  rintro w'' _ rfl
  exact .pure (add_zero _)

theorem triple_writeText (w : ProtoWriter) {value : TextView}
    (hvalue : ofOpt value.block ≤ borrowed) :
    Triple (w.blocks + borrowed) (writeText f w value) (Writes borrowed) := by
  apply Triple.bind 0 (w.triple_tag _ _) (add_zero _).symm
  rintro w' _ rfl
  rw [add_zero]
  apply Triple.keep (.useOpt (hvalue.trans (Multiset.le_add_left _ _)))
  intro _
  split
  · exact .pure rfl
  · apply Triple.bind 0 (w'.triple_bytes hvalue) (add_zero _).symm
    rintro w'' _ rfl
    exact .pure (add_zero _)

/-- The string of a nested message is freed on every exit. -/
theorem triple_writeMessage {encodeChild : T → TcMessage → Effect Heap (TextView × ℕ)} {t : T}
    {value : TcMessage} (hchild : Triple borrowed (encodeChild t value) fun x s ↦
      s = borrowed + ofOpt x.1.block) (w : ProtoWriter) :
    Triple (w.blocks + borrowed) (writeMessage encodeChild f t w value) (Writes borrowed) := by
  apply Triple.bind 0 (w.triple_tag _ _) (add_zero _).symm
  rintro w' _ rfl
  apply Triple.bind w'.blocks hchild
  · abel
  · rintro ⟨encoded, error⟩ _ rfl
    dsimp only
    split
    · apply Triple.bind (w'.blocks + borrowed) (.freeOpt encoded.block)
      · abel
      · rintro - _ rfl
        exact .pure (zero_add _)
    · have hbytes : Triple (w'.blocks + (borrowed + ofOpt encoded.block)) (w'.bytes encoded)
          fun w'' s ↦ s = w''.blocks + (borrowed + ofOpt encoded.block) :=
        w'.triple_bytes (Multiset.le_add_left _ _)
      apply Triple.bind 0 hbytes
      · abel
      · rintro w'' _ rfl
        apply Triple.bind (w''.blocks + borrowed) (.freeOpt encoded.block)
        · abel
        · rintro - _ rfl
          exact .pure (zero_add _)

/-- The writer of packed values and its string are freed on every exit. -/
theorem triple_writePacked (k : NumberType) (w : ProtoWriter) {a : TcArray U64}
    (hdata : ofOpt a.data ≤ borrowed) :
    Triple (w.blocks + borrowed) (writePacked f k w a) (Writes borrowed) := by
  unfold writePacked
  split
  · exact .pure rfl
  · apply Triple.bind (w.blocks + borrowed) ProtoWriter.triple_create (zero_add _).symm
    rintro packed _ rfl
    apply Triple.bind w.blocks (triple_writeAll hdata (fun x _ p ↦ ?_) packed)
    · abel
    · rintro ⟨packed', error⟩ _ rfl
      have hsum : packed'.blocks + borrowed + w.blocks = packed'.blocks + (borrowed + w.blocks) := by
        abel
      rw [hsum]
      apply packed'.error_then
      split
      · apply Triple.bind (borrowed + w.blocks) packed'.triple_destroy rfl
        rintro - _ rfl
        rw [zero_add, add_comm]
        exact .pure rfl
      · apply Triple.bind (borrowed + w.blocks) packed'.triple_take rfl
        rintro ⟨bytes, packed''⟩ _ rfl
        -- the string of the packed values is written like any other one
        have hkept : ∀ v : ProtoWriter, ofOpt bytes.block + packed''.blocks + (borrowed + v.blocks) =
            v.blocks + (ofOpt bytes.block + packed''.blocks + borrowed) := fun v ↦ by abel
        rw [hkept]
        apply Triple.bind 0 (w.triple_tag _ _) (add_zero _).symm
        rintro w' _ rfl
        rw [add_zero]
        apply Triple.bind 0 (w'.triple_bytes ?_) (add_zero _).symm
        · rintro w'' _ rfl
          apply Triple.bind (w''.blocks + packed''.blocks + borrowed) (.freeOpt bytes.block)
          · abel
          · rintro - _ rfl
            apply Triple.bind (w''.blocks + borrowed) packed''.triple_destroy
            · abel
            · rintro - _ rfl
              exact .pure (zero_add _)
        · rw [add_assoc]
          exact Multiset.le_add_right _ _
    · apply Triple.bind 0 (triple_writeNumber k p x) (add_zero _).symm
      rintro p' _ rfl
      exact .pure (add_zero _)

end Encode

theorem le_sum_of_mem {α : Type} {r : α → Multiset ℕ} {xs : List α} {x : α} (hx : x ∈ xs) :
    r x ≤ (xs.map r).sum :=
  List.single_le_sum (fun _ _ ↦ Multiset.zero_le _) _ (List.mem_map_of_mem hx)

/-- The blocks of a text view that fits are among those of its block. -/
theorem block_le {v : TextView} {block : Option ℕ} (hv : v.Within block)
    (hblock : ofOpt block ≤ borrowed) : ofOpt v.block ≤ borrowed := by
  rcases hv with hnone | hsame
  · rw [hnone]
    exact Multiset.zero_le _
  · rw [hsame]
    exact hblock

/-- What encoding a message at `n` levels does, wherever its blocks are live. -/
def EncodesChild (S : Schema T) (n : ℕ) (block : Option ℕ)
    (encodeChild : T → TcMessage → Effect Heap (TextView × ℕ)) : Prop :=
  ∀ t m borrowed, S.Fits block n t m → ofOpt block ≤ borrowed → S.fieldBlocks n t m ≤ borrowed →
    Triple borrowed (encodeChild t m) fun x s ↦ s = borrowed + ofOpt x.1.block

theorem triple_encodeField {n : ℕ} {block : Option ℕ}
    {encodeChild : T → TcMessage → Effect Heap (TextView × ℕ)}
    (hchild : EncodesChild S n block encodeChild) {f : Field T} {slot : TcSlot TcMessage}
    (hslot : f.SlotFits block (S.Fits block n) slot) (hblock : ofOpt block ≤ borrowed)
    (hblocks : f.slotBlocks (S.fieldBlocks n) slot ≤ borrowed) (w : ProtoWriter) :
    Triple (w.blocks + borrowed) (encodeField encodeChild f slot w) (Writes borrowed) := by
  rw [Field.SlotFits] at hslot
  rw [Field.slotBlocks] at hblocks
  unfold encodeField
  cases htype : f.type with
  | number k =>
      rw [htype] at hblocks
      dsimp only at hblocks ⊢
      split
      · rename_i hrepeated
        rw [if_pos hrepeated] at hblocks
        split
        · exact triple_writePacked k w hblocks
        · exact triple_writeAll hblocks (fun x _ w ↦ triple_writeTagged k w x) w
      · exact triple_writeIf (triple_writeTagged k w _)
  | string | bytes =>
      rw [htype] at hblocks hslot
      dsimp only at hblocks hslot ⊢
      split
      · rename_i hrepeated
        rw [if_pos hrepeated] at hblocks
        apply triple_writeAll hblocks
        exact fun v hv w ↦ triple_writeText w (block_le (hslot.1 v hv) hblock)
      · exact triple_writeIf (triple_writeText w (block_le hslot.2 hblock))
  | message t =>
      rw [htype] at hblocks hslot
      dsimp only at hblocks hslot ⊢
      split
      · rename_i hrepeated
        rw [if_pos hrepeated] at hblocks
        apply triple_writeAll ((Multiset.le_add_right _ _).trans hblocks)
        intro c hc w
        apply triple_writeMessage
        apply hchild t c borrowed (hslot.1 c hc).2 hblock
        exact (le_sum_of_mem hc).trans ((Multiset.le_add_left _ _).trans hblocks)
      · rename_i hrepeated
        rw [if_neg hrepeated] at hblocks
        cases hvalue : slot.childValue with
        | none => exact .pure rfl
        | some c =>
            rw [hvalue, Option.elim_some] at hblocks
            have hobject : c.1 ∈ w.blocks + borrowed := by
              apply Multiset.mem_add.mpr
              exact .inr (Multiset.singleton_le.mp ((Multiset.le_add_right _ _).trans hblocks))
            apply Triple.keep (.use hobject)
            intro _
            apply triple_writeMessage
            apply hchild t c.2 borrowed (hslot.2 c hvalue).2 hblock
            exact (Multiset.le_add_left _ _).trans hblocks

/-- Encoding leaves the string, by induction on the levels that are left. -/
theorem encodesChild_encodeOwned (S : Schema T) (block : Option ℕ) (levels n : ℕ) :
    EncodesChild S n block (S.encodeOwned levels) := by
  induction levels generalizing n with
  | zero => exact fun t m borrowed _ _ _ ↦ .pure (add_zero _).symm
  | succ levels ih =>
      intro t m borrowed hm hblock hblocks
      cases n with
      | zero => exact hm.elim
      | succ n =>
          rw [Schema.encodeOwned]
          apply Triple.bind borrowed ProtoWriter.triple_create (zero_add _).symm
          rintro w _ rfl
          apply Triple.bind 0 (triple_untilError (fun f hf w ↦ ?_) w) (add_zero _).symm
          · rintro ⟨w', error⟩ _ rfl
            rw [add_zero]
            cases error with
            | some e =>
                apply Triple.bind borrowed w'.triple_destroy rfl
                rintro - _ rfl
                exact .pure (add_comm _ _)
            | none =>
                apply Triple.bind borrowed w'.triple_take rfl
                rintro ⟨bytes, w''⟩ _ rfl
                have hsum : ofOpt bytes.block + w''.blocks + borrowed =
                    w''.blocks + (borrowed + ofOpt bytes.block) := by abel
                rw [hsum]
                apply w''.error_then
                apply Triple.bind (borrowed + ofOpt bytes.block) w''.triple_destroy rfl
                rintro - _ rfl
                exact .pure (zero_add _)
          · have hslot : f.slotBlocks (S.fieldBlocks n) (m.slot f.number) ≤ borrowed :=
              (le_sum_of_mem (r := fun f ↦ f.slotBlocks (S.fieldBlocks n) (m.slot f.number))
                hf).trans hblocks
            exact triple_encodeField (ih n) (hm f hf) hblock hslot w

end Memory

open Memory

/-! ## Decoded messages -/

/-- More levels than a message has change nothing. -/
theorem Schema.Fits.mono {block : Option ℕ} {n n' : ℕ} {t : T} {m : TcMessage}
    (h : S.Fits block n t m) (hle : n ≤ n') :
    S.Fits block n' t m ∧ S.fieldBlocks n' t m = S.fieldBlocks n t m := by
  induction n generalizing n' t m with
  | zero => exact h.elim
  | succ n ih =>
      obtain ⟨n', rfl⟩ := Nat.exists_eq_add_of_le' hle
      have hle' : n ≤ n' + n := Nat.le_add_left n n'
      have hslot : ∀ f ∈ S.fields t, f.SlotFits block (S.Fits block (n' + n)) (m.slot f.number) ∧
          f.slotBlocks (S.fieldBlocks (n' + n)) (m.slot f.number) =
            f.slotBlocks (S.fieldBlocks n) (m.slot f.number) := by
        intro f hf
        have hfits := h f hf
        rw [Field.SlotFits] at hfits ⊢
        rw [Field.slotBlocks, Field.slotBlocks]
        cases htype : f.type with
        | number k => exact ⟨trivial, rfl⟩
        | string | bytes =>
            rw [htype] at hfits
            exact ⟨hfits, rfl⟩
        | message t' =>
            rw [htype] at hfits
            obtain ⟨hmembers, hsingle⟩ := hfits
            refine ⟨⟨fun c hc ↦ ⟨(hmembers c hc).1, (ih (hmembers c hc).2 hle').1⟩,
              fun c hc ↦ ⟨(hsingle c hc).1, (ih (hsingle c hc).2 hle').1⟩⟩, ?_⟩
            have hsum : (m.slot f.number).childArray.values.map (S.fieldBlocks (n' + n) t') =
                (m.slot f.number).childArray.values.map (S.fieldBlocks n t') :=
              List.map_congr_left fun c hc ↦ (ih (hmembers c hc).2 hle').2
            dsimp only
            rw [hsum]
            cases hvalue : (m.slot f.number).childValue with
            | none => rfl
            | some c => simp only [Option.elim_some, (ih (hsingle c hvalue).2 hle').2]
      constructor
      · exact fun f hf ↦ (hslot f hf).1
      · exact congrArg List.sum (List.map_congr_left fun f hf ↦ (hslot f hf).2)

/-- A decoded message owns its storage and what its fields own. -/
theorem triple_decodeOwned (S : Schema T) (t : T) (input : List Byte) :
    Triple 0 (S.decodeOwned t input) fun x s ↦ S.Fits x.1.wireStorage.block 66 t x.1 ∧
      s = ofOpt x.1.wireStorage.block + S.fieldBlocks 66 t x.1 := by
  rw [Schema.decodeOwned, TextView.copy, bind_assoc]
  apply Triple.bind 0 .alloc (zero_add _).symm
  rintro block _ rfl
  rw [add_zero, pure_bind]
  apply Triple.bind 0 (mergesChild_mergeInto S (some block) 65 t (S.fresh t) ⟨some block, input⟩ rfl
    (Schema.fits_fresh 65 t))
  · rw [Schema.fieldBlocks_fresh, ofOpt_some]
    abel
  · rintro ⟨m, error⟩ _ ⟨-, hfits, rfl⟩
    exact .pure ⟨hfits, add_zero _⟩

/-- After decoding, whether it ended well or not, the new blocks are those of the message.
Wherever they are live, `destroy` frees them and nothing else, and every run of `encode`
leaves nothing but the string that it returns. -/
theorem decoded_message_owns_blocks (S : Schema T) (t : T) (input : List Byte) (h : Heap) :
    ∃ m error h' owned, S.decodeOwned t input h = some ((m, error), h') ∧
      h'.live = owned + h.live ∧
      (∀ n g others, 66 ≤ n → g.live = owned + others →
        ∃ g', S.destroyOwned n t m g = some ((), g') ∧ g'.live = others) ∧
      ∀ depth g others, g.live = owned + others →
        ∃ s e g', S.encodeOwned (levels depth) t m g = some ((s, e), g') ∧
          g'.live = ofOpt s.block + g.live := by
  obtain ⟨⟨m, error⟩, h', owned, hdecode, ⟨hfits, rfl⟩, hlive⟩ :=
    triple_decodeOwned S t input h h.live (zero_add _).symm
  refine ⟨m, error, h', _, hdecode, hlive, ?_, ?_⟩
  · intro n g others hn hg
    obtain ⟨hfits', hsame⟩ := hfits.mono hn
    rw [← hsame] at hg
    obtain ⟨_, g', _, hdestroy, rfl, hg'⟩ := triple_destroyOwned hfits' g others hg
    exact ⟨g', hdestroy, hg'.trans (zero_add _)⟩
  · intro depth g others hg
    obtain ⟨⟨s, e⟩, g', _, hencode, rfl, hg'⟩ :=
      encodesChild_encodeOwned S m.wireStorage.block (levels depth) 66 t m _ hfits
        (Multiset.le_add_right _ _) (Multiset.le_add_left _ _) g others hg
    refine ⟨s, e, g', hencode, hg'.trans ?_⟩
    rw [hg]
    abel

end TinyCPlus.Protobuf
