import TinyCPlus.Protobuf.Decoding
import TinyCPlus.Protobuf.Memory

/-!
# Blocks of readers, writers and messages

A message owns the data of its arrays and the objects of its singular fields, with what
the messages in them own.  Its strings are views into one block that it does not own.
-/

namespace TinyCPlus.Protobuf

open TinyCPlus.Library TinyCPlus.Library.Blocks

variable {α β : Type} {pre : Multiset ℕ} {post : β → Multiset ℕ → Prop}

/-! ## Readers -/

/-- The reader and its input are among the blocks. -/
structure ProtoReader.Among (r : ProtoReader) (pre : Multiset ℕ) : Prop where
  handle : r.handle ∈ pre
  block : ofOpt r.block ≤ pre

namespace ProtoReader

variable {r : ProtoReader}

theorem triple_create (input : TextView) :
    Triple 0 (create input) fun r s ↦ r.block = input.block ∧ s = {r.handle} := by
  apply Triple.bind 0 .alloc (zero_add _).symm
  rintro a _ rfl
  exact .pure ⟨rfl, add_zero _⟩

theorem Among.read_then (h : r.Among pre) {call : TcPbReader → α × TcPbReader}
    {f : α × ProtoReader → Effect Heap β}
    (hf : Triple pre (f ((call r.state).1, { r with state := (call r.state).2 })) post) :
    Triple pre (r.read call >>= f) post := by
  rw [read, bind_assoc]
  apply Triple.keep (.use h.handle)
  intro _
  rw [bind_assoc]
  apply Triple.keep (.useOpt h.block)
  intro _
  rw [pure_bind]
  exact hf

theorem Among.bytes_then (h : r.Among pre) {f : TextView × ProtoReader → Effect Heap β}
    (hf : Triple pre (f (⟨r.block, r.state.readBytes.1⟩, { r with state := r.state.readBytes.2 }))
      post) :
    Triple pre (r.bytes >>= f) post := by
  rw [bytes, bind_assoc]
  apply h.read_then
  rw [pure_bind]
  exact hf

theorem Among.skip_then (h : r.Among pre) {field : ℕ} {f : ProtoReader → Effect Heap β}
    (hf : Triple pre (f { r with state := r.state.skip field }) post) :
    Triple pre (r.skip field >>= f) post := by
  rw [skip, bind_assoc]
  apply h.read_then
  rw [pure_bind]
  exact hf

theorem Among.error_then (h : r.Among pre) {f : ℕ → Effect Heap β}
    (hf : Triple pre (f r.state.error) post) : Triple pre (r.error >>= f) post := by
  rw [error, bind_assoc]
  apply Triple.keep (.use h.handle)
  intro _
  rw [pure_bind]
  exact hf

theorem Among.done_then (h : r.Among pre) {f : Bool → Effect Heap β}
    (hf : Triple pre (f r.state.done) post) : Triple pre (r.done >>= f) post := by
  rw [done, bind_assoc]
  apply Triple.keep (.use h.handle)
  intro _
  rw [pure_bind]
  exact hf

end ProtoReader

/-! ## Arrays -/

namespace TcArray

variable (a : TcArray α)

theorem triple_reserve (required : ℕ) :
    Triple (ofOpt a.data) (a.reserve required) fun b s ↦
      s = ofOpt b.data ∧ b.values = a.values := by
  unfold reserve
  split
  · exact .pure ⟨rfl, rfl⟩
  · apply Triple.bind 0 (.realloc a.data) (add_zero _).symm
    rintro data _ rfl
    exact .pure ⟨add_zero _, rfl⟩

theorem triple_push (value : α) :
    Triple (ofOpt a.data) (a.push value) fun b s ↦
      s = ofOpt b.data ∧ b.values = a.values ++ [value] := by
  apply Triple.bind 0 (a.triple_reserve _) (add_zero _).symm
  rintro b _ ⟨rfl, hvalues⟩
  rw [add_zero]
  apply Triple.keep (.useOpt le_rfl)
  intro _
  exact .pure ⟨rfl, congrArg (· ++ [value]) hvalues⟩

end TcArray

/-! ## Writers -/

namespace ProtoWriter

variable {w : ProtoWriter}

/-- The blocks of a writer. -/
def blocks (w : ProtoWriter) : Multiset ℕ := {w.handle} + ofOpt w.buffer

theorem handle_mem (w : ProtoWriter) (rest : Multiset ℕ) : w.handle ∈ w.blocks + rest := by
  simp only [blocks, Multiset.mem_add, Multiset.mem_singleton, true_or]

theorem triple_create : Triple 0 create fun w s ↦ s = w.blocks := by
  apply Triple.bind 0 .alloc (zero_add _).symm
  rintro a _ rfl
  exact .pure rfl

theorem triple_destroy (w : ProtoWriter) : Triple w.blocks w.destroy fun _ s ↦ s = 0 := by
  apply Triple.bind {w.handle} (.freeOpt w.buffer) (add_comm _ _)
  rintro - _ rfl
  rw [zero_add]
  exact .free w.handle

/-- The buffer grows, or it stays. -/
theorem triple_room (w : ProtoWriter) (length : ℕ) :
    Triple (ofOpt w.buffer) (w.room length) fun b s ↦ s = ofOpt b := by
  unfold room
  split
  · apply Triple.bind 0 (.realloc w.buffer) (add_zero _).symm
    rintro data _ rfl
    exact .pure (add_zero _)
  · exact .pure rfl

variable {borrowed : Multiset ℕ}

theorem triple_append (w : ProtoWriter) {value : TextView} (hvalue : ofOpt value.block ≤ borrowed) :
    Triple (w.blocks + borrowed) (w.append value) fun w' s ↦ s = w'.blocks + borrowed := by
  unfold append
  apply Triple.keep (.use (w.handle_mem borrowed))
  intro _
  split
  · exact .pure rfl
  · apply Triple.bind ({w.handle} + borrowed) (w.triple_room _)
    · rw [blocks]
      abel
    · rintro buffer _ rfl
      have hsum : ofOpt buffer + ({w.handle} + borrowed) =
          ProtoWriter.blocks ⟨w.handle, buffer, w.state.append value.bytes⟩ + borrowed := by
        rw [blocks]
        abel
      rw [hsum]
      split
      · apply Triple.keep (.useOpt (hvalue.trans (Multiset.le_add_left _ _)))
        intro _
        apply Triple.keep (.useOpt ?_)
        · intro _
          exact .pure rfl
        · exact (Multiset.le_add_left _ _).trans (Multiset.le_add_right _ _)
      · exact .pure rfl

theorem triple_varint (w : ProtoWriter) (value : U64) :
    Triple (w.blocks + borrowed) (w.varint value) fun w' s ↦ s = w'.blocks + borrowed :=
  w.triple_append (Multiset.zero_le _)

theorem triple_fixed (w : ProtoWriter) (value : U64) (count : ℕ) :
    Triple (w.blocks + borrowed) (w.fixed value count) fun w' s ↦ s = w'.blocks + borrowed :=
  w.triple_append (Multiset.zero_le _)

theorem triple_bytes (w : ProtoWriter) {value : TextView} (hvalue : ofOpt value.block ≤ borrowed) :
    Triple (w.blocks + borrowed) (w.bytes value) fun w' s ↦ s = w'.blocks + borrowed := by
  apply Triple.bind 0 (w.triple_varint _) (add_zero _).symm
  rintro w' _ rfl
  rw [add_zero]
  exact w'.triple_append hvalue

theorem triple_tag (w : ProtoWriter) (field wire : ℕ) :
    Triple (w.blocks + borrowed) (w.tag field wire) fun w' s ↦ s = w'.blocks + borrowed :=
  w.triple_varint _

theorem error_then (w : ProtoWriter) {f : ℕ → Effect Heap β}
    (hf : Triple (w.blocks + borrowed) (f w.state.error) post) :
    Triple (w.blocks + borrowed) (w.error >>= f) post := by
  rw [error, bind_assoc]
  apply Triple.keep (.use (w.handle_mem borrowed))
  intro _
  rw [pure_bind]
  exact hf

/-- The buffer becomes the block of the string. -/
theorem triple_take (w : ProtoWriter) :
    Triple w.blocks w.take fun r s ↦ s = ofOpt r.1.block + r.2.blocks := by
  unfold take
  apply Triple.keep (.use (by simpa only [add_zero] using w.handle_mem 0))
  intro _
  split
  · exact .pure (zero_add _).symm
  · have hdata : Triple (ofOpt w.buffer) (w.buffer.elim alloc pure) fun a s ↦ s = {a} := by
      cases w.buffer with
      | none => exact .alloc
      | some a => exact .pure rfl
    apply Triple.bind {w.handle} hdata (add_comm _ _)
    rintro a _ rfl
    exact .pure rfl

end ProtoWriter

/-! ## Messages -/

@[simp] theorem TcMessage.slot_mk (storage : TextView) (slot : ℕ → TcSlot TcMessage) :
    (TcMessage.mk storage slot).slot = slot := rfl

@[simp] theorem TcMessage.slot_set (m : TcMessage) (number : ℕ) (value : TcSlot TcMessage) :
    (m.set number value).slot = Function.update m.slot number value := rfl

@[simp] theorem TcMessage.wireStorage_set (m : TcMessage) (number : ℕ)
    (value : TcSlot TcMessage) : (m.set number value).wireStorage = m.wireStorage := rfl

@[simp] theorem TcSlot.childArray_children {M : Type} (a : TcArray M) :
    (children a).childArray = a := rfl

@[simp] theorem TcSlot.childValue_child {M : Type} (c : Option (ℕ × M)) :
    (child c).childValue = c := rfl

/-- What a slot of the field owns, for the blocks of the messages in it. -/
def Field.slotBlocks {T : Type} (child : T → TcMessage → Multiset ℕ) (f : Field T)
    (slot : TcSlot TcMessage) : Multiset ℕ :=
  match f.type with
  | .number _ => if f.repeated then ofOpt slot.numberArray.data else 0
  | .string | .bytes => if f.repeated then ofOpt slot.textArray.data else 0
  | .message t =>
      if f.repeated then
        ofOpt slot.childArray.data + (slot.childArray.values.map (child t)).sum
      else slot.childValue.elim 0 fun c ↦ {c.1} + child t c.2

/-- The view is empty or in the block. -/
def TextView.Within (v : TextView) (block : Option ℕ) : Prop := v.block = none ∨ v.block = block

/-- The strings of a slot are in the block, and its messages are of the kind `child` and
keep no storage of their own. -/
def Field.SlotFits {T : Type} (block : Option ℕ) (child : T → TcMessage → Prop) (f : Field T)
    (slot : TcSlot TcMessage) : Prop :=
  match f.type with
  | .number _ => True
  | .string | .bytes =>
      (∀ v ∈ slot.textArray.values, v.Within block) ∧ slot.textValue.Within block
  | .message t =>
      (∀ c ∈ slot.childArray.values, c.wireStorage = .null ∧ child t c) ∧
        ∀ c, slot.childValue = some c → c.2.wireStorage = .null ∧ child t c.2

namespace Schema

variable {T : Type} (S : Schema T)

/-- What the fields of a message with at most `n` levels own. -/
def fieldBlocks : ℕ → T → TcMessage → Multiset ℕ
  | 0, _, _ => 0
  | n + 1, t, m =>
      ((S.fields t).map fun f ↦ f.slotBlocks (fieldBlocks n) (m.slot f.number)).sum

/-- A message with at most `n` levels, with its strings in the block. -/
def Fits (block : Option ℕ) : ℕ → T → TcMessage → Prop
  | 0, _, _ => False
  | n + 1, t, m => ∀ f ∈ S.fields t, f.SlotFits block (Fits block n) (m.slot f.number)

variable {S} {block : Option ℕ} {n : ℕ} {t : T} {m : TcMessage} {f : Field T}

theorem fresh_slot (hf : f ∈ S.fields t) : (S.fresh t).slot f.number = f.fresh := by
  rw [fresh, TcMessage.slot_mk, field_of_mem hf]

theorem fits_fresh (n : ℕ) (t : T) : S.Fits block (n + 1) t (S.fresh t) := by
  intro f hf
  rw [fresh_slot hf, Field.SlotFits, Field.fresh]
  cases f.type with
  | number k => trivial
  | string | bytes => cases f.repeated <;> simp [TcSlot.textArray, TcSlot.textValue, TcArray.empty,
      TextView.Within, TextView.null]
  | message t => cases f.repeated <;> simp [TcSlot.childArray, TcSlot.childValue, TcArray.empty]

theorem fieldBlocks_fresh (n : ℕ) (t : T) : S.fieldBlocks (n + 1) t (S.fresh t) = 0 := by
  apply List.sum_eq_zero
  intro s hs
  obtain ⟨f, hf, rfl⟩ := List.mem_map.mp hs
  rw [fresh_slot hf, Field.slotBlocks, Field.fresh]
  cases f.type with
  | number k => cases f.repeated <;> simp [TcSlot.numberArray, TcArray.empty]
  | string | bytes => cases f.repeated <;> simp [TcSlot.textArray, TcArray.empty]
  | message t => cases f.repeated <;> simp [TcSlot.childArray, TcSlot.childValue, TcArray.empty]

theorem Fits.set (h : S.Fits block (n + 1) t m) (hf : f ∈ S.fields t) {slot : TcSlot TcMessage}
    (hslot : f.SlotFits block (S.Fits block n) slot) :
    S.Fits block (n + 1) t (m.set f.number slot) := by
  intro g hg
  rw [TcMessage.slot_set]
  by_cases hnumber : g.number = f.number
  · have hsame : g = f := List.inj_on_of_nodup_map (S.distinct t) hg hf hnumber
    rw [hsame, Function.update_self]
    exact hslot
  · rw [Function.update_of_ne hnumber]
    exact h g hg

/-- The blocks of one slot apart from those of the others. -/
theorem fieldBlocks_split (n : ℕ) (m : TcMessage) (hf : f ∈ S.fields t) :
    ∃ rest, S.fieldBlocks (n + 1) t m =
        f.slotBlocks (S.fieldBlocks n) (m.slot f.number) + rest ∧
      ∀ slot, S.fieldBlocks (n + 1) t (m.set f.number slot) =
        f.slotBlocks (S.fieldBlocks n) slot + rest := by
  obtain ⟨before, after, hfields⟩ := List.append_of_mem hf
  have hdistinct := S.distinct t
  rw [hfields, List.map_append, List.map_cons, List.nodup_append] at hdistinct
  obtain ⟨-, hafter, hapart⟩ := hdistinct
  have hother : ∀ g ∈ before ++ after, g.number ≠ f.number := by
    intro g hg
    rcases List.mem_append.mp hg with hg | hg
    · exact hapart _ (List.mem_map_of_mem hg) _ List.mem_cons_self
    · exact fun he ↦ (List.nodup_cons.mp hafter).1 (he ▸ List.mem_map_of_mem hg)
  refine ⟨((before ++ after).map fun g ↦
    g.slotBlocks (S.fieldBlocks n) (m.slot g.number)).sum, ?_, fun slot ↦ ?_⟩
  · simp only [fieldBlocks, hfields, List.map_append, List.map_cons, List.sum_append,
      List.sum_cons]
    abel
  · have hsame : (before ++ after).map (fun g ↦
        g.slotBlocks (S.fieldBlocks n) ((m.set f.number slot).slot g.number)) =
        (before ++ after).map fun g ↦ g.slotBlocks (S.fieldBlocks n) (m.slot g.number) := by
      apply List.map_congr_left
      intro g hg
      rw [TcMessage.slot_set, Function.update_of_ne (hother g hg)]
    rw [← hsame]
    simp only [fieldBlocks, hfields, List.map_append, List.map_cons, List.sum_append,
      List.sum_cons, TcMessage.slot_set, Function.update_self]
    abel

end Schema

end TinyCPlus.Protobuf
