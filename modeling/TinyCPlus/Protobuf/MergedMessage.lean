import TinyCPlus.Protobuf.Decoding
import TinyCPlus.Protobuf.Merging

/-!
# The message that is merged

Merging the encoding of a message gives the merged message: one record at a
time, then one field, then all fields of the message and its children.
-/

namespace TinyCPlus.Protobuf

open TcPbReader

section Records

variable {T : Type} {S : Schema T} {t : T} {n : ℕ}

theorem mergeLevels_nil (n : ℕ) (t : T) (m : Message) : S.mergeLevels (n + 1) t m [] = (m, 0) :=
  rfl

/-- One record, whose value is all that is left. -/
theorem mergeLevels_record {m m' : Message} {number wire : ℕ} {payload : List Byte}
    (hpos : 1 ≤ number) (hle : number ≤ 536870911) (hwire : wire ≤ 5)
    (hlength : ((Call.tag number wire).encoding ++ payload).length ≤ limit)
    (h : mergeRecord S (S.mergeLevels n) t number m ⟨payload, wire, 0⟩ = (m', .ok ⟨[], wire, 0⟩)) :
    S.mergeLevels (n + 1) t m ((Call.tag number wire).encoding ++ payload) = (m', 0) := by
  have hne : (Call.tag number wire).encoding ≠ [] := varint_ne_nil _
  have hdone : done ⟨(Call.tag number wire).encoding ++ payload, 0, 0⟩ = false := by
    simp [done, hne]
  rw [Schema.mergeLevels, TcPbReader.create, if_neg (Nat.not_lt.mpr hlength),
    mergeLoop_succ hdone, Call.encoding, next_tag hpos hle hwire]
  dsimp only
  rw [if_neg (by omega), h]
  exact mergeLoop_of_done rfl _ _

/-- Pieces of the input, each merged for itself. -/
theorem mergeLevels_flatMap {α : Type} {out : α → List Byte} {step : Message → α → Message}
    {xs : List α} {m : Message} (hlength : (xs.flatMap out).length ≤ limit)
    (hstep : ∀ x ∈ xs, ∀ m, (out x).length ≤ limit →
      S.mergeLevels (n + 1) t m (out x) = (step m x, 0)) :
    S.mergeLevels (n + 1) t m (xs.flatMap out) = (xs.foldl step m, 0) := by
  induction xs generalizing m with
  | nil => exact mergeLevels_nil n t m
  | cons x xs ih =>
      rw [List.flatMap_cons, List.length_append] at hlength
      have hfirst := hstep x List.mem_cons_self m (by omega)
      rw [List.flatMap_cons, Schema.mergeLevels_append hlength hfirst, List.foldl_cons]
      exact ih (by omega) fun y hy ↦ hstep y (List.mem_cons_of_mem x hy)

theorem length_le_of_calls {f : Field T} {value : List Byte}
    (hlength : (encoding (textCalls f value)).length ≤ limit) : value.length ≤ limit := by
  simp only [textCalls, encoding_cons, Call.encoding, List.length_append] at hlength
  omega

variable {f : Field T} (hpos : 1 ≤ f.number) (hle : f.number ≤ 536870911)
  (hfield : S.field t f.number = none ∨ S.field t f.number = some f)

include hpos hle hfield

theorem mergeLevels_number {k : NumberType} (htype : f.type = .number k) {value : U64}
    (hvalue : value.toNat < 2 ^ k.bits) {m : Message}
    (hlength : (encoding (numberCalls f k value)).length ≤ limit) :
    S.mergeLevels (n + 1) t m (encoding (numberCalls f k value)) =
      (S.put t m f.number
        (if f.repeated then .numbers ((m.slot f.number).numberValues ++ [value])
        else .number ((m.slot f.number).has || f.optional) value), 0) := by
  have hwire : k.wire ≤ 5 := by rcases k.wire_cases with h | h | h <;> omega
  have hnot : ¬ (f.repeated = true ∧ k.wire = 2) := by
    rintro ⟨-, hbytes⟩
    rcases k.wire_cases with h | h | h <;> omega
  have hread := readNumber_numberCall hvalue [] k.wire
  rw [List.append_nil] at hread
  rw [numberCalls, encoding_cons, encoding_cons, encoding_nil, List.append_nil] at hlength ⊢
  rcases hfield with hnone | hsome
  · rw [put_of_none hnone]
    refine mergeLevels_record hpos hle hwire hlength ?_
    rw [mergeRecord, hnone, skip_number]
  · rw [put_of_some hsome]
    refine mergeLevels_record hpos hle hwire hlength ?_
    rw [mergeRecord, hsome]
    dsimp only
    rw [mergeField, htype]
    dsimp only
    rw [if_neg hnot, if_neg (not_not.mpr rfl), hread]
    dsimp only
    split <;> rfl

/-- A record with bytes that are skipped or read. -/
theorem mergeLevels_bytes {value : List Byte} {m : Message} {slot : Slot Message}
    (hlength : (encoding (textCalls f value)).length ≤ limit)
    (h : mergeField S (S.mergeLevels n) f m ⟨(Call.bytes value).encoding, 2, 0⟩ =
      (m.set f.number slot, .ok ⟨[], 2, 0⟩)) :
    S.mergeLevels (n + 1) t m (encoding (textCalls f value)) =
      (S.put t m f.number slot, 0) := by
  have hvalue := length_le_of_calls hlength
  rw [textCalls, encoding_cons, encoding_cons, encoding_nil, List.append_nil] at hlength ⊢
  rcases hfield with hnone | hsome
  · rw [put_of_none hnone]
    refine mergeLevels_record hpos hle (by decide) hlength ?_
    rw [mergeRecord, hnone, skip_bytes hvalue]
  · rw [put_of_some hsome]
    refine mergeLevels_record hpos hle (by decide) hlength ?_
    rw [mergeRecord, hsome]
    exact h

theorem mergeLevels_text (htype : f.type = .string ∨ f.type = .bytes) {value : List Byte}
    (hvalue : f.type.isString = true → validUtf8 value = true) {m : Message}
    (hlength : (encoding (textCalls f value)).length ≤ limit) :
    S.mergeLevels (n + 1) t m (encoding (textCalls f value)) =
      (S.put t m f.number
        (if f.repeated then .texts ((m.slot f.number).textValues ++ [value])
        else .text ((m.slot f.number).has || f.optional) value), 0) := by
  have hok : ¬ (f.type.isString = true ∧ validUtf8 value = false) := by
    rintro ⟨hstring, hbad⟩
    rw [hvalue hstring] at hbad
    cases hbad
  refine mergeLevels_bytes hpos hle hfield hlength ?_
  have hread := readBytes_call (length_le_of_calls hlength) 2
  rcases htype with hkind | hkind <;>
  · rw [mergeField]
    simp only [hkind] at hok ⊢
    rw [if_neg (not_not.mpr rfl), hread]
    dsimp only
    rw [if_neg hok]
    split <;> rfl

theorem mergeLevels_packed {k : NumberType} (htype : f.type = .number k)
    (hrepeated : f.repeated = true) {values : List U64}
    (hvalues : ∀ value ∈ values, value.toNat < 2 ^ k.bits) {m : Message}
    (hlength : (encoding (packedCalls f k values)).length ≤ limit) :
    S.mergeLevels (n + 1) t m (encoding (packedCalls f k values)) =
      (S.put t m f.number
        (if values = [] then m.slot f.number
        else .numbers ((m.slot f.number).numberValues ++ values)), 0) := by
  rw [packedCalls] at hlength ⊢
  by_cases hnil : values = []
  · rw [if_pos hnil, if_pos (List.length_eq_zero_iff.mpr hnil), put_self]
    exact mergeLevels_nil n t m
  · rw [if_neg (fun h ↦ hnil (List.length_eq_zero_iff.mp h))] at hlength ⊢
    rw [if_neg hnil]
    have hshort := length_le_of_calls hlength
    refine mergeLevels_bytes hpos hle hfield hlength ?_
    rw [mergeField, htype]
    dsimp only
    rw [if_pos ⟨hrepeated, rfl⟩, readBytes_call hshort]
    dsimp only
    rw [TcPbReader.create, if_neg (Nat.not_lt.mpr hshort),
      readPacked_encoding hvalues (Nat.lt_succ_self _)]
    rfl

/-- A child of a repeated field. -/
theorem mergeLevels_children {t' : T} (htype : f.type = .message t') (hrepeated : f.repeated = true)
    {value : List Byte} {c m : Message}
    (hchild : value.length ≤ limit → S.mergeLevels n t' (S.initial t') value = (c, 0))
    (hlength : (encoding (textCalls f value)).length ≤ limit) :
    S.mergeLevels (n + 1) t m (encoding (textCalls f value)) =
      (S.put t m f.number (.children ((m.slot f.number).childValues ++ [c])), 0) := by
  have hshort := length_le_of_calls hlength
  refine mergeLevels_bytes hpos hle hfield hlength ?_
  rw [mergeField, htype]
  dsimp only
  rw [if_neg (not_not.mpr rfl), readBytes_call hshort]
  dsimp only
  rw [if_pos hrepeated, hchild hshort]
  rfl

/-- The child of a singular field goes on with the child that is there. -/
theorem mergeLevels_child {t' : T} (htype : f.type = .message t') (hrepeated : f.repeated = false)
    {value : List Byte} {c m : Message}
    (hchild : value.length ≤ limit →
      S.mergeLevels n t' ((m.slot f.number).childValue.getD (S.initial t')) value = (c, 0))
    (hlength : (encoding (textCalls f value)).length ≤ limit) :
    S.mergeLevels (n + 1) t m (encoding (textCalls f value)) =
      (S.put t m f.number (.child (some c)), 0) := by
  have hshort := length_le_of_calls hlength
  refine mergeLevels_bytes hpos hle hfield hlength ?_
  rw [mergeField, htype]
  dsimp only
  rw [if_neg (not_not.mpr rfl), readBytes_call hshort]
  dsimp only
  rw [if_neg (ne_true_of_eq_false hrepeated), hchild hshort]
  rfl

/-- The calls for a field, if those for its children are merged. -/
theorem mergeLevels_field {S' : Schema T}
    (hchild : ∀ t new, S'.Valid n t new → ∀ old, (S'.wireBytes n t new).length ≤ limit →
      S.mergeLevels n t old (S'.wireBytes n t new) = (S.merged n t old new, 0))
    {slot : Slot Message} (hslot : f.Shaped (validUtf8 · = true) (S'.Valid n) slot) {m : Message}
    (hlength : (encoding (fieldCalls (S'.wireBytes n) f slot)).length ≤ limit) :
    S.mergeLevels (n + 1) t m (encoding (fieldCalls (S'.wireBytes n) f slot)) =
      (S.put t m f.number (f.mergedSlot S.initial (S.merged n) (m.slot f.number) slot), 0) := by
  rw [fieldCalls.eq_def] at hlength ⊢
  rw [Field.mergedSlot.eq_def]
  cases hslot with
  | @number k has value htype hrepeated hhas hvalue =>
      simp only [htype, hrepeated, Bool.false_eq_true, if_false] at hlength ⊢
      by_cases hwritten : (if f.optional = true then (Slot.number (M := Message) has value).has
        else !k.isZero (Slot.number (M := Message) has value).numberValue) = true
      · simp only [if_pos hwritten] at hlength ⊢
        have hone := mergeLevels_number hpos hle hfield htype hvalue (n := n) (m := m) hlength
        rw [hrepeated] at hone
        exact hone
      · simp only [if_neg hwritten]
        rw [put_self]
        exact mergeLevels_nil n t m
  | @numbers k values htype hrepeated hvalues =>
      simp only [htype, hrepeated, if_true] at hlength ⊢
      split at hlength
      · rename_i hpacked
        rw [if_pos hpacked]
        exact mergeLevels_packed hpos hle hfield htype hrepeated hvalues hlength
      · rename_i hpacked
        rw [if_neg hpacked]
        rw [encoding_flatMap] at hlength ⊢
        rw [mergeLevels_flatMap hlength fun value hmem m hshort ↦
          mergeLevels_number hpos hle hfield htype (hvalues value hmem) hshort]
        simp only [hrepeated, if_true]
        rw [foldl_put fun slot value ↦ .numbers (slot.numberValues ++ [value]),
          foldl_snoc (fun _ ↦ rfl)]
  | @text has value htype hrepeated hhas hvalue =>
      rcases htype with hkind | hkind <;>
      · have htype : f.type = .string ∨ f.type = .bytes := by simp [hkind]
        simp only [hkind, hrepeated, Bool.false_eq_true, if_false] at hlength ⊢
        by_cases hwritten : (if f.optional = true then (Slot.text (M := Message) has value).has
          else decide (0 < (Slot.text (M := Message) has value).textValue.length)) = true
        · simp only [if_pos hwritten] at hlength ⊢
          have hone := mergeLevels_text hpos hle hfield htype hvalue (n := n) (m := m) hlength
          rw [hrepeated] at hone
          exact hone
        · simp only [if_neg hwritten]
          rw [put_self]
          exact mergeLevels_nil n t m
  | @texts values htype hrepeated hvalues =>
      rcases htype with hkind | hkind <;>
      · have htype : f.type = .string ∨ f.type = .bytes := by simp [hkind]
        simp only [hkind, hrepeated, if_true] at hlength ⊢
        rw [encoding_flatMap] at hlength ⊢
        rw [mergeLevels_flatMap hlength fun value hmem m hshort ↦
          mergeLevels_text hpos hle hfield htype (hvalues value hmem) hshort]
        simp only [hrepeated, if_true]
        rw [foldl_put fun slot value ↦ .texts (slot.textValues ++ [value]),
          foldl_snoc (fun _ ↦ rfl)]
  | @child t' value htype hrepeated hvalue =>
      simp only [htype, hrepeated, Bool.false_eq_true, if_false] at hlength ⊢
      cases value with
      | none =>
          dsimp only [Slot.childValue]
          rw [put_self]
          exact mergeLevels_nil n t m
      | some c =>
          exact mergeLevels_child hpos hle hfield htype hrepeated
            (hchild t' c (hvalue c rfl) _) hlength
  | @children t' values htype hrepeated hvalues =>
      simp only [htype, hrepeated, if_true] at hlength ⊢
      rw [encoding_flatMap] at hlength ⊢
      rw [mergeLevels_flatMap hlength fun c hmem m hshort ↦
        mergeLevels_children hpos hle hfield htype hrepeated
          (hchild t' c (hvalues c hmem) _) hshort]
      rw [foldl_put fun slot c ↦ .children (slot.childValues ++ [S.merged n t' (S.initial t') c]),
        foldl_snoc_map (fun _ ↦ rfl)]

end Records

/-! ## All fields -/

section Fields

variable {T : Type} {S S' : Schema T} {t : T}

theorem field_of_isPart (hpart : S.IsPart S') {f : Field T} (hf : f ∈ S'.fields t) :
    S.field t f.number = none ∨ S.field t f.number = some f := by
  cases hfield : S.field t f.number with
  | none => exact .inl rfl
  | some g =>
      obtain ⟨hg, hnumber⟩ := Schema.field_eq_some hfield
      have hsame := List.inj_on_of_nodup_map (S'.distinct t) ((hpart t).subset hg) hf hnumber.symm
      exact .inr (congrArg some hsame)

theorem field_mono (hpart : S.IsPart S') {number : ℕ} {f : Field T}
    (h : S.field t number = some f) : S'.field t number = some f := by
  obtain ⟨hf, rfl⟩ := Schema.field_eq_some h
  exact Schema.field_of_mem ((hpart t).subset hf)

theorem put_slot_self (m : Message) (number : ℕ) (slot : Slot Message) :
    (S.put t m number slot).slot number =
      match S.field t number with
      | some _ => slot
      | none => m.slot number := by
  cases hfield : S.field t number with
  | none => rw [put_of_none hfield]
  | some f => rw [put_of_some hfield, Message.slot_set, Function.update_self]

theorem put_slot_of_ne {number other : ℕ} (h : other ≠ number) (m : Message)
    (slot : Slot Message) : (S.put t m number slot).slot other = m.slot other := by
  cases hfield : S.field t number with
  | none => rw [put_of_none hfield]
  | some f => rw [put_of_some hfield, Message.slot_set, Function.update_of_ne h]

/-- Every slot is put once at most, since the numbers are distinct. -/
theorem foldl_put_slot {g : Field T → Slot Message → Slot Message} {fields : List (Field T)}
    (hdistinct : (fields.map Field.number).Nodup) (m : Message) (number : ℕ) :
    (fields.foldl (fun m f ↦ S.put t m f.number (g f (m.slot f.number))) m).slot number =
      match fields.find? fun f ↦ number == f.number with
      | some f => (S.put t m number (g f (m.slot number))).slot number
      | none => m.slot number := by
  induction fields generalizing m with
  | nil => rfl
  | cons f fields ih =>
      rw [List.map_cons, List.nodup_cons] at hdistinct
      rw [List.foldl_cons, ih hdistinct.2, List.find?_cons]
      by_cases hnumber : number = f.number
      · subst hnumber
        have hnone : fields.find? (fun g ↦ f.number == g.number) = none := by
          refine List.find?_eq_none.mpr fun g hg hsame ↦ hdistinct.1 ?_
          exact List.mem_map.mpr ⟨g, hg, (beq_iff_eq.mp hsame).symm⟩
        rw [hnone, beq_self_eq_true]
      · rw [beq_false_of_ne hnumber]
        dsimp only
        cases fields.find? fun f ↦ number == f.number with
        | none => exact put_slot_of_ne hnumber m _
        | some g => simp only [put_slot_self, put_slot_of_ne hnumber]

theorem foldl_fields (hpart : S.IsPart S') (n : ℕ) (t : T) (old new : Message) :
    (S'.fields t).foldl (fun m f ↦ S.put t m f.number
      (f.mergedSlot S.initial (S.merged n) (m.slot f.number) (new.slot f.number))) old =
        S.merged (n + 1) t old new := by
  refine Message.ext fun number ↦ ?_
  rw [foldl_put_slot
    (g := fun f slot ↦ f.mergedSlot S.initial (S.merged n) slot (new.slot f.number))
    (S'.distinct t) old number, Schema.merged, Message.slot_mk]
  cases hfield : S.field t number with
  | none =>
      split
      · rw [put_of_none hfield]
      · rfl
  | some f =>
      have hfind : (S'.fields t).find? (fun f ↦ number == f.number) = some f :=
        field_mono hpart hfield
      rw [hfind]
      dsimp only
      rw [put_of_some hfield, Message.slot_set, Function.update_self, (Schema.field_eq_some hfield).2]

/-- Merging what was written gives the merged message, by induction on the levels. -/
theorem Schema.mergeLevels_wireBytes (hpart : S.IsPart S') {n : ℕ} {t : T} {new : Message}
    (hnew : S'.Valid n t new) (old : Message) (hlength : (S'.wireBytes n t new).length ≤ limit) :
    S.mergeLevels n t old (S'.wireBytes n t new) = (S.merged n t old new, 0) := by
  induction n generalizing t new old with
  | zero => exact hnew.elim
  | succ n ih =>
      rw [wireBytes, encoding_flatMap] at hlength ⊢
      rw [mergeLevels_flatMap hlength fun f hf m hshort ↦
        mergeLevels_field (S'.number_pos t f hf) (S'.number_le t f hf) (field_of_isPart hpart hf)
          (fun t new hnew old hlength ↦ ih hnew old hlength) (hnew.1 f hf) hshort,
        foldl_fields hpart]

end Fields

end TinyCPlus.Protobuf
