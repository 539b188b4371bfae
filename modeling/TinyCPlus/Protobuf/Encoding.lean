import TinyCPlus.Protobuf.Message
import TinyCPlus.Protobuf.Records

/-!
# What `encode` writes

The bytes of a message are those of the calls for its fields.  `encode` returns
them for every message of the schema unless they pass the limit.
-/

namespace TinyCPlus.Protobuf

/-! ## Messages of a schema -/

/-- A slot holds what its field says; strings satisfy `text`, and messages `child`. -/
inductive Field.Shaped {T : Type} (text : List Byte → Prop) (child : T → Message → Prop)
    (f : Field T) : Slot Message → Prop where
  | number {k : NumberType} {has : Bool} {value : U64} (htype : f.type = .number k)
      (hrepeated : f.repeated = false) (hhas : has = true → f.optional = true)
      (hvalue : value.toNat < 2 ^ k.bits) : f.Shaped text child (.number has value)
  | numbers {k : NumberType} {values : List U64} (htype : f.type = .number k)
      (hrepeated : f.repeated = true) (hvalues : ∀ value ∈ values, value.toNat < 2 ^ k.bits) :
      f.Shaped text child (.numbers values)
  | text {has : Bool} {value : List Byte} (htype : f.type = .string ∨ f.type = .bytes)
      (hrepeated : f.repeated = false) (hhas : has = true → f.optional = true)
      (hvalue : f.type.isString = true → text value) : f.Shaped text child (.text has value)
  | texts {values : List (List Byte)} (htype : f.type = .string ∨ f.type = .bytes)
      (hrepeated : f.repeated = true)
      (hvalues : ∀ value ∈ values, f.type.isString = true → text value) :
      f.Shaped text child (.texts values)
  | child {t : T} {value : Option Message} (htype : f.type = .message t)
      (hrepeated : f.repeated = false) (hvalue : ∀ m ∈ value, child t m) :
      f.Shaped text child (.child value)
  | children {t : T} {values : List Message} (htype : f.type = .message t)
      (hrepeated : f.repeated = true) (hvalues : ∀ m ∈ values, child t m) :
      f.Shaped text child (.children values)

namespace Schema

variable {T : Type} (S : Schema T)

/-- The messages of a type with at most `n` levels. -/
def Shape (text : List Byte → Prop) : ℕ → T → Message → Prop
  | 0, _, _ => False
  | n + 1, t, m =>
      (∀ f ∈ S.fields t, f.Shaped text (Shape text n) (m.slot f.number)) ∧
        ∀ number, S.field t number = none → m.slot number = .absent

/-- The messages that `encode` can write. -/
abbrev Valid (n : ℕ) (t : T) (m : Message) : Prop := S.Shape (validUtf8 · = true) n t m

end Schema

/-! ## The calls for a message -/

/-- The call for a number. -/
def numberCall (k : NumberType) (value : U64) : Call :=
  match k.wire with
  | 0 => .number (k.toWire value)
  | 1 => .fixed64 (k.toWire value)
  | _ => .fixed32 (k.toWire value)

theorem writeNumber_eq (k : NumberType) (w : TcPbWriter) (value : U64) :
    writeNumber k w value = (numberCall k value).run w := by
  cases k <;> rfl

section Calls

variable {T : Type} (childBytes : T → Message → List Byte)

def numberCalls (f : Field T) (k : NumberType) (value : U64) : List Call :=
  [.tag f.number k.wire, numberCall k value]

def textCalls (f : Field T) (value : List Byte) : List Call := [.tag f.number 2, .bytes value]

def packedCalls (f : Field T) (k : NumberType) (values : List U64) : List Call :=
  if values.length = 0 then [] else textCalls f (encoding (values.map (numberCall k)))

def fieldCalls (f : Field T) (slot : Slot Message) : List Call :=
  match f.type with
  | .number k =>
      if f.repeated then
        if f.packed then packedCalls f k slot.numberValues
        else slot.numberValues.flatMap (numberCalls f k)
      else if (if f.optional then slot.has else !k.isZero slot.numberValue) then
        numberCalls f k slot.numberValue
      else []
  | .string | .bytes =>
      if f.repeated then slot.textValues.flatMap (textCalls f)
      else if (if f.optional then slot.has else decide (0 < slot.textValue.length)) then
        textCalls f slot.textValue
      else []
  | .message t =>
      if f.repeated then slot.childValues.flatMap fun m ↦ textCalls f (childBytes t m)
      else
        match slot.childValue with
        | some m => textCalls f (childBytes t m)
        | none => []

end Calls

/-- The encoding of a message with at most `n` levels, of whatever length. -/
def Schema.wireBytes {T : Type} (S : Schema T) : ℕ → T → Message → List Byte
  | 0, _, _ => []
  | n + 1, t, m =>
      encoding ((S.fields t).flatMap fun f ↦ fieldCalls (wireBytes S n) f (m.slot f.number))

/-! ## Writing them -/

@[simp] theorem encoding_nil : encoding [] = [] := rfl

theorem encoding_append (cs cs' : List Call) :
    encoding (cs ++ cs') = encoding cs ++ encoding cs' :=
  List.flatMap_append

theorem encoding_cons (c : Call) (cs : List Call) :
    encoding (c :: cs) = c.encoding ++ encoding cs :=
  rfl

/-- A writer with these bytes, or the error that there are too many. -/
def Writes (result : Except ℕ TcPbWriter) (bytes : List Byte) : Prop :=
  match result with
  | .ok w => w.Holds bytes
  | .error e => e = 8 ∧ limit < bytes.length

@[simp] theorem writes_ok (w : TcPbWriter) (bytes : List Byte) :
    Writes (.ok w) bytes ↔ w.Holds bytes :=
  Iff.rfl

/-- What `encode` returns for these bytes. -/
def encoded (bytes : List Byte) : List Byte × ℕ :=
  if bytes.length ≤ limit then (bytes, 0) else ([], 8)

theorem writes_foldlM {α : Type} {step : TcPbWriter → α → Except ℕ TcPbWriter}
    {out : α → List Byte} {xs : List α}
    (hstep : ∀ x ∈ xs, ∀ w bytes, w.Holds bytes → Writes (step w x) (bytes ++ out x))
    {w : TcPbWriter} {bytes : List Byte} (hw : w.Holds bytes) :
    Writes (xs.foldlM step w) (bytes ++ xs.flatMap out) := by
  induction xs generalizing w bytes with
  | nil =>
      rw [List.flatMap_nil, List.append_nil]
      exact hw
  | cons x xs ih =>
      have hfirst := hstep x List.mem_cons_self w bytes hw
      rw [List.foldlM_cons, List.flatMap_cons, ← List.append_assoc]
      cases hresult : step w x with
      | error e =>
          rw [hresult] at hfirst
          refine ⟨hfirst.1, hfirst.2.trans_le ?_⟩
          simp only [List.length_append]
          exact Nat.le_add_right _ _
      | ok w' =>
          rw [hresult] at hfirst
          exact ih (fun y hy ↦ hstep y (List.mem_cons_of_mem x hy)) hfirst

section Write

variable {T : Type} {f : Field T} {w : TcPbWriter} {bytes : List Byte}

theorem writes_ite {result : Except ℕ TcPbWriter} {cs : List Call} {c : Prop} [Decidable c]
    (hw : w.Holds bytes) (hresult : Writes result (bytes ++ encoding cs)) :
    Writes (if c then result else .ok w) (bytes ++ encoding (if c then cs else [])) := by
  by_cases hc : c
  · rwa [if_pos hc, if_pos hc]
  · rw [if_neg hc, if_neg hc, encoding_nil, List.append_nil]
    exact hw

theorem writes_text {value : List Byte}
    (hvalue : f.type.isString = true → validUtf8 value = true) (hw : w.Holds bytes) :
    Writes (writeText f w value) (bytes ++ encoding (textCalls f value)) := by
  have hok : ¬ (f.type.isString = true ∧ validUtf8 value = false) := by
    rintro ⟨hstring, hbad⟩
    rw [hvalue hstring] at hbad
    cases hbad
  rw [writeText, if_neg hok]
  exact hw.run (textCalls f value)

theorem writes_message {encodeChild : T → Message → List Byte × ℕ} {t : T} {m : Message}
    {child : List Byte} (hchild : encodeChild t m = encoded child) (hw : w.Holds bytes) :
    Writes (writeMessage encodeChild f t w m) (bytes ++ encoding (textCalls f child)) := by
  rw [writeMessage]
  dsimp only
  rw [hchild, encoded]
  split
  · exact hw.run (textCalls f child)
  · rename_i hlong
    refine ⟨rfl, (Nat.not_le.mp hlong).trans_le ?_⟩
    simp only [textCalls, encoding_cons, Call.encoding, List.length_append]
    omega

theorem writes_packed {k : NumberType} (values : List U64) (hw : w.Holds bytes) :
    Writes (writePacked f k w values) (bytes ++ encoding (packedCalls f k values)) := by
  rw [writePacked, packedCalls]
  split
  · rw [encoding_nil, List.append_nil]
    exact hw
  · have hrun : values.foldl (writeNumber k) TcPbWriter.create =
        (values.map (numberCall k)).foldl Call.run TcPbWriter.create := by
      rw [List.foldl_map]
      exact congrArg (fun g ↦ values.foldl g TcPbWriter.create)
        (funext₂ fun w value ↦ writeNumber_eq k w value)
    have hpacked := TcPbWriter.holds_create.run (values.map (numberCall k))
    rw [List.nil_append] at hpacked
    dsimp only
    rw [hrun, hpacked.take]
    split
    · rename_i herror
      rw [hpacked.error_eq] at herror ⊢
      split at herror
      · exact absurd rfl herror
      · rename_i hlong
        rw [if_neg hlong]
        refine ⟨rfl, (Nat.not_le.mp hlong).trans_le ?_⟩
        simp only [textCalls, encoding_cons, Call.encoding, List.length_append]
        omega
    · rename_i hok
      rw [not_not, hpacked.error_eq] at hok
      split at hok
      · rename_i hle
        rw [if_pos hle]
        exact hw.run (textCalls f _)
      · cases hok

theorem writes_numbers {k : NumberType} (values : List U64) (hw : w.Holds bytes) :
    (values.foldl (fun w value ↦ writeNumber k (w.tag f.number k.wire) value) w).Holds
      (bytes ++ encoding (values.flatMap (numberCalls f k))) := by
  induction values generalizing w bytes with
  | nil => simpa using hw
  | cons value values ih =>
      rw [List.foldl_cons, List.flatMap_cons, encoding_append, ← List.append_assoc,
        writeNumber_eq]
      exact ih (hw.run (numberCalls f k value))

theorem encoding_flatMap {α : Type} (g : α → List Call) (xs : List α) :
    encoding (xs.flatMap g) = xs.flatMap fun x ↦ encoding (g x) :=
  List.flatMap_assoc

/-- The calls for a field. -/
theorem writes_field {encodeChild : T → Message → List Byte × ℕ}
    {childBytes : T → Message → List Byte} {child : T → Message → Prop} {slot : Slot Message}
    (hchild : ∀ t m, child t m → encodeChild t m = encoded (childBytes t m))
    (hslot : f.Shaped (validUtf8 · = true) child slot) (hw : w.Holds bytes) :
    Writes (encodeField encodeChild f slot w)
      (bytes ++ encoding (fieldCalls childBytes f slot)) := by
  rw [encodeField.eq_def, fieldCalls.eq_def]
  cases hslot with
  | @number k has value htype hrepeated hhas hvalue =>
      rw [htype]
      simp only [hrepeated, Bool.false_eq_true, if_false, writeNumber_eq]
      exact writes_ite hw (hw.run (numberCalls f k value))
  | @numbers k values htype hrepeated hvalues =>
      rw [htype]
      dsimp only
      simp only [hrepeated, if_true]
      split
      · exact writes_packed values hw
      · exact writes_numbers values hw
  | @text has value htype hrepeated hhas hvalue =>
      rcases htype with htype | htype <;>
      · rw [htype]
        simp only [hrepeated, Bool.false_eq_true, if_false]
        exact writes_ite hw (writes_text hvalue hw)
  | @texts values htype hrepeated hvalues =>
      have hwrite : Writes (values.foldlM (writeText f) w)
          (bytes ++ values.flatMap fun value ↦ encoding (textCalls f value)) := by
        refine writes_foldlM ?_ hw
        intro value hmem w bytes hw
        exact writes_text (hvalues value hmem) hw
      rw [← encoding_flatMap] at hwrite
      rcases htype with htype | htype <;>
      · rw [htype]
        dsimp only
        simp only [hrepeated, if_true]
        exact hwrite
  | @child t value htype hrepeated hvalue =>
      rw [htype]
      dsimp only
      simp only [hrepeated, Bool.false_eq_true, if_false]
      cases value with
      | none =>
          dsimp only [Slot.childValue]
          rw [encoding_nil, List.append_nil]
          exact hw
      | some m => exact writes_message (hchild t m (hvalue m rfl)) hw
  | @children t values htype hrepeated hvalues =>
      have hwrite : Writes (values.foldlM (writeMessage encodeChild f t) w)
          (bytes ++ values.flatMap fun m ↦ encoding (textCalls f (childBytes t m))) := by
        refine writes_foldlM ?_ hw
        intro m hmem w bytes hw
        exact writes_message (hchild t m (hvalues m hmem)) hw
      rw [← encoding_flatMap] at hwrite
      rw [htype]
      dsimp only
      simp only [hrepeated, if_true]
      exact hwrite

end Write

/-- `encode` returns the bytes of the message unless they pass the limit. -/
theorem Schema.encodeLevels_eq {T : Type} {S : Schema T} {n : ℕ} {t : T} {m : Message}
    (hm : S.Valid n t m) : S.encodeLevels n t m = encoded (S.wireBytes n t m) := by
  induction n generalizing t m with
  | zero => exact hm.elim
  | succ n ih =>
      have hwrites : Writes
          ((S.fields t).foldlM
            (fun w f ↦ encodeField (S.encodeLevels n) f (m.slot f.number) w) TcPbWriter.create)
          ([] ++ (S.fields t).flatMap fun f ↦
            encoding (fieldCalls (S.wireBytes n) f (m.slot f.number))) := by
        refine writes_foldlM ?_ TcPbWriter.holds_create
        intro f hf w bytes hw
        exact writes_field (fun t m hm ↦ ih hm) (hm.1 f hf) hw
      rw [List.nil_append, ← encoding_flatMap] at hwrites
      rw [encodeLevels, wireBytes]
      cases hresult : (S.fields t).foldlM
          (fun w f ↦ encodeField (S.encodeLevels n) f (m.slot f.number) w) TcPbWriter.create with
      | error e =>
          rw [hresult] at hwrites
          rw [encoded, if_neg (Nat.not_le.mpr hwrites.2), hwrites.1]
      | ok w =>
          rw [hresult, writes_ok] at hwrites
          dsimp only
          rw [hwrites.take, TcPbWriter.take, hwrites.error_eq, encoded]
          split
          · rw [if_neg (not_not.mpr rfl)]
            rfl
          · rename_i hlong
            rw [if_pos (Nat.succ_ne_zero 7), Option.getD_none, hwrites.error_eq, if_neg hlong]

end TinyCPlus.Protobuf
