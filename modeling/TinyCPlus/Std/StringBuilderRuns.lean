import TinyCPlus.Std.MapInvariant
import TinyCPlus.Std.StringBuilder

/-!
# A string builder spells what was appended

Between two calls the buffer holds the text appended since the last `clear`,
and a NUL behind it as soon as a byte was ever appended.
-/

namespace TinyCPlus.Std

namespace StringBuilder

variable {realloc : ℕ → Bool} {b : StringBuilder} {s : List UInt8}

/-! ## The invariant -/

/-- The buffer holds a text. -/
structure Holds (b : StringBuilder) (s : List UInt8) : Prop where
  length_eq : b.length = s.length
  capacity_eq : b.capacity = b.data.length
  small : b.capacity < 2 ^ 64
  bytes : b.data.take b.length = s.map some

/-- The text is followed by a NUL within the buffer. -/
def Terminated (b : StringBuilder) : Prop :=
  b.length + 1 ≤ b.capacity ∧ b.data[b.length]? = some (some 0)

theorem holds_create : Holds create [] := ⟨rfl, rfl, by norm_num [create], rfl⟩

namespace Holds

theorem view_eq (h : Holds b s) : b.view = s.map some := by
  rw [view]
  split
  · rename_i hzero
    have hnil : s = [] := List.length_eq_zero_iff.mp (h.length_eq ▸ hzero)
    rw [hnil, List.map_nil]
  · exact h.bytes

theorem length_le (h : Holds b s) : b.length ≤ b.data.length := by
  have hlength := congrArg List.length h.bytes
  rw [List.length_take, List.length_map, ← h.length_eq] at hlength
  omega

/-! ## The steps of a call -/

/-- Reserved room is there, behind the text and the NUL that were there. -/
theorem reserve (h : Holds b s) (hrealloc : ∀ n, realloc n = true) (extra : ℕ)
    (hextra : s.length + extra < 2 ^ 64 - 1) :
    ∃ b', b.reserve realloc extra = .ok b' ∧ Holds b' s ∧
      s.length + extra + 1 ≤ b'.capacity ∧ (Terminated b → Terminated b') := by
  have hlength := h.length_eq
  have hcapacity := h.capacity_eq
  have hsmall := h.small
  have hrequired : u64 (u64 (b.length + extra) + 1) = s.length + extra + 1 := by
    rw [u64_of_lt (n := b.length + extra) (by omega), u64_of_lt (by omega), hlength]
  rw [StringBuilder.reserve, if_pos (by omega), hrequired]
  dsimp only
  by_cases hroom : s.length + extra + 1 ≤ b.capacity
  · rw [if_pos hroom]
    exact ⟨b, rfl, h, hroom, id⟩
  · rw [if_neg hroom]
    have hgrown : (if u64 (b.capacity * 2) < 64 then 64 else u64 (b.capacity * 2)) <
        2 ^ 64 := by
      have hdouble : u64 (b.capacity * 2) < 2 ^ 64 := Nat.mod_lt _ (by norm_num)
      split <;> omega
    generalize (if u64 (b.capacity * 2) < 64 then 64 else u64 (b.capacity * 2)) =
      grown at hgrown ⊢
    obtain ⟨next, hnext, hge, hlt⟩ : ∃ next,
        (if grown < s.length + extra + 1 then s.length + extra + 1 else grown) = next ∧
          s.length + extra + 1 ≤ next ∧ next < 2 ^ 64 := by
      refine ⟨_, rfl, ?_⟩
      split <;> omega
    rw [hnext]
    rw [if_pos (hrealloc next)]
    -- The old block fits into the new one, so every byte of it is kept.
    have hdata : reallocated b.data next =
        b.data ++ List.replicate (next - b.data.length) none := by
      rw [reallocated, List.take_of_length_le (by omega)]
    refine ⟨_, rfl, ⟨hlength, ?_, hlt, ?_⟩, hge, ?_⟩
    · rw [hdata, List.length_append, List.length_replicate]
      dsimp only
      omega
    · rw [hdata]
      dsimp only
      rw [List.take_append_of_le_length h.length_le]
      exact h.bytes
    · rintro ⟨hfits, hnul⟩
      refine ⟨by dsimp only; omega, ?_⟩
      dsimp only
      rw [hdata, List.getElem?_append_left (by omega)]
      exact hnul

theorem push (h : Holds b s) (hroom : s.length < b.capacity) (value : UInt8) :
    ∃ b', b.push value = .ok b' ∧ Holds b' (s ++ [value]) ∧ b'.capacity = b.capacity := by
  have hlength := h.length_eq
  have hcapacity := h.capacity_eq
  have hsmall := h.small
  have hnext : u64 (b.length + 1) = b.length + 1 := u64_of_lt (by omega)
  refine ⟨{ b with data := b.data.set b.length (some value), length := b.length + 1 },
    ?_, ⟨?_, ?_, hsmall, ?_⟩, rfl⟩
  · rw [StringBuilder.push, store, if_pos (by omega)]
    simp only [bind, Except.bind, hnext]
  · rw [List.length_append, List.length_singleton]
    dsimp only
    omega
  · rw [List.length_set]
    exact hcapacity
  · dsimp only
    rw [List.take_add_one, List.take_set_of_le (le_refl _), h.bytes,
      List.getElem?_set_self (by omega), List.map_append]
    rfl

theorem terminate (h : Holds b s) (hroom : s.length < b.capacity) :
    ∃ b', b.terminate = .ok b' ∧ Holds b' s ∧ Terminated b' := by
  have hlength := h.length_eq
  have hcapacity := h.capacity_eq
  refine ⟨{ b with data := b.data.set b.length (some 0) }, ?_, ⟨hlength, ?_, h.small, ?_⟩,
    ?_, ?_⟩
  · rw [StringBuilder.terminate, store, if_pos (by omega)]
  · rw [List.length_set]
    exact hcapacity
  · dsimp only
    rw [List.take_set_of_le (le_refl _)]
    exact h.bytes
  · dsimp only
    omega
  · dsimp only
    rw [List.getElem?_set_self (by omega)]

/-- The copied text stands behind the old one. -/
theorem bytesCopy (h : Holds b s) {text : List UInt8}
    (hroom : s.length + text.length + 1 ≤ b.capacity) :
    ∃ b', b.bytesCopy text = .ok b' ∧
      Holds { b' with length := u64 (b'.length + text.length) } (s ++ text) ∧
      b'.capacity = b.capacity := by
  have hlength := h.length_eq
  have hcapacity := h.capacity_eq
  have hsmall := h.small
  refine ⟨{ b with
      data := b.data.take b.length ++ text.map some ++ b.data.drop (b.length + text.length) },
    ?_, ⟨?_, ?_, hsmall, ?_⟩, rfl⟩
  · rw [StringBuilder.bytesCopy, if_pos (by omega)]
  · dsimp only
    rw [u64_of_lt (by omega), List.length_append, hlength]
  · dsimp only
    rw [List.length_append, List.length_append, List.length_take, List.length_map,
      List.length_drop]
    omega
  · dsimp only
    have hfull : (b.data.take b.length ++ text.map some).length =
        b.length + text.length := by
      rw [List.length_append, List.length_take, List.length_map]
      omega
    rw [u64_of_lt (by omega), ← hfull, List.take_left, h.bytes, List.map_append]

end Holds

/-! ## The digit loops -/

/-- The loop leaves the digits of the value in the cells from `count` on, the
last one first. -/
theorem digitsLoop_spec {base : ℕ} (hbase : 1 < base) {digit : ℕ → UInt8}
    (hdigit : ∀ d < base, digit d = UInt8.ofNat (Nat.digitChar d).toNat)
    (turns value : ℕ) (digits : List UInt8) (count : ℕ)
    (hroom : count + (Nat.toDigits base value).length ≤ digits.length)
    (hturns : (Nat.toDigits base value).length ≤ turns) :
    ∃ digits', digitsLoop base digit turns value digits count =
        .ok (digits', count + (Nat.toDigits base value).length) ∧
      digits'.take (count + (Nat.toDigits base value).length) =
        digits.take count ++ (ascii (Nat.toDigits base value)).reverse := by
  induction turns generalizing value digits count with
  | zero =>
      have hpos := Nat.length_toDigits_pos (b := base) (n := value)
      omega
  | succ turns ih =>
      have hpos := Nat.length_toDigits_pos (b := base) (n := value)
      rw [digitsLoop, if_pos (by omega), hdigit _ (Nat.mod_lt _ (by omega))]
      dsimp only
      have hset : (digits.set count (UInt8.ofNat (Nat.digitChar (value % base)).toNat)).take
          (count + 1) = digits.take count ++
            [UInt8.ofNat (Nat.digitChar (value % base)).toNat] := by
        rw [List.take_add_one, List.take_set_of_le (le_refl _),
          List.getElem?_set_self (by omega)]
        rfl
      by_cases hlast : value / base = 0
      · have hlt : value < base := (Nat.div_eq_zero_iff_lt (by omega)).mp hlast
        rw [if_pos hlast, Nat.toDigits_of_lt_base hlt]
        refine ⟨_, rfl, ?_⟩
        rw [List.length_singleton, hset, Nat.mod_eq_of_lt hlt]
        rfl
      · have hge : base ≤ value := by
          by_contra hlt
          exact hlast (Nat.div_eq_of_lt (not_le.mp hlt))
        have hdigits := Nat.toDigits_of_base_le hbase hge
        have hlength : (Nat.toDigits base value).length =
            (Nat.toDigits base (value / base)).length + 1 := by
          rw [hdigits, List.length_append, List.length_singleton]
        rw [if_neg hlast, hlength]
        obtain ⟨digits', hloop, htake⟩ := ih (value / base)
          (digits.set count (UInt8.ofNat (Nat.digitChar (value % base)).toNat)) (count + 1)
          (by rw [List.length_set]; omega) (by omega)
        have hcount : count + ((Nat.toDigits base (value / base)).length + 1) =
            count + 1 + (Nat.toDigits base (value / base)).length := by omega
        rw [hcount]
        refine ⟨digits', hloop, ?_⟩
        rw [htake, hset, hdigits, ascii, ascii, List.map_append, List.reverse_append,
          List.append_assoc]
        rfl

/-- The copying loop appends the first `count` digits in reverse. -/
theorem Holds.copyLoop (h : Holds b s) {digits : List UInt8} {count : ℕ}
    (hcount : count ≤ digits.length) (hroom : s.length + count + 1 ≤ b.capacity) :
    ∃ b', StringBuilder.copyLoop digits count b = .ok b' ∧
      Holds b' (s ++ (digits.take count).reverse) ∧ b'.capacity = b.capacity := by
  induction count generalizing b s with
  | zero =>
      refine ⟨b, rfl, ?_, rfl⟩
      rw [List.take_zero, List.reverse_nil, List.append_nil]
      exact h
  | succ count ih =>
      have hget : digits[count]? = some digits[count] := List.getElem?_eq_getElem (by omega)
      obtain ⟨b₁, hpush, hb₁, hcap₁⟩ := h.push (by omega) digits[count]
      obtain ⟨b', hcopy, hb', hcap'⟩ := ih hb₁ (by omega)
        (by rw [List.length_append, List.length_singleton, hcap₁]; omega)
      refine ⟨b', ?_, ?_, hcap'.trans hcap₁⟩
      · rw [StringBuilder.copyLoop, hget]
        simp only [bind, Except.bind, hpush, hcopy]
      · rw [List.take_add_one, hget, List.reverse_append]
        rw [List.append_assoc] at hb'
        exact hb'

/-! ## The calls -/

theorem Holds.append (h : Holds b s) (hrealloc : ∀ n, realloc n = true) {text : List UInt8}
    (htext : s.length + text.length < 2 ^ 64 - 1) :
    ∃ b', b.append realloc text = .ok b' ∧ Holds b' (s ++ text) ∧
      (text ≠ [] ∨ Terminated b → Terminated b') := by
  rw [StringBuilder.append]
  by_cases hnil : text.length = 0
  · obtain rfl := List.length_eq_zero_iff.mp hnil
    rw [if_pos hnil, List.append_nil]
    exact ⟨b, rfl, h, fun hb ↦ hb.resolve_left (fun hne ↦ hne rfl)⟩
  · rw [if_neg hnil]
    obtain ⟨b₁, hreserve, hb₁, hroom, -⟩ := h.reserve hrealloc text.length htext
    obtain ⟨b₂, hcopy, hb₂, hcap⟩ := hb₁.bytesCopy hroom
    obtain ⟨b', hnul, hb', hterminated⟩ := hb₂.terminate
      (by rw [List.length_append, hcap]; omega)
    refine ⟨b', ?_, hb', fun _ ↦ hterminated⟩
    simp only [bind, Except.bind, hreserve, hcopy, hnul]

theorem Holds.appendChar (h : Holds b s) (hrealloc : ∀ n, realloc n = true) (value : UInt8)
    (hlength : s.length + 1 < 2 ^ 64 - 1) :
    ∃ b', b.appendChar realloc value = .ok b' ∧ Holds b' (s ++ [value]) ∧
      Terminated b' := by
  obtain ⟨b₁, hreserve, hb₁, hroom, -⟩ := h.reserve hrealloc 1 hlength
  obtain ⟨b₂, hpush, hb₂, hcap⟩ := hb₁.push (by omega) value
  obtain ⟨b', hnul, hb', hterminated⟩ := hb₂.terminate
    (by rw [List.length_append, List.length_singleton, hcap]; omega)
  refine ⟨b', ?_, hb', hterminated⟩
  simp only [StringBuilder.appendChar, bind, Except.bind, hreserve, hpush, hnul]

theorem Holds.appendDigits (h : Holds b s) (hrealloc : ∀ n, realloc n = true)
    {base size : ℕ} (hbase : 1 < base) {digit : ℕ → UInt8}
    (hdigit : ∀ d < base, digit d = UInt8.ofNat (Nat.digitChar d).toNat)
    (hsize : 0 < size) (hpow : 2 ^ 64 ≤ base ^ size) (value : UInt64)
    (hlength : s.length + size < 2 ^ 64 - 1) :
    ∃ b', b.appendDigits base size digit realloc value = .ok b' ∧
      Holds b' (s ++ ascii (Nat.toDigits base value.toNat)) ∧ Terminated b' := by
  have hfits : (Nat.toDigits base value.toNat).length ≤ size :=
    (Nat.length_toDigits_le_iff hbase hsize).mpr (value.toNat_lt.trans_le hpow)
  obtain ⟨digits, hloop, htake⟩ := digitsLoop_spec hbase hdigit (size + 1)
    value.toNat (List.replicate size 0) 0
    (by rw [List.length_replicate]; omega) (by omega)
  rw [Nat.zero_add] at hloop htake
  have hdigits : (Nat.toDigits base value.toNat).length ≤ digits.length := by
    have hle := congrArg List.length htake
    rw [List.length_take, List.take_zero, List.nil_append, List.length_reverse, ascii,
      List.length_map] at hle
    omega
  obtain ⟨b₁, hreserve, hb₁, hroom, -⟩ := h.reserve hrealloc
    (Nat.toDigits base value.toNat).length (by omega)
  obtain ⟨b₂, hcopy, hb₂, hcap⟩ := hb₁.copyLoop hdigits hroom
  rw [htake, List.take_zero, List.nil_append, List.reverse_reverse] at hb₂
  obtain ⟨b', hnul, hb', hterminated⟩ := hb₂.terminate
    (by rw [List.length_append, ascii, List.length_map, hcap]; omega)
  refine ⟨b', ?_, hb', hterminated⟩
  simp only [StringBuilder.appendDigits, bind, Except.bind, hloop, hreserve, hcopy, hnul]

theorem Holds.appendUnsigned (h : Holds b s) (hrealloc : ∀ n, realloc n = true)
    (value : UInt64) (hlength : s.length + 20 < 2 ^ 64 - 1) :
    ∃ b', b.appendUnsigned realloc value = .ok b' ∧
      Holds b' (s ++ ascii (Nat.toDigits 10 value.toNat)) ∧ Terminated b' :=
  h.appendDigits hrealloc (by norm_num) (by decide) (by norm_num) (by norm_num) value hlength

theorem Holds.appendHex (h : Holds b s) (hrealloc : ∀ n, realloc n = true)
    (value : UInt64) (hlength : s.length + 16 < 2 ^ 64 - 1) :
    ∃ b', b.appendHex realloc value = .ok b' ∧
      Holds b' (s ++ ascii (Nat.toDigits 16 value.toNat)) ∧ Terminated b' :=
  h.appendDigits hrealloc (by norm_num) (by decide) (by norm_num) (by norm_num) value hlength

/-- An `i64` and the `u64` with its bits. -/
theorem toInt_cases (value : Int64) :
    (0 ≤ value.toInt ∧ value.toInt = value.toUInt64.toNat) ∨
      (value.toInt < 0 ∧ value.toInt = (value.toUInt64.toNat : ℤ) - 2 ^ 64 ∧
        2 ^ 63 ≤ value.toUInt64.toNat) := by
  have hbits : value.toInt = value.toUInt64.toBitVec.toInt := rfl
  have hnat : value.toUInt64.toBitVec.toNat = value.toUInt64.toNat := rfl
  have hlt := value.toUInt64.toNat_lt
  rw [hbits, BitVec.toInt_eq_toNat_cond, hnat]
  split <;> omega

/-- The sign and the digits of the magnitude are the decimal of an `i64`. -/
theorem spelling_appendInt (value : Int64) :
    (BuilderOp.appendInt value).spelling =
      if value < 0 then 45 :: ascii (Nat.toDigits 10 (0 - value.toUInt64).toNat)
      else ascii (Nat.toDigits 10 value.toUInt64.toNat) := by
  have hlt := value.toUInt64.toNat_lt
  have hsign : value < 0 ↔ value.toInt < 0 := by
    rw [Int64.lt_iff_toInt_lt]
    rfl
  rw [BuilderOp.spelling]
  rcases toInt_cases value with ⟨hpos, hvalue⟩ | ⟨hneg, hvalue, hge⟩
  · rw [if_neg (by rw [hsign]; omega), hvalue]
    exact congrArg ascii Nat.toList_repr
  · rw [if_pos (hsign.mpr hneg)]
    obtain ⟨n, hn⟩ := Int.eq_negSucc_of_lt_zero hneg
    have hmagnitude : (0 - value.toUInt64).toNat = n + 1 := by
      rw [UInt64.toNat_sub, UInt64.toNat_zero]
      omega
    have htext : toString value.toInt = "-" ++ Nat.repr (n + 1) := by
      rw [hn]
      rfl
    rw [hmagnitude, htext, String.toList_append, Nat.toList_repr]
    rfl

theorem Holds.appendInt (h : Holds b s) (hrealloc : ∀ n, realloc n = true)
    (value : Int64) (hlength : s.length + 21 < 2 ^ 64 - 1) :
    ∃ b', b.appendInt realloc value = .ok b' ∧
      Holds b' (s ++ (BuilderOp.appendInt value).spelling) ∧ Terminated b' := by
  rw [StringBuilder.appendInt, spelling_appendInt]
  by_cases hneg : value < 0
  · rw [if_pos hneg, if_pos hneg]
    obtain ⟨b₁, hminus, hb₁, -⟩ := h.appendChar hrealloc 45 (by omega)
    obtain ⟨b', hdigits, hb', hterminated⟩ := hb₁.appendUnsigned hrealloc
      (0 - value.toUInt64) (by rw [List.length_append, List.length_singleton]; omega)
    refine ⟨b', ?_, ?_, hterminated⟩
    · simp only [bind, Except.bind, hminus, hdigits]
    · rw [List.append_assoc] at hb'
      exact hb'
  · rw [if_neg hneg, if_neg hneg]
    exact h.appendUnsigned hrealloc value.toUInt64 (by omega)

theorem Holds.clear (h : Holds b s) :
    ∃ b', b.clear = .ok b' ∧ Holds b' [] ∧ (Terminated b → Terminated b') := by
  have hempty : Holds { b with length := 0 } [] := ⟨rfl, h.capacity_eq, h.small, rfl⟩
  rw [StringBuilder.clear]
  dsimp only
  by_cases hpos : 0 < b.capacity
  · rw [if_pos hpos]
    obtain ⟨b', hnul, hb', hterminated⟩ := hempty.terminate hpos
    exact ⟨b', hnul, hb', fun _ ↦ hterminated⟩
  · rw [if_neg hpos]
    refine ⟨_, rfl, hempty, ?_⟩
    rintro ⟨hfits, -⟩
    omega

/-! ## Runs -/

/-- One call appends what it spells, or clears the text. -/
theorem Holds.apply (h : Holds b s) (hrealloc : ∀ n, realloc n = true) (op : BuilderOp)
    (hlength : s.length + op.spelling.length < 2 ^ 63)
    (hextra : ∀ extra, op = .reserve extra → extra.toNat < 2 ^ 63) :
    ∃ b', b.apply realloc op = .ok b' ∧ Holds b' (op.update s) ∧
      (op.spelling ≠ [] ∨ Terminated b → Terminated b') := by
  cases op with
  | append text => exact h.append hrealloc (by rw [BuilderOp.spelling] at hlength; omega)
  | appendChar value =>
      obtain ⟨b', happend, hb', hterminated⟩ := h.appendChar hrealloc value
        (by omega)
      exact ⟨b', happend, hb', fun _ ↦ hterminated⟩
  | appendUnsigned value =>
      obtain ⟨b', happend, hb', hterminated⟩ := h.appendUnsigned hrealloc value (by omega)
      exact ⟨b', happend, hb', fun _ ↦ hterminated⟩
  | appendInt value =>
      obtain ⟨b', happend, hb', hterminated⟩ := h.appendInt hrealloc value (by omega)
      exact ⟨b', happend, hb', fun _ ↦ hterminated⟩
  | appendHex value =>
      obtain ⟨b', happend, hb', hterminated⟩ := h.appendHex hrealloc value (by omega)
      exact ⟨b', happend, hb', fun _ ↦ hterminated⟩
  | reserve extra =>
      obtain ⟨b', hreserve, hb', -, hterminated⟩ := h.reserve hrealloc extra.toNat
        (by have hlt := hextra extra rfl; omega)
      refine ⟨b', hreserve, ?_, ?_⟩
      · change Holds b' (s ++ [])
        rw [List.append_nil]
        exact hb'
      · rintro (hne | hb)
        · exact absurd rfl hne
        · exact hterminated hb
  | clear =>
      obtain ⟨b', hclear, hb', hterminated⟩ := h.clear
      refine ⟨b', hclear, hb', ?_⟩
      rintro (hne | hb)
      · exact absurd rfl hne
      · exact hterminated hb

/-- A run on an allocator that gives everything appends what its calls spell. -/
theorem Holds.run (h : Holds b s) (hrealloc : ∀ n, realloc n = true) (ops : List BuilderOp)
    (hlength : s.length + (ops.map fun op ↦ op.spelling.length).sum < 2 ^ 63)
    (hextra : ∀ extra, .reserve extra ∈ ops → extra.toNat < 2 ^ 63) :
    ∃ b', b.run realloc ops = .ok b' ∧ Holds b' (ops.foldl BuilderOp.update s) ∧
      ((∃ op ∈ ops, op.spelling ≠ []) ∨ Terminated b → Terminated b') := by
  induction ops generalizing b s with
  | nil =>
      refine ⟨b, rfl, h, ?_⟩
      rintro (⟨op, hop, -⟩ | hb)
      · exact absurd hop List.not_mem_nil
      · exact hb
  | cons op ops ih =>
      rw [List.map_cons, List.sum_cons] at hlength
      obtain ⟨b₁, happly, hb₁, hterminated₁⟩ := h.apply hrealloc op (by omega)
        fun extra hop ↦ hextra extra (hop ▸ List.mem_cons_self)
      have hupdate : (op.update s).length ≤ s.length + op.spelling.length := by
        cases op with
        | clear => exact Nat.zero_le _
        | append _ | appendChar _ | appendUnsigned _ | appendInt _ | appendHex _ | reserve _ =>
            exact List.length_append.le
      obtain ⟨b', hrun, hb', hterminated⟩ := ih hb₁ (by omega)
        fun extra hop ↦ hextra extra (List.mem_cons_of_mem _ hop)
      refine ⟨b', ?_, hb', ?_⟩
      · rw [StringBuilder.run, List.foldlM_cons, happly]
        exact hrun
      · rintro (⟨op', hop', hne⟩ | hb)
        · rcases List.mem_cons.mp hop' with rfl | hop'
          · exact hterminated (Or.inr (hterminated₁ (Or.inl hne)))
          · exact hterminated (Or.inl ⟨op', hop', hne⟩)
        · exact hterminated (Or.inr (hterminated₁ (Or.inr hb)))

/-! ## Allocators that can fail -/

/-- A computation does what another does, or an allocation failed. -/
def UnlessAllocation {α : Type} (x y : Except BuilderFailure α) : Prop :=
  x = .error .allocation ∨ x = y

namespace UnlessAllocation

variable {α β : Type}

theorem refl (x : Except BuilderFailure α) : UnlessAllocation x x := Or.inr rfl

theorem bind {x y : Except BuilderFailure α} {f g : α → Except BuilderFailure β}
    (h : UnlessAllocation x y) (hfg : ∀ a, UnlessAllocation (f a) (g a)) :
    UnlessAllocation (x >>= f) (y >>= g) := by
  rcases h with rfl | rfl
  · exact Or.inl rfl
  · cases x with
    | error e => exact Or.inr rfl
    | ok a => exact hfg a

end UnlessAllocation

/-- The allocator that gives everything. -/
def generous : ℕ → Bool := fun _ ↦ true

theorem ite_unless {α : Type} (n : ℕ) (x : Except BuilderFailure α) :
    UnlessAllocation (if realloc n = true then x else .error .allocation)
      (if generous n = true then x else .error .allocation) := by
  by_cases hn : realloc n = true
  · rw [if_pos hn, if_pos (c := generous n = true) rfl]
    exact .refl _
  · rw [if_neg hn]
    exact Or.inl rfl

theorem reserve_unless (realloc : ℕ → Bool) (b : StringBuilder) (extra : ℕ) :
    UnlessAllocation (b.reserve realloc extra) (b.reserve generous extra) := by
  rw [StringBuilder.reserve, StringBuilder.reserve]
  split
  · dsimp only
    split
    · exact .refl _
    · exact ite_unless _ _
  · exact .refl _

theorem appendDigits_unless (base size : ℕ) (digit : ℕ → UInt8) (realloc : ℕ → Bool)
    (b : StringBuilder) (value : UInt64) :
    UnlessAllocation (b.appendDigits base size digit realloc value)
      (b.appendDigits base size digit generous value) :=
  (UnlessAllocation.refl _).bind fun _ ↦
    (reserve_unless realloc b _).bind fun _ ↦ .refl _

theorem appendChar_unless (realloc : ℕ → Bool) (b : StringBuilder) (value : UInt8) :
    UnlessAllocation (b.appendChar realloc value) (b.appendChar generous value) :=
  (reserve_unless realloc b 1).bind fun _ ↦ .refl _

theorem apply_unless (realloc : ℕ → Bool) (b : StringBuilder) (op : BuilderOp) :
    UnlessAllocation (b.apply realloc op) (b.apply generous op) := by
  cases op with
  | append text =>
      rw [apply, apply, append, append]
      split
      · exact .refl _
      · exact (reserve_unless realloc b text.length).bind fun _ ↦ .refl _
  | appendChar value => exact appendChar_unless realloc b value
  | appendUnsigned value => exact appendDigits_unless _ _ _ realloc b value
  | appendInt value =>
      rw [apply, apply, appendInt, appendInt]
      split
      · exact (appendChar_unless realloc b 45).bind fun b ↦
          appendDigits_unless _ _ _ realloc b _
      · exact appendDigits_unless _ _ _ realloc b _
  | appendHex value => exact appendDigits_unless _ _ _ realloc b value
  | reserve extra => exact reserve_unless realloc b extra.toNat
  | clear => exact .refl _

theorem run_unless (realloc : ℕ → Bool) (b : StringBuilder) (ops : List BuilderOp) :
    UnlessAllocation (b.run realloc ops) (b.run generous ops) := by
  induction ops generalizing b with
  | nil => exact .refl _
  | cons op ops ih =>
      rw [run, run, List.foldlM_cons, List.foldlM_cons]
      exact (apply_unless realloc b op).bind ih

/-- Every run on a new builder whose allocations succeed ends inside its
buffers with the text its calls spell, and with a NUL behind it once a byte was
appended. -/
theorem builder_spells (realloc : ℕ → Bool) (ops : List BuilderOp)
    (halloc : create.run realloc ops ≠ .error .allocation)
    (hlength : (ops.map fun op ↦ op.spelling.length).sum < 2 ^ 63)
    (hextra : ∀ extra, .reserve extra ∈ ops → extra.toNat < 2 ^ 63) :
    ∃ b, create.run realloc ops = .ok b ∧ b.view = (BuilderOp.spelled ops).map some ∧
      ((∃ op ∈ ops, op.spelling ≠ []) →
        b.length + 1 ≤ b.capacity ∧ b.data[b.length]? = some (some 0)) := by
  have hrun := (run_unless realloc create ops).resolve_left halloc
  obtain ⟨b, hb, hholds, hterminated⟩ := Holds.run holds_create (fun _ ↦ rfl : ∀ n, generous n = true) ops
    (by rw [List.length_nil]; omega) hextra
  exact ⟨b, hrun.trans hb, hholds.view_eq, fun hop ↦ hterminated (Or.inl hop)⟩

/-- The least `i64` behind a text that was cleared. -/
theorem builder_spells_minimum :
    let ops : List BuilderOp :=
      [.append [120], .clear, .appendInt Int64.minValue, .reserve 100, .appendHex 255]
    ∃ b, create.run (· < 1000) ops = .ok b ∧ b.view = (BuilderOp.spelled ops).map some ∧
      ((∃ op ∈ ops, op.spelling ≠ []) →
        b.length + 1 ≤ b.capacity ∧ b.data[b.length]? = some (some 0)) :=
  builder_spells (· < 1000)
    [.append [120], .clear, .appendInt Int64.minValue, .reserve 100, .appendHex 255]
    (by decide +kernel) (by decide +kernel) (by simp)

/-- An empty text appended to a new builder allocates nothing. -/
theorem not_forall_terminated :
    ¬ ∀ (ops : List BuilderOp) (text : List UInt8),
      ∃ b, create.run (· < 1000) (ops ++ [.append text]) = .ok b ∧
        b.length + 1 ≤ b.capacity ∧ b.data[b.length]? = some (some 0) := by
  intro h
  obtain ⟨b, hrun, hfits, -⟩ := h [] []
  obtain rfl : create = b := Except.ok.inj hrun
  exact absurd hfits (by decide)

end StringBuilder

end TinyCPlus.Std
