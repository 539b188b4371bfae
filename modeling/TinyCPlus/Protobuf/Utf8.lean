import TinyCPlus.Tui.Terminal

/-!
# The three UTF-8 routines

The validator of `protobuf.c` stands beside the encoder and the decoder of `tui.c`.  All three are
compared with one relation: the encoding of a scalar value starts at a position.
-/

namespace TinyCPlus.Protobuf

open TinyCPlus.Tui TinyCPlus.Tui.Terminal

/-! ## The validator -/

/-- The number of continuation bytes and the bits of the leading byte. -/
def validLead (byte : ℕ) : Option (ℕ × ℕ) :=
  if 0xc2 ≤ byte ∧ byte ≤ 0xdf then some (1, byte &&& 31)
  else if 0xe0 ≤ byte ∧ byte ≤ 0xef then some (2, byte &&& 15)
  else if 0xf0 ≤ byte ∧ byte ≤ 0xf4 then some (3, byte &&& 7)
  else none

/-- `while (p < text.length)`, where `p` moves up at every turn. -/
def validLoop (text : List UInt8) : ℕ → ℕ → Bool
  | 0, _ => true
  | fuel + 1, p =>
      if p < text.length then
        let byte := (text.getD p 0).toNat
        let p := p + 1
        if byte < 128 then validLoop text fuel p
        else
          match validLead byte with
          | none => false
          | some (count, value) =>
              if text.length - p < count then false
              else
                match utf8Continue text count p value with
                | none => false
                | some value =>
                    if (count = 2 ∧ value < 2048) ∨ (count = 3 ∧ value < 65536) ∨
                        0x10ffff < value ∨ (0xd800 ≤ value ∧ value ≤ 0xdfff) then false
                    else validLoop text fuel (p + count)
      else true

/-- `tc_pb_valid_utf8` -/
def pbValidUtf8 (text : List UInt8) : Bool := validLoop text text.length 0

/-- `tc_utf8_decode` again and again from `p` on, with the position where it stops. -/
def decodeAll (text : List UInt8) : ℕ → ℕ → List ℕ × ℕ
  | 0, p => ([], p)
  | fuel + 1, p =>
      if p < text.length then
        let (cps, q) := decodeAll text fuel (utf8Decode text p).2
        ((utf8Decode text p).1 :: cps, q)
      else ([], p)

/-! ## Scalar values -/

/-- A Unicode scalar value. -/
def IsScalar (cp : ℕ) : Prop := cp ≤ 0x10ffff ∧ ¬(0xd800 ≤ cp ∧ cp ≤ 0xdfff)

/-- The encoding of `cp` starts at `p`. -/
def Starts (s : List UInt8) (p cp : ℕ) : Prop := IsScalar cp ∧ utf8Encode cp <+: s.drop p

theorem utf8Valid_of_isScalar {cp : ℕ} (h : IsScalar cp) : utf8Valid cp = cp := by
  rw [utf8Valid, if_neg]
  rintro (hmax | hsurrogate)
  · exact absurd h.1 (not_le.mpr hmax)
  · exact h.2 hsurrogate

/-! ### Bytes -/

theorem continuation_iff (b : UInt8) :
    b &&& 0xc0 = 0x80 ↔ ∃ k < 64, b = Terminal.continuation k := by
  have hall : ∀ n < 256, UInt8.ofNat n &&& 0xc0 = 0x80 →
      UInt8.ofNat n = UInt8.ofNat (0x80 ||| (n % 64 &&& 63)) := by decide +kernel
  constructor
  · intro h
    have hb := hall b.toNat b.toNat_lt
    rw [UInt8.ofNat_toNat] at hb
    exact ⟨b.toNat % 64, Nat.mod_lt _ (by decide), hb h⟩
  · rintro ⟨k, -, rfl⟩
    exact (continuation_bits k).1

/-- One turn of the loop over the continuation bytes. -/
theorem utf8Continue_succ {s : List UInt8} {n p cp v : ℕ} :
    utf8Continue s (n + 1) p cp = some v ↔
      ∃ k < 64, s.getD p 0 = Terminal.continuation k ∧
        utf8Continue s n (p + 1) (64 * cp + k) = some v := by
  simp only [utf8Continue]
  constructor
  · intro h
    split_ifs at h with hb
    push Not at hb
    obtain ⟨k, hk, hb⟩ := (continuation_iff _).mp hb
    have hbits := (continuation_bits k).2
    rw [hb, hbits, shift_or, Nat.mod_eq_of_lt hk] at h
    exact ⟨k, hk, hb, h⟩
  · rintro ⟨k, hk, hb, h⟩
    obtain ⟨hmark, hbits⟩ := continuation_bits k
    rw [hb, if_neg (not_not.mpr hmark), hbits, shift_or, Nat.mod_eq_of_lt hk]
    exact h

theorem utf8Lead_cases {first bits n : ℕ} (hlt : first < 256)
    (h : utf8Lead first = some (bits, n)) :
    (n = 1 ∧ 2 ≤ bits ∧ bits < 32 ∧ first = 0xc0 ||| bits) ∨
    (n = 2 ∧ bits < 16 ∧ first = 0xe0 ||| bits) ∨ (n = 3 ∧ bits < 5 ∧ first = 0xf0 ||| bits) := by
  have htwo : ∀ f < 256, 0xc2 ≤ f ∧ f ≤ 0xdf →
      2 ≤ f &&& 31 ∧ f &&& 31 < 32 ∧ f = 0xc0 ||| (f &&& 31) := by decide +kernel
  have hthree : ∀ f < 256, 0xe0 ≤ f ∧ f ≤ 0xef → f &&& 15 < 16 ∧ f = 0xe0 ||| (f &&& 15) := by
    decide +kernel
  have hfour : ∀ f < 256, 0xf0 ≤ f ∧ f ≤ 0xf4 → f &&& 7 < 5 ∧ f = 0xf0 ||| (f &&& 7) := by
    decide +kernel
  unfold utf8Lead at h
  split_ifs at h with h2 h3 h4
  · obtain ⟨rfl, rfl⟩ := Prod.mk.inj (Option.some.inj h)
    exact Or.inl ⟨rfl, htwo first hlt h2⟩
  · obtain ⟨rfl, rfl⟩ := Prod.mk.inj (Option.some.inj h)
    exact Or.inr (Or.inl ⟨rfl, hthree first hlt h3⟩)
  · obtain ⟨rfl, rfl⟩ := Prod.mk.inj (Option.some.inj h)
    exact Or.inr (Or.inr ⟨rfl, hfour first hlt h4⟩)

theorem utf8Lead_two : ∀ x < 32, 2 ≤ x →
    utf8Lead (UInt8.ofNat (0xc0 ||| x)).toNat = some (x, 1) := by decide

theorem utf8Lead_three : ∀ x < 16,
    utf8Lead (UInt8.ofNat (0xe0 ||| x)).toNat = some (x, 2) := by decide

theorem utf8Lead_four : ∀ x < 5,
    utf8Lead (UInt8.ofNat (0xf0 ||| x)).toNat = some (x, 3) := by decide

/-- The bytes at a position, one by one. -/
theorem cons_isPrefix_drop {s l : List UInt8} {p : ℕ} {b : UInt8} :
    b :: l <+: s.drop p ↔ p < s.length ∧ s.getD p 0 = b ∧ l <+: s.drop (p + 1) := by
  by_cases hp : p < s.length
  · rw [List.drop_eq_getElem_cons hp, List.cons_prefix_cons, List.getD_eq_getElem _ _ hp]
    simp [hp, eq_comm]
  · rw [List.drop_eq_nil_of_le (not_lt.mp hp)]
    simp [hp]

/-! ### Encodings by length -/

theorem continuation_mod (n : ℕ) : Terminal.continuation n = Terminal.continuation (n % 64) := by
  rw [Terminal.continuation, Terminal.continuation, Nat.and_two_pow_sub_one_eq_mod n 6,
    Nat.and_two_pow_sub_one_eq_mod (n % 64) 6]
  simp

theorem utf8Encode_one {cp : ℕ} (h : cp < 128) : utf8Encode cp = [UInt8.ofNat cp] := by
  have hscalar : IsScalar cp := ⟨by omega, by omega⟩
  simp only [utf8Encode, utf8Valid_of_isScalar hscalar, if_pos h]

theorem utf8Encode_two {x k : ℕ} (hx : 2 ≤ x) (hx' : x < 32) (hk : k < 64) :
    utf8Encode (64 * x + k) = [UInt8.ofNat (0xc0 ||| x), Terminal.continuation k] := by
  have hscalar : IsScalar (64 * x + k) := ⟨by omega, by omega⟩
  have hhigh : (64 * x + k) >>> 6 = x := by
    rw [Nat.shiftRight_eq_div_pow]
    omega
  have hlow : Terminal.continuation (64 * x + k) = Terminal.continuation k := by
    rw [continuation_mod]
    congr 1
    omega
  simp only [utf8Encode, utf8Valid_of_isScalar hscalar]
  rw [if_neg (by omega), if_pos (by omega), hhigh]
  exact congrArg (fun b ↦ [UInt8.ofNat (0xc0 ||| x), b]) hlow

theorem utf8Encode_three {x j k : ℕ} (hj : j < 64) (hk : k < 64)
    (hge : 2048 ≤ 64 * (64 * x + j) + k) (hlt : 64 * (64 * x + j) + k < 65536)
    (hscalar : IsScalar (64 * (64 * x + j) + k)) :
    utf8Encode (64 * (64 * x + j) + k) =
      [UInt8.ofNat (0xe0 ||| x), Terminal.continuation j, Terminal.continuation k] := by
  have hhigh : (64 * (64 * x + j) + k) >>> 12 = x := by
    rw [Nat.shiftRight_eq_div_pow]
    omega
  have hmid : Terminal.continuation ((64 * (64 * x + j) + k) >>> 6) = Terminal.continuation j := by
    rw [continuation_mod, Nat.shiftRight_eq_div_pow]
    congr 1
    omega
  have hlow : Terminal.continuation (64 * (64 * x + j) + k) = Terminal.continuation k := by
    rw [continuation_mod]
    congr 1
    omega
  simp only [utf8Encode, utf8Valid_of_isScalar hscalar]
  rw [if_neg (by omega), if_neg (by omega), if_pos hlt, hhigh]
  exact congrArg₂ (fun b c ↦ [UInt8.ofNat (0xe0 ||| x), b, c]) hmid hlow

theorem utf8Encode_four {x i j k : ℕ} (hi : i < 64) (hj : j < 64) (hk : k < 64)
    (hge : 65536 ≤ 64 * (64 * (64 * x + i) + j) + k)
    (hscalar : IsScalar (64 * (64 * (64 * x + i) + j) + k)) :
    utf8Encode (64 * (64 * (64 * x + i) + j) + k) =
      [UInt8.ofNat (0xf0 ||| x), Terminal.continuation i, Terminal.continuation j,
        Terminal.continuation k] := by
  have hhigh : (64 * (64 * (64 * x + i) + j) + k) >>> 18 = x := by
    rw [Nat.shiftRight_eq_div_pow]
    omega
  have hfirst : Terminal.continuation ((64 * (64 * (64 * x + i) + j) + k) >>> 12) =
      Terminal.continuation i := by
    rw [continuation_mod, Nat.shiftRight_eq_div_pow]
    congr 1
    omega
  have hmid : Terminal.continuation ((64 * (64 * (64 * x + i) + j) + k) >>> 6) =
      Terminal.continuation j := by
    rw [continuation_mod, Nat.shiftRight_eq_div_pow]
    congr 1
    omega
  have hlow : Terminal.continuation (64 * (64 * (64 * x + i) + j) + k) =
      Terminal.continuation k := by
    rw [continuation_mod]
    congr 1
    omega
  simp only [utf8Encode, utf8Valid_of_isScalar hscalar]
  rw [if_neg (by omega), if_neg (by omega), if_neg (by omega), hhigh]
  refine congrArg (UInt8.ofNat (0xf0 ||| x) :: ·) ?_
  exact congrArg₂ List.cons hfirst (congrArg₂ (fun b c ↦ [b, c]) hmid hlow)

/-- A code point is one byte below 128, or a leading byte with its continuation bytes. -/
theorem utf8Encode_cases {cp : ℕ} (h : IsScalar cp) :
    (cp < 128 ∧ utf8Encode cp = [UInt8.ofNat cp]) ∨
      (128 ≤ cp ∧ ∃ (lead : UInt8) (ks : List ℕ),
        utf8Encode cp = lead :: ks.map Terminal.continuation ∧ 192 ≤ lead.toNat) := by
  have htwo : ∀ x < 32, 192 ≤ (UInt8.ofNat (0xc0 ||| x)).toNat := by decide
  have hthree : ∀ x < 16, 192 ≤ (UInt8.ofNat (0xe0 ||| x)).toNat := by decide
  have hfour : ∀ x < 5, 192 ≤ (UInt8.ofNat (0xf0 ||| x)).toNat := by decide
  have hmax := h.1
  simp only [utf8Encode, utf8Valid_of_isScalar h]
  split_ifs with h1 h2 h3
  · exact Or.inl ⟨h1, rfl⟩
  · refine Or.inr ⟨not_lt.mp h1, _, [cp], rfl, htwo _ ?_⟩
    rw [Nat.shiftRight_eq_div_pow]
    omega
  · refine Or.inr ⟨not_lt.mp h1, _, [cp >>> 6, cp], rfl, hthree _ ?_⟩
    rw [Nat.shiftRight_eq_div_pow]
    omega
  · refine Or.inr ⟨not_lt.mp h1, _, [cp >>> 12, cp >>> 6, cp], rfl, hfour _ ?_⟩
    rw [Nat.shiftRight_eq_div_pow]
    omega

/-! ## What all three read -/

/-- The scalar value at a position, and the position behind it. -/
def scalarAt (s : List UInt8) (p : ℕ) : Option (ℕ × ℕ) :=
  let first := (s.getD p 0).toNat
  if first < 128 then some (first, p + 1)
  else
    match utf8Lead first with
    | none => none
    | some (bits, n) =>
        if s.length < p + 1 + n then none
        else
          match utf8Continue s n (p + 1) bits with
          | none => none
          | some cp =>
              if (n = 2 ∧ cp < 2048) ∨ (n = 3 ∧ cp < 65536) ∨ 0x10ffff < cp ∨
                  (0xd800 ≤ cp ∧ cp ≤ 0xdfff) then none
              else some (cp, p + 1 + n)

theorem utf8Continue_one {s : List UInt8} {p bits v : ℕ} (h : utf8Continue s 1 p bits = some v) :
    64 * bits ≤ v := by
  obtain ⟨k, -, -, h⟩ := utf8Continue_succ.mp h
  have hv : 64 * bits + k = v := Option.some.inj h
  omega

theorem utf8Decode_eq {s : List UInt8} {p : ℕ} (hp : p < s.length) :
    utf8Decode s p = (scalarAt s p).getD (0xfffd, p + 1) := by
  rw [utf8Decode, if_neg (not_le.mpr hp), scalarAt]
  dsimp only
  split
  · rfl
  cases hlead : utf8Lead (s.getD p 0).toNat with
  | none => rfl
  | some lead =>
    obtain ⟨bits, n⟩ := lead
    dsimp only
    split
    · rfl
    cases hcp : utf8Continue s n (p + 1) bits with
    | none => rfl
    | some cp =>
      dsimp only
      have hshort : ¬(n = 1 ∧ cp < 128) := by
        rintro ⟨rfl, hlt⟩
        have hge := utf8Continue_one hcp
        have hlead' := utf8Lead_cases (s.getD p 0).toNat_lt hlead
        omega
      by_cases hbad : (n = 2 ∧ cp < 2048) ∨ (n = 3 ∧ cp < 65536) ∨ 0x10ffff < cp ∨
          (0xd800 ≤ cp ∧ cp ≤ 0xdfff)
      · rw [if_pos (Or.inr hbad), if_pos hbad]
        rfl
      · rw [if_neg (not_or.mpr ⟨hshort, hbad⟩), if_neg hbad]
        rfl

theorem validLead_eq (byte : ℕ) : validLead byte = (utf8Lead byte).map Prod.swap := by
  unfold validLead utf8Lead
  split_ifs <;> rfl

theorem validLoop_succ {s : List UInt8} {p : ℕ} (hp : p < s.length) (fuel : ℕ) :
    validLoop s (fuel + 1) p =
      match scalarAt s p with
      | none => false
      | some (_, q) => validLoop s fuel q := by
  rw [validLoop, if_pos hp, scalarAt]
  dsimp only
  split
  · rfl
  rw [validLead_eq]
  cases hlead : utf8Lead (s.getD p 0).toNat with
  | none => rfl
  | some lead =>
    obtain ⟨bits, n⟩ := lead
    dsimp only [Option.map_some, Prod.swap]
    by_cases hlen : s.length < p + 1 + n
    · rw [if_pos hlen, if_pos (by omega)]
    rw [if_neg hlen, if_neg (by omega)]
    cases hcp : utf8Continue s n (p + 1) bits with
    | none => rfl
    | some cp =>
      dsimp only
      split_ifs <;> rfl

theorem getD_eq_ofNat {s : List UInt8} {p n : ℕ} (h : (s.getD p 0).toNat = n) :
    s.getD p 0 = UInt8.ofNat n := by
  rw [← h, UInt8.ofNat_toNat]

theorem starts_of_scalarAt {s : List UInt8} {p cp q : ℕ} (hp : p < s.length)
    (h : scalarAt s p = some (cp, q)) : Starts s p cp ∧ q = p + (utf8Encode cp).length := by
  simp only [scalarAt] at h
  split at h
  · rename_i hascii
    obtain ⟨rfl, rfl⟩ := Prod.mk.inj (Option.some.inj h)
    refine ⟨⟨⟨by omega, by omega⟩, ?_⟩, by rw [utf8Encode_one hascii]; rfl⟩
    rw [utf8Encode_one hascii, cons_isPrefix_drop]
    exact ⟨hp, getD_eq_ofNat rfl, List.nil_prefix⟩
  split at h
  · cases h
  rename_i bits n hlead
  split_ifs at h with hlen
  split at h
  · cases h
  rename_i v hcp
  split_ifs at h with hbad
  obtain ⟨rfl, rfl⟩ := Prod.mk.inj (Option.some.inj h)
  simp only [not_or] at hbad
  obtain ⟨hshort, hlong, hmax, hsurrogate⟩ := hbad
  have hscalar : IsScalar v := ⟨not_lt.mp hmax, hsurrogate⟩
  rcases utf8Lead_cases (s.getD p 0).toNat_lt hlead with
    ⟨rfl, hx, hx', hfirst⟩ | ⟨rfl, hx, hfirst⟩ | ⟨rfl, hx, hfirst⟩
  · obtain ⟨k, hk, hb, hv⟩ := utf8Continue_succ.mp hcp
    obtain rfl : 64 * bits + k = v := Option.some.inj hv
    rw [Starts, utf8Encode_two hx hx' hk, cons_isPrefix_drop, cons_isPrefix_drop]
    exact ⟨⟨hscalar, hp, getD_eq_ofNat hfirst, by omega, hb, List.nil_prefix⟩, rfl⟩
  · obtain ⟨j, hj, hb, hv⟩ := utf8Continue_succ.mp hcp
    obtain ⟨k, hk, hc, hv⟩ := utf8Continue_succ.mp hv
    obtain rfl : 64 * (64 * bits + j) + k = v := Option.some.inj hv
    have hge : 2048 ≤ 64 * (64 * bits + j) + k := not_lt.mp fun hlt ↦ hshort ⟨rfl, hlt⟩
    rw [Starts, utf8Encode_three hj hk hge (by omega) hscalar, cons_isPrefix_drop,
      cons_isPrefix_drop, cons_isPrefix_drop]
    exact ⟨⟨hscalar, hp, getD_eq_ofNat hfirst, by omega, hb, by omega, hc, List.nil_prefix⟩, rfl⟩
  · obtain ⟨i, hi, ha, hv⟩ := utf8Continue_succ.mp hcp
    obtain ⟨j, hj, hb, hv⟩ := utf8Continue_succ.mp hv
    obtain ⟨k, hk, hc, hv⟩ := utf8Continue_succ.mp hv
    obtain rfl : 64 * (64 * (64 * bits + i) + j) + k = v := Option.some.inj hv
    have hge : 65536 ≤ 64 * (64 * (64 * bits + i) + j) + k :=
      not_lt.mp fun hlt ↦ hlong ⟨rfl, hlt⟩
    rw [Starts, utf8Encode_four hi hj hk hge hscalar, cons_isPrefix_drop, cons_isPrefix_drop,
      cons_isPrefix_drop, cons_isPrefix_drop]
    exact ⟨⟨hscalar, hp, getD_eq_ofNat hfirst, by omega, ha, by omega, hb, by omega, hc,
      List.nil_prefix⟩, rfl⟩

/-- The value behind a leading byte whose continuation bytes are there. -/
theorem scalarAt_of_lead {s : List UInt8} {p bits n cp : ℕ}
    (hlead : utf8Lead (s.getD p 0).toNat = some (bits, n)) (hlen : p + 1 + n ≤ s.length)
    (hcp : utf8Continue s n (p + 1) bits = some cp) (hshort : n = 2 → 2048 ≤ cp)
    (hlong : n = 3 → 65536 ≤ cp) (hscalar : IsScalar cp) :
    scalarAt s p = some (cp, p + 1 + n) := by
  have hascii : ¬(s.getD p 0).toNat < 128 := by
    intro hascii
    have h : utf8Lead (s.getD p 0).toNat = none := by
      unfold utf8Lead
      rw [if_neg (by omega), if_neg (by omega), if_neg (by omega)]
    rw [h] at hlead
    cases hlead
  simp only [scalarAt, if_neg hascii, hlead, if_neg (not_lt.mpr hlen), hcp]
  rw [if_neg]
  rintro (⟨hn, h⟩ | ⟨hn, h⟩ | h | h)
  · exact absurd (hshort hn) (not_le.mpr h)
  · exact absurd (hlong hn) (not_le.mpr h)
  · exact absurd hscalar.1 (not_le.mpr h)
  · exact hscalar.2 h

theorem scalarAt_of_starts {s : List UInt8} {p cp : ℕ} (h : Starts s p cp) :
    scalarAt s p = some (cp, p + (utf8Encode cp).length) := by
  obtain ⟨hscalar, hfront⟩ := h
  by_cases h1 : cp < 128
  · rw [utf8Encode_one h1, cons_isPrefix_drop] at hfront
    have hfirst : (s.getD p 0).toNat = cp := by
      rw [hfront.2.1, UInt8.toNat_ofNat', Nat.mod_eq_of_lt (by omega)]
    rw [utf8Encode_one h1]
    simp only [scalarAt, hfirst, if_pos h1]
    rfl
  by_cases h2 : cp < 2048
  · obtain ⟨x, k, hx, hx', hk, rfl⟩ : ∃ x k, 2 ≤ x ∧ x < 32 ∧ k < 64 ∧ cp = 64 * x + k :=
      ⟨cp / 64, cp % 64, by omega, by omega, by omega, by omega⟩
    rw [utf8Encode_two hx hx' hk, cons_isPrefix_drop, cons_isPrefix_drop] at hfront
    obtain ⟨hp, hfirst, hp1, hb, -⟩ := hfront
    rw [utf8Encode_two hx hx' hk]
    exact scalarAt_of_lead (hfirst ▸ utf8Lead_two x hx' hx) (by omega)
      (utf8Continue_succ.mpr ⟨k, hk, hb, rfl⟩) (fun h ↦ by omega) (fun h ↦ by omega) hscalar
  by_cases h3 : cp < 65536
  · obtain ⟨x, j, k, hx, hj, hk, rfl⟩ :
        ∃ x j k, x < 16 ∧ j < 64 ∧ k < 64 ∧ cp = 64 * (64 * x + j) + k :=
      ⟨cp / 4096, cp / 64 % 64, cp % 64, by omega, by omega, by omega, by omega⟩
    have henc := utf8Encode_three hj hk (by omega) h3 hscalar
    rw [henc, cons_isPrefix_drop, cons_isPrefix_drop, cons_isPrefix_drop] at hfront
    obtain ⟨hp, hfirst, hp1, hb, hp2, hc, -⟩ := hfront
    rw [henc]
    exact scalarAt_of_lead (hfirst ▸ utf8Lead_three x hx) (by omega)
      (utf8Continue_succ.mpr ⟨j, hj, hb, utf8Continue_succ.mpr ⟨k, hk, hc, rfl⟩⟩)
      (fun _ ↦ by omega) (fun h ↦ by omega) hscalar
  · have hmax := hscalar.1
    obtain ⟨x, i, j, k, hx, hi, hj, hk, rfl⟩ : ∃ x i j k, x < 5 ∧ i < 64 ∧ j < 64 ∧ k < 64 ∧
        cp = 64 * (64 * (64 * x + i) + j) + k :=
      ⟨cp / 262144, cp / 4096 % 64, cp / 64 % 64, cp % 64, by omega, by omega, by omega,
        by omega, by omega⟩
    have henc := utf8Encode_four hi hj hk (not_lt.mp h3) hscalar
    rw [henc, cons_isPrefix_drop, cons_isPrefix_drop, cons_isPrefix_drop, cons_isPrefix_drop]
      at hfront
    obtain ⟨hp, hfirst, hp1, ha, hp2, hb, hp3, hc, -⟩ := hfront
    rw [henc]
    exact scalarAt_of_lead (hfirst ▸ utf8Lead_four x hx) (by omega)
      (utf8Continue_succ.mpr ⟨i, hi, ha, utf8Continue_succ.mpr ⟨j, hj, hb,
        utf8Continue_succ.mpr ⟨k, hk, hc, rfl⟩⟩⟩)
      (fun h ↦ by omega) (fun _ ↦ by omega) hscalar

/-! ## The routines agree -/

theorem utf8Encode_ne_nil (cp : ℕ) : utf8Encode cp ≠ [] := by
  rw [utf8Encode]
  dsimp only
  split_ifs <;> exact List.cons_ne_nil _ _

theorem Starts.le {s : List UInt8} {p cp : ℕ} (h : Starts s p cp) :
    p + (utf8Encode cp).length ≤ s.length := by
  have hlen := h.2.length_le
  have hpos := List.length_pos_iff.mpr (utf8Encode_ne_nil cp)
  rw [List.length_drop] at hlen
  omega

theorem Starts.decode {s : List UInt8} {p cp : ℕ} (h : Starts s p cp) :
    utf8Decode s p = (cp, p + (utf8Encode cp).length) := by
  have hpos := List.length_pos_iff.mpr (utf8Encode_ne_nil cp)
  have hle := h.le
  rw [utf8Decode_eq (by omega), scalarAt_of_starts h]
  rfl

theorem utf8Decode_of_not_starts {s : List UInt8} {p : ℕ} (hp : p < s.length)
    (h : ∀ cp, ¬Starts s p cp) : utf8Decode s p = (0xfffd, p + 1) := by
  rw [utf8Decode_eq hp]
  cases hat : scalarAt s p with
  | none => rfl
  | some r => exact absurd (starts_of_scalarAt hp hat).1 (h r.1)

theorem utf8Decode_le {s : List UInt8} {p : ℕ} (hp : p < s.length) :
    (utf8Decode s p).2 ≤ s.length := by
  by_cases h : ∃ cp, Starts s p cp
  · obtain ⟨cp, h⟩ := h
    rw [h.decode]
    exact h.le
  · rw [utf8Decode_of_not_starts hp (not_exists.mp h)]
    exact hp

theorem Starts.drop {s : List UInt8} {p cp : ℕ} (h : Starts s p cp) :
    s.drop p = utf8Encode cp ++ s.drop (p + (utf8Encode cp).length) := by
  have happend := List.prefix_iff_eq_append.mp h.2
  rw [List.drop_drop] at happend
  exact happend.symm

/-- A text that starts with an encoding. -/
theorem Starts.of_cons {s : List UInt8} {p cp : ℕ} {cps : List ℕ}
    (hscalars : ∀ c ∈ cp :: cps, IsScalar c)
    (h : s.drop p = (cp :: cps).flatMap utf8Encode) :
    Starts s p cp ∧ s.drop (p + (utf8Encode cp).length) = cps.flatMap utf8Encode := by
  rw [List.flatMap_cons] at h
  have hstarts : Starts s p cp := ⟨hscalars cp List.mem_cons_self, ⟨_, h.symm⟩⟩
  rw [hstarts.drop] at h
  exact ⟨hstarts, List.append_cancel_left h⟩

/-- The text from `p` on is the encoding of scalar values. -/
def EncodedFrom (s : List UInt8) (p : ℕ) : Prop :=
  ∃ cps : List ℕ, (∀ cp ∈ cps, IsScalar cp) ∧ s.drop p = cps.flatMap utf8Encode

theorem encodedFrom_of_le {s : List UInt8} {p : ℕ} (h : s.length ≤ p) : EncodedFrom s p :=
  ⟨[], fun _ hcp ↦ absurd hcp List.not_mem_nil, List.drop_eq_nil_of_le h⟩

theorem EncodedFrom.starts {s : List UInt8} {p : ℕ} (h : EncodedFrom s p) (hp : p < s.length) :
    ∃ cp, Starts s p cp ∧ EncodedFrom s (p + (utf8Encode cp).length) := by
  obtain ⟨cps, hscalars, hdrop⟩ := h
  cases cps with
  | nil => exact absurd (List.drop_eq_nil_iff.mp hdrop) (not_le.mpr hp)
  | cons cp cps =>
    obtain ⟨hstarts, hrest⟩ := Starts.of_cons hscalars hdrop
    exact ⟨cp, hstarts, cps, fun c hc ↦ hscalars c (List.mem_cons_of_mem _ hc), hrest⟩

theorem Starts.encodedFrom {s : List UInt8} {p cp : ℕ} (h : Starts s p cp)
    (hrest : EncodedFrom s (p + (utf8Encode cp).length)) : EncodedFrom s p := by
  obtain ⟨cps, hscalars, hdrop⟩ := hrest
  refine ⟨cp :: cps, ?_, ?_⟩
  · exact List.forall_mem_cons.mpr ⟨h.1, hscalars⟩
  · rw [h.drop, hdrop, List.flatMap_cons]

theorem validLoop_iff {s : List UInt8} {fuel p : ℕ} (hfuel : s.length ≤ p + fuel) :
    validLoop s fuel p = true ↔ EncodedFrom s p := by
  induction fuel generalizing p with
  | zero => exact iff_of_true rfl (encodedFrom_of_le hfuel)
  | succ fuel ih =>
    by_cases hlt : p < s.length
    · rw [validLoop_succ hlt]
      cases hat : scalarAt s p with
      | none =>
        refine iff_of_false Bool.false_ne_true fun h ↦ ?_
        obtain ⟨cp, hstarts, -⟩ := h.starts hlt
        rw [scalarAt_of_starts hstarts] at hat
        cases hat
      | some r =>
        obtain ⟨cp, q⟩ := r
        obtain ⟨hstarts, rfl⟩ := starts_of_scalarAt hlt hat
        have hpos := List.length_pos_iff.mpr (utf8Encode_ne_nil cp)
        refine (ih (by omega)).trans ⟨hstarts.encodedFrom, fun h ↦ ?_⟩
        obtain ⟨cp', hstarts', hrest⟩ := h.starts hlt
        have hsame := (scalarAt_of_starts hstarts').symm.trans (scalarAt_of_starts hstarts)
        obtain ⟨rfl, -⟩ := Prod.mk.inj (Option.some.inj hsame)
        exact hrest
    · rw [validLoop, if_neg hlt]
      exact iff_of_true rfl (encodedFrom_of_le (not_lt.mp hlt))

theorem decodeAll_eq {s : List UInt8} {fuel p : ℕ} {cps : List ℕ}
    (hfuel : s.length ≤ p + fuel) (hp : p ≤ s.length) (hscalars : ∀ cp ∈ cps, IsScalar cp)
    (h : s.drop p = cps.flatMap utf8Encode) : decodeAll s fuel p = (cps, s.length) := by
  induction cps generalizing fuel p with
  | nil =>
    obtain rfl : p = s.length := le_antisymm hp (List.drop_eq_nil_iff.mp h)
    cases fuel with
    | zero => rfl
    | succ fuel => rw [decodeAll, if_neg (Nat.lt_irrefl _)]
  | cons cp cps ih =>
    obtain ⟨hstarts, hrest⟩ := Starts.of_cons hscalars h
    have hpos := List.length_pos_iff.mpr (utf8Encode_ne_nil cp)
    have hle := hstarts.le
    cases fuel with
    | zero => omega
    | succ fuel =>
      rw [decodeAll, if_pos (by omega), hstarts.decode]
      have hscalars' : ∀ c ∈ cps, IsScalar c := fun c hc ↦ hscalars c (List.mem_cons_of_mem _ hc)
      rw [ih (by omega) hle hscalars' hrest]

/-- The validator accepts the encodings of scalar values, which the decoder reads back; the decoder
moves on everywhere, by one byte where no encoding starts. -/
theorem utf8_routines_agree (s : List UInt8) :
    (pbValidUtf8 s = true ↔
      ∃ cps : List ℕ, (∀ cp ∈ cps, IsScalar cp) ∧ s = cps.flatMap utf8Encode) ∧
    (∀ cps : List ℕ, (∀ cp ∈ cps, IsScalar cp) → s = cps.flatMap utf8Encode →
      decodeAll s s.length 0 = (cps, s.length)) ∧
    ∀ p < s.length, p < (utf8Decode s p).2 ∧ (utf8Decode s p).2 ≤ s.length ∧
      ((∀ cp, ¬Starts s p cp) → utf8Decode s p = (0xfffd, p + 1)) := by
  refine ⟨?_, fun cps hscalars h ↦ ?_, fun p hp ↦ ?_⟩
  · exact validLoop_iff (Nat.le_add_left _ _)
  · exact decodeAll_eq (Nat.le_add_left _ _) (Nat.zero_le _) hscalars h
  · exact ⟨utf8Decode_lt hp, utf8Decode_le hp, utf8Decode_of_not_starts hp⟩

/-- An overlong slash, a surrogate and the last scalar value. -/
example : pbValidUtf8 [0xc0, 0xaf] = false ∧ pbValidUtf8 [0xed, 0xa0, 0x80] = false ∧
    pbValidUtf8 [0xf4, 0x8f, 0xbf, 0xbf] = true := by decide

end TinyCPlus.Protobuf
