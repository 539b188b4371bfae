import TinyCPlus.Protobuf.Wire

/-!
# Reading back what was written

A reader gets back the records that a writer wrote, and zigzag loses nothing.
-/

namespace TinyCPlus.Protobuf

/-! ## Varints -/

theorem getLsbD_127 {n : ℕ} (hn : 7 ≤ n) (k : ℕ) :
    (127 : BitVec n).getLsbD k = decide (k < 7) := by
  have hmask : (127 : BitVec n) = BitVec.setWidth n (BitVec.allOnes 7) := by
    apply BitVec.eq_of_toNat_eq
    simp
  rw [hmask, BitVec.getLsbD_setWidth, BitVec.getLsbD_allOnes]
  by_cases hk : k < 7
  · have hkn : k < n := by omega
    simp [hk, hkn]
  · simp [hk]

theorem getLsbD_128 {n : ℕ} (hn : 8 ≤ n) (k : ℕ) :
    (128 : BitVec n).getLsbD k = decide (k = 7) := by
  have hbit : (128 : BitVec n) = BitVec.twoPow n 7 := by
    apply BitVec.eq_of_toNat_eq
    simp
  rw [hbit, BitVec.getLsbD_twoPow]
  by_cases hk : k = 7
  · have hkn : 7 < n := by omega
    simp [hk, hkn]
  · simp [hk, Ne.symm hk]

/-- The low seven bits and the rest make up the value again. -/
theorem low_or_high (value : U64) (i : ℕ) :
    ((value &&& 127) <<< i) ||| (value >>> 7) <<< (i + 7) = value <<< i := by
  refine BitVec.eq_of_getLsbD_eq fun j hj ↦ ?_
  simp only [BitVec.getLsbD_or, BitVec.getLsbD_shiftLeft, BitVec.getLsbD_and,
    BitVec.getLsbD_ushiftRight, getLsbD_127 (show 7 ≤ 64 by decide)]
  by_cases hlow : j < i
  · have hhigh : j < i + 7 := by omega
    simp [hlow, hhigh]
  · by_cases hhigh : j < i + 7
    · have hbit : j - i < 7 := by omega
      simp [hlow, hhigh, hbit]
    · have hbit : ¬ j - i < 7 := by omega
      have hindex : 7 + (j - (i + 7)) = j - i := by omega
      simp [hlow, hhigh, hbit, hindex]

theorem marked_value (value : U64) :
    ((((value &&& 127) ||| 128).setWidth 8 : Byte) &&& 127).setWidth 64 = value &&& 127 := by
  refine BitVec.eq_of_getLsbD_eq fun j hj ↦ ?_
  simp only [BitVec.getLsbD_setWidth, BitVec.getLsbD_or, BitVec.getLsbD_and,
    getLsbD_127 (show 7 ≤ 64 by decide), getLsbD_127 (show 7 ≤ 8 by decide),
    getLsbD_128 (show 8 ≤ 64 by decide)]
  by_cases hlow : j < 7
  · have hne : j ≠ 7 := by omega
    have hbyte : j < 8 := by omega
    simp [hlow, hne, hbyte, hj]
  · simp [hlow]

theorem marked_mark (value : U64) :
    (((value &&& 127) ||| 128).setWidth 8 : Byte) &&& 128 ≠ 0 := by
  intro hzero
  have hbit := congrArg (fun b : Byte ↦ b.getLsbD 7) hzero
  simp only [BitVec.getLsbD_setWidth, BitVec.getLsbD_or, BitVec.getLsbD_and,
    getLsbD_128 (show 8 ≤ 64 by decide), getLsbD_128 (show 8 ≤ 8 by decide)] at hbit
  simp at hbit

theorem and_127_of_le : ∀ b : Byte, b.toNat ≤ 127 → b &&& 127 = b := by decide

theorem and_128_of_le : ∀ b : Byte, b.toNat ≤ 127 → b &&& 128 = 0 := by decide

theorem setWidth_last {value : U64} (h : value.toNat ≤ 127) :
    ((value.setWidth 8 : Byte) &&& 127).setWidth 64 = value ∧
      (value.setWidth 8 : Byte) &&& 128 = 0 := by
  have hbyte : (value.setWidth 8 : Byte).toNat = value.toNat := by
    rw [BitVec.toNat_setWidth]
    omega
  rw [and_127_of_le _ (hbyte ▸ h), and_128_of_le _ (hbyte ▸ h)]
  refine ⟨BitVec.eq_of_toNat_eq ?_, rfl⟩
  rw [BitVec.toNat_setWidth, hbyte]
  omega

/-- The loop of the reader gets back the bytes of a value that fits into the
turns that are left. -/
theorem varintLoop_varintBytes {n : ℕ} (hn : n ≤ 9) (acc : U64) {value : U64}
    (hvalue : value.toNat < 2 ^ (7 * n + 1)) (s : List Byte) :
    varintLoop (n + 1) acc (varintBytes n value ++ s) =
      (some (acc ||| value <<< (7 * (9 - n))), s) := by
  induction n generalizing acc value with
  | zero =>
      have hle : value.toNat ≤ 127 := by omega
      obtain ⟨hlast, hmark⟩ := setWidth_last hle
      have hbyte : ¬ (1 : Byte) < value.setWidth 8 := by
        rw [BitVec.lt_def, BitVec.toNat_setWidth]
        simp only [BitVec.ofNat_eq_ofNat, BitVec.toNat_ofNat]
        omega
      rw [varintBytes, List.singleton_append, varintLoop, if_neg (fun h ↦ hbyte h.2), hlast]
      dsimp only
      rw [if_pos hmark]
  | succ n ih =>
      have hturn : ¬ 9 - (n + 1) = 9 := by omega
      rw [varintBytes]
      split
      · rename_i hmore
        have hrest : (value >>> 7).toNat < 2 ^ (7 * n + 1) := by
          rw [BitVec.toNat_ushiftRight, Nat.shiftRight_eq_div_pow, Nat.div_lt_iff_lt_mul (by decide),
            ← Nat.pow_add]
          exact hvalue
        have hindex : 7 * (9 - n) = 7 * (9 - (n + 1)) + 7 := by omega
        rw [List.cons_append, varintLoop, if_neg (fun h ↦ hturn h.1)]
        dsimp only
        rw [if_neg (marked_mark value), marked_value, ih (by omega) _ hrest, hindex,
          BitVec.or_assoc, low_or_high]
      · rename_i hmore
        have hle : value.toNat ≤ 127 := by
          rw [BitVec.lt_def] at hmore
          simpa using hmore
        obtain ⟨hlast, hmark⟩ := setWidth_last hle
        rw [List.singleton_append, varintLoop, if_neg (fun h ↦ hturn h.1), hlast]
        dsimp only
        rw [if_pos hmark]

theorem varintLoop_varint (value : U64) (s : List Byte) :
    varintLoop 10 0 (varint value ++ s) = (some value, s) := by
  rw [varint, varintLoop_varintBytes le_rfl 0 value.isLt]
  simp

/-! ## Fixed values -/

/-- The low byte and the rest make up the value again. -/
theorem low_or_high_byte (value : U64) (n i : ℕ) :
    ((value.setWidth 8 : Byte).setWidth 64 <<< i) |||
        (((value >>> 8).setWidth n).setWidth 64) <<< (i + 8) =
      ((value.setWidth (n + 8)).setWidth 64) <<< i := by
  refine BitVec.eq_of_getLsbD_eq fun j hj ↦ ?_
  simp only [BitVec.getLsbD_or, BitVec.getLsbD_shiftLeft, BitVec.getLsbD_setWidth,
    BitVec.getLsbD_ushiftRight]
  by_cases hlow : j < i
  · have hhigh : j < i + 8 := by omega
    simp [hlow, hhigh]
  · by_cases hhigh : j < i + 8
    · have hbit : j - i < 8 := by omega
      have hwide : j - i < n + 8 := by omega
      simp [hlow, hhigh, hbit, hwide]
    · have hbit : ¬ j - i < 8 := by omega
      have hindex : 8 + (j - (i + 8)) = j - i := by omega
      have hwide : j - (i + 8) < n ↔ j - i < n + 8 := by omega
      have hsmall : j - (i + 8) < 64 := by omega
      have hsmall' : j - i < 64 := by omega
      simp [hlow, hhigh, hbit, hindex, hwide, hsmall, hsmall']

theorem fixedLoop_fixedBytes (n i : ℕ) (acc value : U64) (s : List Byte) :
    fixedLoop n i acc (fixedBytes n value ++ s) =
      (acc ||| ((value.setWidth (8 * n)).setWidth 64) <<< (8 * i), s) := by
  induction n generalizing i acc value with
  | zero =>
      have hzero : (value.setWidth (8 * 0)).setWidth 64 = 0 := by
        apply BitVec.eq_of_toNat_eq
        simp [Nat.mod_one]
      rw [hzero]
      simp [fixedBytes, fixedLoop]
  | succ n ih =>
      rw [fixedBytes, List.cons_append, fixedLoop, ih, BitVec.or_assoc, Nat.mul_succ 8 i,
        low_or_high_byte, Nat.mul_succ]

/-! ## Zigzag -/

/-- The sign mask of zigzag, bit by bit. -/
theorem getLsbD_neg_bit (b : Bool) {j : ℕ} (hj : j < 64) :
    (-(if b then 1 else 0 : U64)).getLsbD j = b := by
  cases b with
  | false => simp
  | true =>
      rw [if_pos rfl, show (1 : U64) = 1#64 from rfl, BitVec.neg_one_eq_allOnes,
        BitVec.getLsbD_allOnes, decide_eq_true hj]

theorem and_one_eq (n : U64) : n &&& 1 = if n.getLsbD 0 then 1 else 0 := by
  refine BitVec.eq_of_getLsbD_eq fun j hj ↦ ?_
  rw [BitVec.getLsbD_and, show (1 : U64) = 1#64 from rfl, BitVec.getLsbD_one]
  by_cases hzero : j = 0
  · subst hzero
    cases n.getLsbD 0 <;> simp
  · cases n.getLsbD 0 <;> simp [hzero]

theorem getLsbD_zigzag (n : BitVec 64) {j : ℕ} (hj : j < 64) :
    (zigzag n).getLsbD j = ((decide (0 < j) && n.getLsbD (j - 1)) ^^ n.msb) := by
  rw [zigzag, BitVec.getLsbD_xor, show n.slt 0 = n.msb from BitVec.slt_zero_eq_msb,
    getLsbD_neg_bit _ hj, BitVec.getLsbD_shiftLeft]
  by_cases hzero : j = 0
  · simp [hzero]
  · have hpos : 0 < j := by omega
    have hlow : ¬ j < 1 := by omega
    simp [hj, hpos, hlow]

theorem getLsbD_unzigzag (n : U64) {j : ℕ} (hj : j < 64) :
    (unzigzag n).getLsbD j = (n.getLsbD (1 + j) ^^ n.getLsbD 0) := by
  rw [unzigzag, BitVec.getLsbD_xor, and_one_eq, getLsbD_neg_bit _ hj, BitVec.getLsbD_ushiftRight]

theorem unzigzag_zigzag (n : BitVec 64) : unzigzag (zigzag n) = n := by
  refine BitVec.eq_of_getLsbD_eq fun j hj ↦ ?_
  rw [getLsbD_unzigzag _ hj, getLsbD_zigzag _ (show 0 < 64 by decide)]
  by_cases hlast : j = 63
  · subst hlast
    rw [BitVec.getLsbD_of_ge _ _ (show 64 ≤ 1 + 63 by decide), BitVec.msb_eq_getLsbD_last]
    simp
  · rw [getLsbD_zigzag _ (show 1 + j < 64 by omega), Nat.add_sub_cancel_left]
    simp

theorem zigzag_unzigzag (n : U64) : zigzag (unzigzag n) = n := by
  refine BitVec.eq_of_getLsbD_eq fun j hj ↦ ?_
  have hmsb : (unzigzag n).msb = n.getLsbD 0 := by
    rw [BitVec.msb_eq_getLsbD_last, getLsbD_unzigzag _ (show 64 - 1 < 64 by decide),
      BitVec.getLsbD_of_ge _ _ (show 64 ≤ 1 + (64 - 1) by decide), Bool.false_xor]
  rw [getLsbD_zigzag _ hj, hmsb]
  by_cases hzero : j = 0
  · simp [hzero]
  · have hpos : 0 < j := by omega
    have hindex : 1 + (j - 1) = j := by omega
    rw [getLsbD_unzigzag _ (show j - 1 < 64 by omega), hindex]
    simp [hpos]

end TinyCPlus.Protobuf
