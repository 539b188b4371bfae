import TinyCPlus.Protobuf.ReaderSafety

/-!
# What `tc_pb_skip` skips

The values of the wire format as a grammar, and the skipper as its parser: it
leaves no error if and only if a value begins at the position, and it stops
just behind the value.
-/

namespace TinyCPlus.Protobuf

/-! ## The grammar -/

/-- Groups of seven bits, lowest first; every byte but the last is marked. -/
inductive Digits : List Byte → ℕ → Prop
  | last {b : Byte} (h : b.toNat < 128) : Digits [b] b.toNat
  | more {b : Byte} {v : List Byte} {x : ℕ} (h : 128 ≤ b.toNat) (hv : Digits v x) :
      Digits (b :: v) (b.toNat - 128 + 128 * x)

/-- A varint of at most ten bytes, below `2 ^ 64`. -/
structure Varint (v : List Byte) (x : ℕ) : Prop where
  digits : Digits v x
  length : v.length ≤ 10
  bound : x < 2 ^ 64

/-- A legal tag of the field `field` with the wire type `wire`. -/
structure Tag (v : List Byte) (field wire : ℕ) : Prop where
  varint : Varint v (8 * field + wire)
  pos : 0 < field
  bound : field ≤ 536870911
  wire : wire ≤ 5

mutual

/-- A value of the field `field` with the wire type `wire`, at a depth. -/
inductive Value : ℕ → ℕ → ℕ → List Byte → Prop
  | varint {depth field : ℕ} {v : List Byte} {x : ℕ} (hdepth : depth ≤ 64) (h : Varint v x) :
      Value depth field 0 v
  | fixed64 {depth field : ℕ} {v : List Byte} (hdepth : depth ≤ 64) (h : v.length = 8) :
      Value depth field 1 v
  | bytes {depth field : ℕ} {l v : List Byte} (hdepth : depth ≤ 64) (h : Varint l v.length) :
      Value depth field 2 (l ++ v)
  | group {depth field : ℕ} {body e : List Byte} (hdepth : depth ≤ 64)
      (hbody : Values (depth + 1) body) (h : Tag e field 4) : Value depth field 3 (body ++ e)
  | fixed32 {depth field : ℕ} {v : List Byte} (hdepth : depth ≤ 64) (h : v.length = 4) :
      Value depth field 5 v

/-- A sequence of tagged values at a depth. -/
inductive Values : ℕ → List Byte → Prop
  | nil {depth : ℕ} : Values depth []
  | cons {depth field wire : ℕ} {t v rest : List Byte} (ht : Tag t field wire)
      (hv : Value depth field wire v) (hrest : Values depth rest) :
      Values depth (t ++ (v ++ rest))

end

/-! ## Varints -/

theorem loop_value {value : U64} {byte : Byte} {k : ℕ} (hk : k ≤ 9)
    (hvalue : value.toNat < 2 ^ (7 * k)) (hbyte : k = 9 → byte.toNat ≤ 1) :
    (value ||| (byte &&& 127).setWidth 64 <<< (7 * k)).toNat =
      value.toNat + byte.toNat % 128 * 2 ^ (7 * k) := by
  have hlow : ((byte &&& 127).setWidth 64).toNat = byte.toNat % 128 := by
    rw [BitVec.toNat_setWidth, BitVec.toNat_and]
    have hmask : byte.toNat &&& (127 : Byte).toNat = byte.toNat % 128 :=
      Nat.and_two_pow_sub_one_eq_mod byte.toNat 7
    rw [hmask]
    omega
  have hroom : byte.toNat % 128 * 2 ^ (7 * k) < 2 ^ 64 := by
    rcases Nat.lt_or_eq_of_le hk with hlt | rfl
    · calc
        byte.toNat % 128 * 2 ^ (7 * k) < 2 ^ 7 * 2 ^ (7 * k) :=
          Nat.mul_lt_mul_of_pos_right (Nat.mod_lt _ (by decide)) (by positivity)
        _ = 2 ^ (7 + 7 * k) := (pow_add 2 7 (7 * k)).symm
        _ ≤ 2 ^ 64 := Nat.pow_le_pow_right (by decide) (by omega)
    · have := hbyte rfl
      omega
  rw [BitVec.toNat_or, BitVec.toNat_shiftLeft, hlow, Nat.shiftLeft_eq, Nat.mod_eq_of_lt hroom,
    Nat.or_comm, Nat.mul_comm (byte.toNat % 128), ← Nat.two_pow_add_eq_or_of_lt hvalue]
  exact Nat.add_comm _ _

theorem Digits.ne_nil {v : List Byte} {x : ℕ} (h : Digits v x) : v ≠ [] := by
  cases h <;> exact List.cons_ne_nil _ _

theorem mark_eq_zero_iff (byte : Byte) : byte &&& 128 = 0 ↔ byte.toNat < 128 := by
  revert byte
  decide

/-- The loop reads the digits that are next, for the turns that it has left. -/
theorem varintLoop_iff {n : ℕ} (hn : n ≤ 10) {value : U64} (hvalue : value.toNat < 2 ^ (7 * (10 - n)))
    (s s' : List Byte) (y : U64) :
    varintLoop n value s = (some y, s') ↔ ∃ v x, s = v ++ s' ∧ Digits v x ∧ v.length ≤ n ∧
      y.toNat = value.toNat + x * 2 ^ (7 * (10 - n)) := by
  induction n generalizing value s with
  | zero =>
      refine ⟨by rintro ⟨⟩, ?_⟩
      rintro ⟨v, x, -, hdigits, hlength, -⟩
      exact absurd (List.length_eq_zero_iff.mp (Nat.le_zero.mp hlength)) hdigits.ne_nil
  | succ n ih =>
      have hk : 10 - (n + 1) = 9 - n := by omega
      rw [hk] at hvalue ⊢
      cases s with
      | nil =>
          refine ⟨by rintro ⟨⟩, ?_⟩
          rintro ⟨v, x, hsplit, hdigits, -, -⟩
          exact absurd (List.append_eq_nil_iff.mp hsplit.symm).1 hdigits.ne_nil
      | cons byte s =>
          rw [varintLoop]
          by_cases hlast : 9 - n = 9 ∧ 1 < byte
          · rw [if_pos hlast]
            refine ⟨by rintro ⟨⟩, ?_⟩
            rintro ⟨v, x, hsplit, hdigits, hlength, hy⟩
            obtain rfl : n = 0 := by omega
            have hbyte : 1 < byte.toNat := hlast.2
            cases hdigits with
            | last hb =>
                obtain rfl := (List.cons.inj hsplit).1
                have := y.isLt
                omega
            | more hb hv =>
                rw [List.length_cons] at hlength
                exact absurd (List.length_eq_zero_iff.mp (by omega)) hv.ne_nil
          · rw [if_neg hlast]
            have hbyte (hnine : 9 - n = 9) : byte.toNat ≤ 1 := by
              have hle : ¬ 1 < byte := fun hlt ↦ hlast ⟨hnine, hlt⟩
              rw [BitVec.lt_def] at hle
              exact Nat.not_lt.mp hle
            have hsum := loop_value (by omega) hvalue hbyte
            dsimp only
            by_cases hmark : byte.toNat < 128
            · rw [if_pos ((mark_eq_zero_iff byte).mpr hmark)]
              rw [Nat.mod_eq_of_lt hmark] at hsum
              constructor
              · intro heq
                cases heq
                exact ⟨[byte], byte.toNat, rfl, .last hmark, Nat.succ_le_succ (Nat.zero_le n), hsum⟩
              · rintro ⟨v, x, hsplit, hdigits, -, hy⟩
                cases hdigits with
                | last hb =>
                    obtain ⟨rfl, rfl⟩ := List.cons.inj hsplit
                    rw [BitVec.eq_of_toNat_eq (hsum.trans hy.symm)]
                | more hb hv =>
                    obtain ⟨rfl, -⟩ := List.cons.inj hsplit
                    omega
            · rw [if_neg fun hzero ↦ hmark ((mark_eq_zero_iff byte).mp hzero)]
              have hlt := byte.isLt
              have hmod : byte.toNat % 128 = byte.toNat - 128 := by omega
              rw [hmod] at hsum
              by_cases hn : n = 0
              · subst hn
                refine ⟨by rintro ⟨⟩, ?_⟩
                rintro ⟨v, x, hsplit, hdigits, hlength, -⟩
                cases hdigits with
                | last hb =>
                    obtain ⟨rfl, -⟩ := List.cons.inj hsplit
                    exact absurd hb hmark
                | more hb hv =>
                    rw [List.length_cons] at hlength
                    exact absurd (List.length_eq_zero_iff.mp (by omega)) hv.ne_nil
              · have hexp : 7 * (10 - n) = 7 * (9 - n) + 7 := by omega
                have hpow : 2 ^ (7 * (10 - n)) = 2 ^ (7 * (9 - n)) * 128 :=
                  hexp ▸ pow_add 2 (7 * (9 - n)) 7
                have hnext : (value ||| (byte &&& 127).setWidth 64 <<< (7 * (9 - n))).toNat <
                    2 ^ (7 * (10 - n)) := by
                  rw [hsum, hpow]
                  have hle : byte.toNat - 128 ≤ 127 := by omega
                  have := Nat.mul_le_mul_right (2 ^ (7 * (9 - n))) hle
                  omega
                rw [ih (by omega) hnext, hsum, hpow]
                constructor
                · rintro ⟨v, x, rfl, hdigits, hlength, hy⟩
                  refine ⟨byte :: v, _, rfl, .more (Nat.not_lt.mp hmark) hdigits,
                    Nat.succ_le_succ hlength, ?_⟩
                  rw [hy]
                  ring
                · rintro ⟨v, x, hsplit, hdigits, hlength, hy⟩
                  cases hdigits with
                  | last hb =>
                      obtain ⟨rfl, -⟩ := List.cons.inj hsplit
                      exact absurd hb hmark
                  | more hb hv =>
                      obtain ⟨rfl, rfl⟩ := List.cons.inj hsplit
                      refine ⟨_, _, rfl, hv, Nat.le_of_succ_le_succ hlength, ?_⟩
                      rw [hy]
                      ring

namespace TcPbReader

variable {r : TcPbReader}

theorem readVarint_iff (hok : r.error = 0) (x : U64) (s : List Byte) :
    (r.readVarint.2.error = 0 ∧ r.readVarint.1 = x ∧ r.readVarint.2.rest = s) ↔
      ∃ v, r.rest = v ++ s ∧ Varint v x.toNat := by
  have hzero : (0 : U64).toNat < 2 ^ (7 * (10 - 10)) := Nat.one_pos
  have hloop := varintLoop_iff le_rfl hzero r.rest s x
  have hvarint : varintLoop 10 0 r.rest = (some x, s) ↔ ∃ v, r.rest = v ++ s ∧ Varint v x.toNat := by
    rw [hloop]
    constructor
    · rintro ⟨v, y, hrest, hdigits, hlength, hy⟩
      have hxy : x.toNat = y := by simpa using hy
      exact ⟨v, hrest, hxy ▸ hdigits, hlength, x.isLt⟩
    · rintro ⟨v, hrest, hdigits, hlength, -⟩
      exact ⟨v, x.toNat, hrest, hdigits, hlength, by simp⟩
  rw [← hvarint, readVarint, if_neg (not_not.mpr hok)]
  rcases varintLoop 10 0 r.rest with ⟨_ | y, s'⟩
  · simp
  · simp [hok]

/-- `r'` is left without an error if the input of `r` begins with bytes that
`P` allows, and then just behind them. -/
def Takes (r r' : TcPbReader) (P : List Byte → Prop) : Prop :=
  ∀ s, (r'.error = 0 ∧ r'.rest = s) ↔ ∃ v, r.rest = v ++ s ∧ P v

theorem takes_varint (hok : r.error = 0) :
    Takes r r.readVarint.2 fun v ↦ ∃ x, Varint v x := by
  intro s
  constructor
  · rintro ⟨herror, hrest⟩
    obtain ⟨v, hsplit, hv⟩ := (readVarint_iff hok _ s).mp ⟨herror, rfl, hrest⟩
    exact ⟨v, hsplit, _, hv⟩
  · rintro ⟨v, hsplit, x, hv⟩
    have hx : (BitVec.ofNat 64 x).toNat = x := by
      rw [BitVec.toNat_ofNat, Nat.mod_eq_of_lt hv.bound]
    obtain ⟨herror, -, hrest⟩ := (readVarint_iff hok (BitVec.ofNat 64 x) s).mpr ⟨v, hsplit, hx.symm ▸ hv⟩
    exact ⟨herror, hrest⟩

theorem fixedLoop_rest (n i : ℕ) (value : U64) (s : List Byte) :
    (fixedLoop n i value s).2 = s.drop n := by
  induction n generalizing i value s with
  | zero => cases s <;> rfl
  | succ n ih =>
      cases s with
      | nil => rfl
      | cons byte s => exact ih (i + 1) _ s

theorem takes_fixed (hok : r.error = 0) {count : ℕ} (hcount : count = 4 ∨ count = 8) :
    Takes r (r.readFixed count).2 fun v ↦ v.length = count := by
  intro s
  have hlegal : ¬ (count ≠ 4 ∧ count ≠ 8) := by omega
  rw [readFixed, if_neg (not_not.mpr hok)]
  by_cases hroom : r.rest.length < count
  · rw [if_pos (Or.inr hroom)]
    refine ⟨fun h ↦ absurd h.1 (Nat.succ_ne_zero 2), ?_⟩
    rintro ⟨v, hsplit, hv⟩
    rw [hsplit, List.length_append, hv] at hroom
    omega
  · rw [if_neg (not_or.mpr ⟨hlegal, hroom⟩)]
    dsimp only
    rw [fixedLoop_rest]
    constructor
    · rintro ⟨-, rfl⟩
      exact ⟨r.rest.take count, (List.take_append_drop count r.rest).symm,
        List.length_take_of_le (Nat.not_lt.mp hroom)⟩
    · rintro ⟨v, hsplit, rfl⟩
      refine ⟨hok, ?_⟩
      rw [hsplit, List.drop_left]

theorem takes_bytes (hok : r.error = 0) :
    Takes r r.readBytes.2 fun v ↦ ∃ l b, v = l ++ b ∧ Varint l b.length := by
  intro s
  have hvarint := readVarint_iff hok
  rw [readBytes]
  rcases hread : r.readVarint with ⟨length, r'⟩
  rw [hread] at hvarint
  dsimp only at hvarint ⊢
  constructor
  · intro h
    by_cases hroom : r'.error ≠ 0 ∨ r'.rest.length < length.toNat
    · rw [if_pos hroom] at h
      exact absurd h.1 (Nat.succ_ne_zero 2)
    · rw [if_neg hroom] at h
      rw [not_or, not_not] at hroom
      obtain ⟨l, hsplit, hl⟩ := (hvarint length r'.rest).mp ⟨hroom.1, rfl, rfl⟩
      have htake : (r'.rest.take length.toNat).length = length.toNat :=
        List.length_take_of_le (Nat.not_lt.mp hroom.2)
      refine ⟨l ++ r'.rest.take length.toNat, ?_, l, _, rfl, htake.symm ▸ hl⟩
      rw [hsplit, List.append_assoc, ← h.2, List.take_append_drop]
  · rintro ⟨_, hsplit, l, b, rfl, hl⟩
    have hlength : (BitVec.ofNat 64 b.length).toNat = b.length := by
      rw [BitVec.toNat_ofNat, Nat.mod_eq_of_lt hl.bound]
    rw [List.append_assoc] at hsplit
    obtain ⟨herror, rfl, hrest⟩ :=
      (hvarint (BitVec.ofNat 64 b.length) (b ++ s)).mpr ⟨l, hsplit, hlength.symm ▸ hl⟩
    have hroom : ¬ (r'.error ≠ 0 ∨ r'.rest.length < (BitVec.ofNat 64 b.length).toNat) := by
      rw [hlength, hrest, List.length_append]
      omega
    rw [if_neg hroom, hlength, hrest]
    exact ⟨herror, List.drop_left⟩

/-- A tag is its field number and its wire type. -/
theorem tag_parts (tag : U64) (field wire : ℕ) (hwire : wire ≤ 5) :
    tag.toNat = 8 * field + wire ↔ (tag >>> 3).toNat = field ∧ (tag &&& 7).toNat = wire := by
  have hshift : (tag >>> 3).toNat = tag.toNat / 8 := by
    rw [BitVec.toNat_ushiftRight, Nat.shiftRight_eq_div_pow]
  have hmask : (tag &&& 7).toNat = tag.toNat % 8 := by
    rw [BitVec.toNat_and]
    exact Nat.and_two_pow_sub_one_eq_mod tag.toNat 3
  rw [hshift, hmask]
  omega

theorem next_iff (hok : r.error = 0) (hne : r.rest ≠ []) (field wire : ℕ) (s : List Byte) :
    (r.next.2.error = 0 ∧ r.next.1 = field ∧ r.next.2.wire = wire ∧ r.next.2.rest = s) ↔
      ∃ v, r.rest = v ++ s ∧ Tag v field wire := by
  have hvarint := readVarint_iff hok
  rw [next, if_neg (ne_true_of_eq_false (r.done_eq_false_iff.mpr ⟨hok, hne⟩))]
  rcases hread : r.readVarint with ⟨tag, r'⟩
  rw [hread] at hvarint
  dsimp only at hvarint ⊢
  have hzero (x : U64) : x = 0 ↔ x.toNat = 0 := by
    rw [BitVec.toNat_eq]
    rfl
  constructor
  · intro h
    by_cases hbad : r'.error ≠ 0 ∨ tag >>> 3 = 0 ∨ 536870911 < tag >>> 3 ∨ 5 < (tag &&& 7).toNat
    · rw [if_pos hbad] at h
      exact absurd h.1 (Nat.succ_ne_zero 2)
    · rw [if_neg hbad] at h
      obtain ⟨herror, rfl, rfl, rfl⟩ := h
      obtain ⟨v, hsplit, hv⟩ := (hvarint tag r'.rest).mp ⟨herror, rfl, rfl⟩
      simp only [not_or, not_not, hzero, BitVec.lt_def, Nat.not_lt] at hbad
      refine ⟨v, hsplit, ?_, Nat.pos_of_ne_zero hbad.2.1, hbad.2.2.1, hbad.2.2.2⟩
      rw [← (tag_parts tag _ _ hbad.2.2.2).mpr ⟨rfl, rfl⟩]
      exact hv
  · rintro ⟨v, hsplit, hv⟩
    have htag : (BitVec.ofNat 64 (8 * field + wire)).toNat = 8 * field + wire := by
      rw [BitVec.toNat_ofNat, Nat.mod_eq_of_lt hv.varint.bound]
    obtain ⟨herror, rfl, hrest⟩ :=
      (hvarint (BitVec.ofNat 64 (8 * field + wire)) s).mpr ⟨v, hsplit, htag.symm ▸ hv.varint⟩
    obtain ⟨hfield, hwire⟩ := (tag_parts _ _ _ hv.wire).mp htag
    have hgood : ¬ (r'.error ≠ 0 ∨ BitVec.ofNat 64 (8 * field + wire) >>> 3 = 0 ∨
        536870911 < BitVec.ofNat 64 (8 * field + wire) >>> 3 ∨
          5 < (BitVec.ofNat 64 (8 * field + wire) &&& 7).toNat) := by
      simp only [not_or, not_not, hzero, BitVec.lt_def, Nat.not_lt, hfield, hwire]
      exact ⟨herror, hv.pos.ne', hv.bound, hv.wire⟩
    rw [if_neg hgood]
    exact ⟨herror, hfield, hwire, hrest⟩

end TcPbReader

/-! ## Groups -/

/-- What stands behind the tag that begins a group. -/
def Group (depth field : ℕ) (v : List Byte) : Prop :=
  ∃ body e, v = body ++ e ∧ Values (depth + 1) body ∧ Tag e field 4

theorem group_iff (depth field : ℕ) (v : List Byte) :
    Group depth field v ↔ Tag v field 4 ∨ ∃ t f w u g, v = t ++ (u ++ g) ∧ Tag t f w ∧
      Value (depth + 1) f w u ∧ Group depth field g := by
  constructor
  · rintro ⟨body, e, rfl, hbody, he⟩
    cases hbody with
    | nil => exact .inl he
    | cons ht hu hrest =>
        refine .inr ⟨_, _, _, _, _, ?_, ht, hu, _, e, rfl, hrest, he⟩
        rw [List.append_assoc, List.append_assoc]
  · rintro (h | ⟨t, f, w, u, g, rfl, ht, hu, body, e, rfl, hbody, he⟩)
    · exact ⟨[], v, rfl, .nil, h⟩
    · refine ⟨t ++ (u ++ body), e, ?_, .cons ht hu hbody, he⟩
      rw [List.append_assoc, List.append_assoc]

/-- No value has the wire type that ends a group. -/
theorem not_value_four {depth field : ℕ} {v : List Byte} : ¬ Value depth field 4 v := nofun

theorem Tag.ne_nil {v : List Byte} {field wire : ℕ} (h : Tag v field wire) : v ≠ [] :=
  h.varint.digits.ne_nil

namespace TcPbReader

variable {r : TcPbReader}

/-- The skipper of a value, if the loop reads groups. -/
theorem takes_value {group : TcPbReader → ℕ → ℕ → TcPbReader} (hok : r.error = 0)
    {field depth : ℕ} (hgroup : Takes r (group r field depth) (Group depth field)) :
    Takes r (skipDepth group r field depth) (Value depth field r.wire) := by
  intro s
  rw [skipDepth]
  by_cases hdepth : 64 < depth
  · rw [if_pos hdepth]
    refine ⟨fun h ↦ absurd h.1 (Nat.succ_ne_zero 2), ?_⟩
    rintro ⟨v, -, hv⟩
    generalize r.wire = wire at hv
    cases hv <;> omega
  · rw [if_neg hdepth]
    have hle := Nat.not_lt.mp hdepth
    split
    · next hwire =>
        rw [takes_varint hok s, hwire]
        refine exists_congr fun v ↦ and_congr_right fun _ ↦ ⟨?_, ?_⟩
        · rintro ⟨x, hx⟩
          exact .varint hle hx
        · rintro (_ | _)
          exact ⟨_, ‹_›⟩
    · next hwire =>
        rw [takes_fixed hok (.inr rfl) s, hwire]
        refine exists_congr fun v ↦ and_congr_right fun _ ↦ ⟨.fixed64 hle, ?_⟩
        rintro (_ | _)
        assumption
    · next hwire =>
        rw [takes_bytes hok s, hwire]
        refine exists_congr fun v ↦ and_congr_right fun _ ↦ ⟨?_, ?_⟩
        · rintro ⟨l, b, rfl, hl⟩
          exact .bytes hle hl
        · rintro (_ | _)
          exact ⟨_, _, rfl, ‹_›⟩
    · next hwire =>
        rw [takes_fixed hok (.inl rfl) s, hwire]
        refine exists_congr fun v ↦ and_congr_right fun _ ↦ ⟨.fixed32 hle, ?_⟩
        rintro (_ | _)
        assumption
    · next hwire =>
        rw [hgroup s, hwire]
        refine exists_congr fun v ↦ and_congr_right fun _ ↦ ⟨?_, ?_⟩
        · rintro ⟨body, e, rfl, hbody, he⟩
          exact .group hle hbody he
        · rintro (_ | _)
          exact ⟨_, _, rfl, ‹_›, ‹_›⟩
    · next hzero hone htwo hfive hthree =>
        refine ⟨fun h ↦ absurd h.1 (Nat.succ_ne_zero 2), ?_⟩
        rintro ⟨v, -, hv⟩
        generalize r.wire = wire at hv hzero hone htwo hfive hthree
        cases hv
        · exact absurd rfl hzero
        · exact absurd rfl hone
        · exact absurd rfl htwo
        · exact absurd rfl hthree
        · exact absurd rfl hfive

/-- The loop reads the values of a group up to its end.  The induction is on the
turns; every record takes a byte, so that there are enough of them. -/
theorem takes_group {fuel : ℕ} (hok : r.error = 0) (hfuel : r.rest.length < fuel)
    (field depth : ℕ) : Takes r (skipGroup fuel r field depth) (Group depth field) := by
  induction fuel generalizing r field depth with
  | zero => exact absurd hfuel (Nat.not_lt_zero _)
  | succ fuel ih =>
      intro s
      by_cases hnil : r.rest = []
      · rw [skipGroup, if_pos (by simp [done, hnil])]
        refine ⟨fun h ↦ absurd h.1 (Nat.succ_ne_zero 2), ?_⟩
        rintro ⟨v, hsplit, hv⟩
        obtain ⟨rfl, -⟩ := List.append_eq_nil_iff.mp (hsplit.symm.trans hnil)
        rcases (group_iff _ _ _).mp hv with hv | ⟨t, f, w, u, g, hsplit', ht, -, -⟩
        · exact absurd rfl hv.ne_nil
        · exact absurd (List.append_eq_nil_iff.mp hsplit'.symm).1 ht.ne_nil
      have hdone : r.done = false := r.done_eq_false_iff.mpr ⟨hok, hnil⟩
      have hshrinks := next_takes hdone
      have htag := next_iff hok hnil
      rw [skipGroup, if_neg (ne_true_of_eq_false hdone)]
      rcases hnext : r.next with ⟨n, r'⟩
      rw [hnext] at htag hshrinks
      dsimp only at htag hshrinks ⊢
      -- the tag that a group begins with is the one that was read
      have hfirst {t g : List Byte} {f w : ℕ} (hsplit : r.rest = t ++ g) (ht : Tag t f w) :
          r'.error = 0 ∧ n = f ∧ r'.wire = w ∧ r'.rest = g := (htag f w g).mpr ⟨t, hsplit, ht⟩
      have hmember : r'.error = 0 → Takes r' (skipDepth (skipGroup fuel) r' n (depth + 1))
          (Value (depth + 1) n r'.wire) := fun hok' ↦
        takes_value hok' (ih hok' (hshrinks.trans_le (Nat.le_of_lt_succ hfuel)) n (depth + 1))
      constructor
      · intro h
        have hok' : r'.error = 0 := by
          by_contra herror
          split at h
          · split at h
            · exact absurd h.1 (Nat.succ_ne_zero 2)
            · exact herror h.1
          · have hbad : (skipDepth (skipGroup fuel) r' n (depth + 1)).error ≠ 0 :=
              skipDepth_of_error (skipGroup_of_error fuel herror n (depth + 1)) herror
            exact skipGroup_of_error fuel hbad field depth h.1
        obtain ⟨t, hsplit, ht⟩ := (htag n r'.wire r'.rest).mp ⟨hok', rfl, rfl, rfl⟩
        split at h
        · next hwire =>
            split at h
            · exact absurd h.1 (Nat.succ_ne_zero 2)
            · next hfield =>
                rw [not_not] at hfield
                subst hfield
                rw [hwire] at ht
                exact ⟨t, h.2 ▸ hsplit, (group_iff _ _ _).mpr (.inl ht)⟩
        · next hwire =>
            have hok₂ : (skipDepth (skipGroup fuel) r' n (depth + 1)).error = 0 := by
              by_contra herror
              exact skipGroup_of_error fuel herror field depth h.1
            obtain ⟨u, hsplit₂, hu⟩ := (hmember hok' _).mp ⟨hok₂, rfl⟩
            have hroom : (skipDepth (skipGroup fuel) r' n (depth + 1)).rest.length < fuel := by
              have hlength := congrArg List.length hsplit₂
              rw [List.length_append] at hlength
              omega
            obtain ⟨g, hsplit₃, hg⟩ := (ih hok₂ hroom field depth s).mp h
            refine ⟨t ++ (u ++ g), ?_, (group_iff _ _ _).mpr (.inr ⟨t, n, _, u, g, rfl, ht, hu, hg⟩)⟩
            rw [hsplit, hsplit₂, hsplit₃, List.append_assoc, List.append_assoc]
      · rintro ⟨v, hsplit, hv⟩
        rcases (group_iff _ _ _).mp hv with hv | ⟨t, f, w, u, g, rfl, ht, hu, hg⟩
        · obtain ⟨hok', rfl, hwire, hrest⟩ := hfirst hsplit hv
          rw [if_pos hwire, if_neg (not_not.mpr rfl)]
          exact ⟨hok', hrest⟩
        · rw [List.append_assoc, List.append_assoc] at hsplit
          obtain ⟨hok', rfl, rfl, hrest⟩ := hfirst hsplit ht
          have hwire : r'.wire ≠ 4 := by
            intro hwire
            rw [hwire] at hu
            exact not_value_four hu
          rw [if_neg hwire]
          obtain ⟨hok₂, hrest₂⟩ := (hmember hok' (g ++ s)).mpr ⟨u, hrest, hu⟩
          have hroom : (skipDepth (skipGroup fuel) r' n (depth + 1)).rest.length < fuel := by
            have hlength := congrArg List.length hrest
            rw [List.length_append, ← hrest₂] at hlength
            omega
          exact (ih hok₂ hroom field depth s).mpr ⟨g, hrest₂, hg⟩

theorem takes_skip (hok : r.error = 0) (field : ℕ) : Takes r (r.skip field) (Value 0 field r.wire) :=
  takes_value hok (takes_group hok (Nat.lt_succ_self _) field 0)

end TcPbReader

namespace Cursor

theorem Represents.position_add {r s : Cursor} {t u : TcPbReader} (hr : Represents r t)
    (hs : Represents s u) (hinput : s.input = r.input) (hok : r.error = 0) {v : List Byte}
    (hsplit : t.rest = v ++ u.rest) : s.position.toNat = r.position.toNat + v.length := by
  have hfull := hr.full hok
  have hlength := congrArg List.length hsplit
  rw [hr.rest, hs.rest, hinput, List.length_append, List.length_drop, List.length_drop,
    hfull] at hlength
  have hwithin := hs.within
  have hwithin' := hr.within
  rw [hinput] at hwithin
  omega

/-- After a tag, `tc_pb_skip` leaves no error if and only if the bytes at the
position begin with a value of the field and the wire type, and then the
position is just behind the value. -/
theorem skip_iff {input : TinyString} {before : List ReaderCall} {answers : List ReaderAnswer}
    {r r' : Cursor} (hbefore : (create input).calls before = .ok (answers, r)) {field : U32}
    (hnext : r.next = .ok (field, r')) (hfield : field ≠ 0) :
    ∃ s, r'.skip field = .ok s ∧ (s.error = 0 ↔ ∃ v rest,
        input.bytes.drop r'.position.toNat = v ++ rest ∧ Value 0 field.toNat r'.wire.toNat v) ∧
      ∀ v rest, input.bytes.drop r'.position.toNat = v ++ rest →
        Value 0 field.toNat r'.wire.toNat v → s.position.toNat = r'.position.toNat + v.length := by
  obtain ⟨as, r₁, hcalls, hfirst⟩ := (sound_create input).calls before
  obtain ⟨rfl, rfl⟩ := Prod.mk.inj (Except.ok.inj (hcalls.symm.trans hbefore))
  obtain ⟨t, ht⟩ := hfirst.sound
  obtain ⟨n, r₂, hnext', hleaves, hn⟩ := ht.next
  obtain ⟨rfl, rfl⟩ := Prod.mk.inj (Except.ok.inj (hnext'.symm.trans hnext))
  have hinput : r₂.input = input := hleaves.input.trans hfirst.input
  have hok : t.next.2.error = 0 := by
    by_contra herror
    have hzero : t.next.1 = 0 := by
      cases hdone : t.done with
      | true => rw [TcPbReader.next, if_pos hdone]
      | false => exact (TcPbReader.next_eq_zero_iff hdone).mpr herror
    exact hfield (BitVec.eq_of_toNat_eq (hn.trans hzero))
  have hr := hleaves.represents
  obtain ⟨s, hskip, hskipped⟩ := hr.skip n
  have htakes := TcPbReader.takes_skip hok n.toNat
  have hs := hskipped.represents
  rw [← hinput, ← hr.rest, ← hr.wire]
  refine ⟨s, hskip, ?_, fun v rest hsplit hv ↦ ?_⟩
  · rw [← hs.error]
    constructor
    · intro hzero
      obtain ⟨v, hsplit, hv⟩ := (htakes _).mp ⟨hzero, rfl⟩
      exact ⟨v, _, hsplit, hv⟩
    · rintro ⟨v, rest, hsplit, hv⟩
      exact ((htakes rest).mpr ⟨v, hsplit, hv⟩).1
  · obtain ⟨-, hrest⟩ := (htakes rest).mpr ⟨v, hsplit, hv⟩
    rw [← hrest] at hsplit
    exact hr.position_add hs hskipped.input (hr.error.symm.trans hok) hsplit

/-- A group with one varint in it, and two bytes behind it. -/
def groupInput : TinyString := ⟨some [19, 8, 1, 20, 0, 0], 6, by simp⟩

theorem skip_iff_group :
    ∃ s, (⟨groupInput, 1, 3, 0⟩ : Cursor).skip 2 = .ok s ∧ (s.error = 0 ↔ ∃ v rest,
        groupInput.bytes.drop 1 = v ++ rest ∧ Value 0 2 3 v) ∧
      ∀ v rest, groupInput.bytes.drop 1 = v ++ rest → Value 0 2 3 v →
        s.position.toNat = 1 + v.length := by
  have hbefore : (create groupInput).calls [] = .ok ([], create groupInput) := rfl
  have hnext : (create groupInput).next = .ok (2, ⟨groupInput, 1, 3, 0⟩) := rfl
  exact skip_iff hbefore hnext (by decide)

end Cursor

end TinyCPlus.Protobuf
