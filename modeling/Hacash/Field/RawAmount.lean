import Hacash.Field.Base256

/-!
# Amounts field by field (`field`, amount.rs)

The order and the unit conversions of the source are code over the fields alone, zero in all its
forms included. **Key results**: `raw_amount_cmp_numeric` and `unit_conversion_exact`.
-/

namespace Hacash

open Lib

open Amount (tailToU128 scaleU128 scaleU128_ok compare_mul_right)

/-- The fields of an amount. -/
@[ext]
structure RawAmount where
  unit : ℕ
  dist : ℤ
  byte : List UInt8
  unit_lt : unit < 256
  dist_byte : dist.natAbs = byte.length
  byte_le : byte.length ≤ 127

open RawAmount

instance : DecidableEq RawAmount := fun _ _ => decidable_of_iff _ RawAmount.ext_iff.symm

/-- The fields of a canonical amount. -/
def Amount.raw (a : Amount) : RawAmount :=
  ⟨a.unit, a.dist, a.byte, a.unit_lt, a.dist_byte, a.byte_le⟩

namespace RawAmount

variable (a b : RawAmount)

def isZero : Bool := a.byte.all (· == 0)

def isNegative : Bool := decide (a.dist < 0) && !a.isZero

/-- The absolute value in units of `10 ^ -248` HAC. -/
def magnitude : ℕ := beValue a.byte * 10 ^ a.unit

/-- The number: sign, mantissa and decimal exponent. -/
def value : ℤ := a.dist.sign * (beValue a.byte * 10 ^ a.unit : ℕ)

theorem isZero_iff : a.isZero = true ↔ beValue a.byte = 0 := all_zero_iff a.byte

theorem magnitude_eq_zero_iff : a.magnitude = 0 ↔ a.isZero = true := by
  rw [isZero_iff, magnitude, Nat.mul_eq_zero]
  exact or_iff_left (by positivity)

theorem value_of_isNegative {a : RawAmount} (h : a.isNegative = true) :
    a.value = -(a.magnitude : ℤ) := by
  rw [isNegative, Bool.and_eq_true, decide_eq_true_iff] at h
  rw [value, Int.sign_eq_neg_one_of_neg h.1, neg_one_mul, magnitude]

theorem value_of_not_isNegative {a : RawAmount} (h : a.isNegative = false) :
    a.value = a.magnitude := by
  rw [isNegative, Bool.and_eq_false_iff, decide_eq_false_iff_not] at h
  have hzero : a.magnitude = 0 → a.value = a.magnitude := by
    intro h0
    rw [value]
    rw [magnitude] at h0 ⊢
    rw [h0]
    simp
  rcases h with h | h
  · rcases (not_lt.mp h).lt_or_eq with hpos | hdist
    · rw [value, Int.sign_eq_one_of_pos hpos, one_mul, magnitude]
    · -- a mantissa of no bytes
      have hlen := a.dist_byte
      rw [← hdist] at hlen
      refine hzero ?_
      rw [magnitude, List.eq_nil_of_length_eq_zero hlen.symm]
      simp
  · exact hzero ((magnitude_eq_zero_iff a).mpr (by simpa using h))

theorem magnitude_pos_of_isNegative {a : RawAmount} (h : a.isNegative = true) :
    0 < a.magnitude := by
  rw [isNegative, Bool.and_eq_true] at h
  refine Nat.pos_of_ne_zero fun h0 => ?_
  rw [(magnitude_eq_zero_iff a).mp h0] at h
  exact absurd h.2 (by decide)

theorem magnitude_eq_scaled {a : RawAmount} {base : ℕ} (h : base ≤ a.unit) :
    a.magnitude = beValue a.byte * 10 ^ (a.unit - base) * 10 ^ base := by
  rw [magnitude, mul_assoc, ← pow_add, Nat.sub_add_cancel h]

/-! ## Order (amount.rs:586–595, 866–895) -/

def magnitudeCmpWide : Ordering :=
  let baseUnit := min a.unit b.unit
  cmpB256 (mulPow10B256 a.byte (a.unit - baseUnit)) (mulPow10B256 b.byte (b.unit - baseUnit))

/-- `magnitude_cmp`. `none` is the panic of an `expect`. -/
def magnitudeCmp : Option Ordering :=
  if a.isZero || b.isZero then some (compare (!a.isZero) (!b.isZero))
  else if a.unit = b.unit then some (cmpB256 a.byte b.byte)
  else if a.byte.length ≤ 16 ∧ b.byte.length ≤ 16 then
    match tailToU128 a.byte u128Max, tailToU128 b.byte u128Max with
    | .ok lhsValue, .ok rhsValue =>
      let baseUnit := min a.unit b.unit
      match scaleU128 lhsValue (a.unit - baseUnit) u128Max,
          scaleU128 rhsValue (b.unit - baseUnit) u128Max with
      | .ok scaledLhs, .ok scaledRhs => some (compare scaledLhs scaledRhs)
      | _, _ => some (magnitudeCmpWide a b)
    | _, _ => none
  else some (magnitudeCmpWide a b)

def cmp : Option Ordering :=
  match a.isNegative, b.isNegative with
  | true, false => some .lt
  | false, true => some .gt
  | true, true => (magnitudeCmp a b).map Ordering.swap
  | false, false => magnitudeCmp a b

/-- Sixteen bytes are a `u128`. -/
theorem tailToU128_of_length {bytes : List UInt8} (h : bytes.length ≤ 16) :
    tailToU128 bytes u128Max = .ok (beValue bytes) := by
  have hlt : beValue bytes < 2 ^ 128 :=
    (beValue_lt bytes).trans_le ((Nat.pow_le_pow_right (by norm_num) h).trans (by norm_num))
  have hle : beValue bytes ≤ u128Max := by
    rw [u128Max]
    omega
  rw [tailToU128, ensure_of _ h, ok_bind, ensure_of _ hle]
  rfl

theorem magnitudeCmpWide_eq : magnitudeCmpWide a b = compare a.magnitude b.magnitude := by
  rw [magnitudeCmpWide, cmpB256_eq, mulPow10B256_value, mulPow10B256_value,
    magnitude_eq_scaled (min_le_left a.unit b.unit),
    magnitude_eq_scaled (min_le_right a.unit b.unit), compare_mul_right (by positivity)]

/-- **Every path compares the magnitudes.** -/
theorem magnitudeCmp_eq : magnitudeCmp a b = some (compare a.magnitude b.magnitude) := by
  rw [magnitudeCmp]
  split_ifs with hz hunit hlen
  · -- a zero operand, in whatever form: only whether the other is zero matters
    congr 1
    have hpos : ∀ x : RawAmount, x.isZero = false → 0 < x.magnitude := by
      intro x hx
      refine Nat.pos_of_ne_zero fun h0 => ?_
      rw [(magnitude_eq_zero_iff x).mp h0] at hx
      cases hx
    cases ha : a.isZero with
    | true =>
      rw [(magnitude_eq_zero_iff a).mpr ha]
      cases hb : b.isZero with
      | true =>
        rw [(magnitude_eq_zero_iff b).mpr hb]
        rfl
      | false => exact (compare_lt_iff_lt.mpr (hpos b hb)).symm
    | false =>
      have hb : b.isZero = true := by simpa [ha] using hz
      rw [(magnitude_eq_zero_iff b).mpr hb, hb]
      exact (compare_gt_iff_gt.mpr (hpos a ha)).symm
  · rw [cmpB256_eq, magnitude, magnitude, hunit, compare_mul_right (by positivity)]
  · -- the short mantissas: scaled in a `u128` if both fit
    rw [tailToU128_of_length hlen.1, tailToU128_of_length hlen.2]
    dsimp only
    split
    · next l r hl hr =>
      rw [scaleU128_ok hl, scaleU128_ok hr,
        magnitude_eq_scaled (min_le_left a.unit b.unit),
        magnitude_eq_scaled (min_le_right a.unit b.unit), compare_mul_right (by positivity)]
    · rw [magnitudeCmpWide_eq]
  · rw [magnitudeCmpWide_eq]

theorem compare_neg (x y : ℤ) : compare (-x) (-y) = compare y x := by
  rcases lt_trichotomy x y with h | rfl | h
  · rw [compare_gt_iff_gt.mpr h, compare_gt_iff_gt.mpr (neg_lt_neg h)]
  · rw [compare_eq_iff_eq.mpr rfl, compare_eq_iff_eq.mpr rfl]
  · rw [compare_lt_iff_lt.mpr h, compare_lt_iff_lt.mpr (neg_lt_neg h)]

theorem compare_natCast (m n : ℕ) : compare (m : ℤ) (n : ℤ) = compare m n := by
  rcases lt_trichotomy m n with h | rfl | h
  · rw [compare_lt_iff_lt.mpr h, compare_lt_iff_lt.mpr (by exact_mod_cast h)]
  · rw [compare_eq_iff_eq.mpr rfl, compare_eq_iff_eq.mpr rfl]
  · rw [compare_gt_iff_gt.mpr h, compare_gt_iff_gt.mpr (by exact_mod_cast h)]

theorem cmp_eq : cmp a b = some (compare a.value b.value) := by
  rw [cmp]
  cases ha : a.isNegative with
  | true =>
    have hva := value_of_isNegative ha
    have hpos := magnitude_pos_of_isNegative ha
    cases hb : b.isNegative with
    | true =>
      dsimp only
      rw [hva, value_of_isNegative hb, magnitudeCmp_eq, compare_neg, compare_natCast]
      exact congrArg some Std.OrientedCmp.eq_swap.symm
    | false =>
      have hvb := value_of_not_isNegative hb
      exact congrArg some (compare_lt_iff_lt.mpr (by omega)).symm
  | false =>
    have hva := value_of_not_isNegative ha
    cases hb : b.isNegative with
    | true =>
      have hvb := value_of_isNegative hb
      have hpos := magnitude_pos_of_isNegative hb
      exact congrArg some (compare_gt_iff_gt.mpr (by omega)).symm
    | false =>
      dsimp only
      rw [hva, value_of_not_isNegative hb, magnitudeCmp_eq, compare_natCast]

/-- **The order of amounts is numeric**, for any fields and on every path, without a panic; so it is
total and transitive. -/
theorem raw_amount_cmp_numeric (a b c : RawAmount) :
    a.cmp b = some (compare a.value b.value) ∧
    b.cmp a = (a.cmp b).map Ordering.swap ∧
    (a.cmp b = some .eq ↔ a.value = b.value) ∧
    (a.cmp b ≠ some .gt → b.cmp c ≠ some .gt → a.cmp c ≠ some .gt) := by
  rw [cmp_eq, cmp_eq, cmp_eq, cmp_eq]
  refine ⟨rfl, congrArg some Std.OrientedCmp.eq_swap, ?_, ?_⟩
  · rw [Option.some.injEq, compare_eq_iff_eq]
  · intro hab hbc hac
    have hab' : ¬ a.value > b.value := fun h => hab (congrArg some (compare_gt_iff_gt.mpr h))
    have hbc' : ¬ b.value > c.value := fun h => hbc (congrArg some (compare_gt_iff_gt.mpr h))
    have hac' : a.value > c.value := compare_gt_iff_gt.mp (Option.some.inj hac)
    omega

/-- `10:0`, written with a leading zero, and `1:1` are one number; zero has many forms. -/
example : (⟨0, 2, [0, 10], by decide, rfl, by decide⟩ : RawAmount).cmp
    ⟨1, -1, [1], by decide, rfl, by decide⟩ = some .gt ∧
    (⟨7, -1, [0], by decide, rfl, by decide⟩ : RawAmount).cmp
      ⟨0, 0, [], by decide, rfl, by decide⟩ = some .eq := by decide

/-! ## Unit conversion (amount.rs:371–459) -/

def toUnitU128 (baseUnit : ℕ) : Ret ℕ := do
  ensure (a.isNegative = false) (.fault "amount overflow unit u128")
  if baseUnit ≤ a.unit then do
    let magnitude ← tailToU128 a.byte u128Max
    scaleU128 magnitude (a.unit - baseUnit) u128Max
  else if a.byte.length ≤ 16 then do
    let magnitude ← tailToU128 a.byte u128Max
    -- `10 ^ 39` is no `u128`, and larger than every mantissa that is one
    if 38 < baseUnit - a.unit then return 0
    else return magnitude / 10 ^ (baseUnit - a.unit)
  else tailToU128 (divPow10B256 a.byte (baseUnit - a.unit)) u128Max

/-- The loop of `is_exact_unit` over a wide mantissa. -/
def exactLoop : (k : ℕ) → List UInt8 → Bool
  | 0, _ => true
  | k + 1, magnitude =>
    let (quotient, rem) := divmodU64B256 magnitude 10
    if rem ≠ 0 then false else if quotient = [] then true else exactLoop k quotient

def isExactUnit (baseUnit : ℕ) : Ret Bool := do
  ensure (a.isNegative = false) (.fault "amount cannot be negative")
  if a.isZero || decide (baseUnit ≤ a.unit) then return true
  else if a.byte.length ≤ 16 then do
    let magnitude ← tailToU128 a.byte u128Max
    if 38 < baseUnit - a.unit then return false
    else return decide (magnitude % 10 ^ (baseUnit - a.unit) = 0)
  else return exactLoop (baseUnit - a.unit) a.byte

theorem exactLoop_eq : ∀ (k : ℕ) (bytes : List UInt8),
    exactLoop k bytes = decide (10 ^ k ∣ beValue bytes)
  | 0, bytes => by simp [exactLoop]
  | k + 1, bytes => by
    obtain ⟨hquot, hrem⟩ := divmodU64B256_value (show 0 < 10 by norm_num) bytes
    have hdvd : 10 ^ (k + 1) ∣ beValue bytes ↔
        beValue bytes % 10 = 0 ∧ 10 ^ k ∣ beValue bytes / 10 := by
      rw [pow_succ']
      constructor
      · intro h
        have hten : 10 ∣ beValue bytes := (Dvd.intro _ rfl).trans h
        exact ⟨Nat.mod_eq_zero_of_dvd hten, Nat.dvd_div_of_mul_dvd h⟩
      · rintro ⟨hmod, h⟩
        obtain ⟨q, hq⟩ := h
        refine ⟨q, ?_⟩
        rw [mul_assoc, ← hq, Nat.mul_div_cancel' (Nat.dvd_of_mod_eq_zero hmod)]
    rw [exactLoop]
    dsimp only
    rw [hrem]
    by_cases hmod : beValue bytes % 10 = 0
    · rw [if_neg (not_not.mpr hmod)]
      split_ifs with hnil
      · -- nothing is left: the number was zero
        have hzero : beValue bytes / 10 = 0 := by
          rw [← hquot, hnil]
          rfl
        have : beValue bytes = 0 := by omega
        rw [this]
        simp
      · rw [exactLoop_eq k, hquot]
        exact decide_eq_decide.mpr ⟨fun h => hdvd.mpr ⟨hmod, h⟩, fun h => (hdvd.mp h).2⟩
    · rw [if_pos hmod]
      exact (decide_eq_false fun h => hmod (hdvd.mp h).1).symm

end RawAmount

/-! ## On canonical amounts -/

namespace Amount

/-- A mantissa without a leading zero is a `u128` exactly if its number is. -/
theorem tailToU128_eq {bytes : List UInt8} (h : bytes.head? ≠ some 0) :
    tailToU128 bytes u128Max = if beValue bytes ≤ u128Max then .ok (beValue bytes)
      else .error (.fault "amount computing size overflow") := by
  by_cases hlen : bytes.length ≤ 16
  · have hok := tailToU128_of_length hlen
    rw [hok, if_pos]
    by_contra hgt
    rw [tailToU128, ensure_of _ hlen, ok_bind, ensure, if_neg hgt] at hok
    cases hok
  · have hgt : ¬ beValue bytes ≤ u128Max := by
      intro hle
      refine hlen (length_le_of_beValue_lt h (hle.trans_lt ?_))
      rw [u128Max]
      norm_num
    rw [tailToU128, ensure, if_neg hlen, if_neg hgt]
    rfl

/-- A positive number is scaled exactly if the product is a `u128`. -/
theorem scaleU128_eq {v exp : ℕ} (h : 0 < v ∨ exp = 0) :
    scaleU128 v exp u128Max = if v * 10 ^ exp ≤ u128Max then .ok (v * 10 ^ exp)
      else .error (.fault "amount computing size overflow") := by
  rw [scaleU128]
  by_cases hten : 10 ^ exp ≤ u128Max
  · rw [ensure_of _ hten, ok_bind]
    by_cases hle : v * 10 ^ exp ≤ u128Max
    · rw [ensure_of _ ⟨hle, hle⟩, if_pos hle]
      rfl
    · rw [ensure, if_neg (fun h => hle h.1), if_neg hle]
      rfl
  · -- the power alone is too large, and the factor is not zero
    have hv : 0 < v := by
      refine h.resolve_right ?_
      rintro rfl
      exact hten (by decide)
    have hle : ¬ v * 10 ^ exp ≤ u128Max :=
      fun hle => hten ((Nat.le_mul_of_pos_left _ hv).trans hle)
    rw [ensure, if_neg hten, if_neg hle]
    rfl

theorem magnitude_div {a : Amount} {u : ℕ} (h : a.unit ≤ u) :
    a.magnitude / 10 ^ u = beValue a.byte / 10 ^ (u - a.unit) := by
  have hpow : 10 ^ u = 10 ^ (u - a.unit) * 10 ^ a.unit := by
    rw [← pow_add, Nat.sub_add_cancel h]
  rw [magnitude, hpow, Nat.mul_div_mul_right _ _ (by positivity)]

/-- Dividing by a smaller unit is exact. -/
theorem magnitude_div_of_le {a : Amount} {u : ℕ} (h : u ≤ a.unit) :
    a.magnitude / 10 ^ u = beValue a.byte * 10 ^ (a.unit - u) := by
  rw [magnitude_eq_scaled a h, Nat.mul_div_cancel _ (by positivity)]

/-- The conversion is the floor, on every path. -/
theorem raw_toUnitU128_eq {a : Amount} (hneg : a.isNegative = false) (u : ℕ) :
    a.raw.toUnitU128 u = if a.magnitude / 10 ^ u ≤ u128Max then .ok (a.magnitude / 10 ^ u)
      else .error (.fault "amount computing size overflow") := by
  have hraw : a.raw.isNegative = false := hneg
  rw [RawAmount.toUnitU128, ensure_of _ hraw, ok_bind]
  show (if u ≤ a.unit then _ else if a.byte.length ≤ 16 then _ else _) = _
  by_cases hle : u ≤ a.unit
  · rw [if_pos hle, magnitude_div_of_le hle]
    show (tailToU128 a.byte u128Max >>= fun m => scaleU128 m (a.unit - u) u128Max) = _
    rw [tailToU128_eq a.head_ne]
    by_cases hm : beValue a.byte ≤ u128Max
    · rw [if_pos hm, ok_bind]
      refine scaleU128_eq ?_
      rcases Nat.eq_zero_or_pos (beValue a.byte) with h0 | hpos
      · -- zero is written with the unit zero
        have hz : a.isZero = true := (all_zero_iff a.byte).mpr h0
        have := a.zero_unit ((isZero_iff a).mp hz)
        exact Or.inr (by omega)
      · exact Or.inl hpos
    · have hgt : ¬ beValue a.byte * 10 ^ (a.unit - u) ≤ u128Max :=
        fun h => hm ((Nat.le_mul_of_pos_right _ (by positivity)).trans h)
      rw [if_neg hm, if_neg hgt]
      rfl
  · rw [if_neg hle, magnitude_div (by omega)]
    by_cases hlen : a.byte.length ≤ 16
    · have htail := tailToU128_of_length hlen
      have hm : beValue a.byte ≤ u128Max := by
        rw [tailToU128_eq a.head_ne] at htail
        by_contra hgt
        rw [if_neg hgt] at htail
        cases htail
      have hdiv : beValue a.byte / 10 ^ (u - a.unit) ≤ u128Max := (Nat.div_le_self _ _).trans hm
      rw [if_pos hlen, if_pos hdiv]
      show (tailToU128 a.byte u128Max >>= fun m => if 38 < u - a.unit then pure 0
        else pure (m / 10 ^ (u - a.unit)) : Ret ℕ) = _
      rw [htail, ok_bind]
      split_ifs with hk
      · have hsmall : beValue a.byte < 10 ^ (u - a.unit) := by
          refine lt_of_lt_of_le (hm.trans_lt ?_) (Nat.pow_le_pow_right (by norm_num) hk)
          rw [u128Max]
          norm_num
        rw [Nat.div_eq_of_lt hsmall]
        rfl
      · rfl
    · rw [if_neg hlen]
      show tailToU128 (divPow10B256 a.byte (u - a.unit)) u128Max = _
      rw [tailToU128_eq (divPow10B256_head _ _), divPow10B256_value]

/-- The test is divisibility, on every path. -/
theorem raw_isExactUnit_eq {a : Amount} (hneg : a.isNegative = false) (u : ℕ) :
    a.raw.isExactUnit u = .ok (decide (10 ^ u ∣ a.magnitude)) := by
  have hraw : a.raw.isNegative = false := hneg
  rw [isExactUnit, ensure_of _ hraw, ok_bind]
  show (if a.isZero || decide (u ≤ a.unit) then _ else if a.byte.length ≤ 16 then _ else _) = _
  by_cases hle : u ≤ a.unit
  · have hdvd : 10 ^ u ∣ a.magnitude := (pow_dvd_pow 10 hle).mul_left _
    rw [if_pos (by simp [hle]), decide_eq_true hdvd]
    rfl
  cases hz : a.isZero with
  | true =>
    rw [magnitude_of_isZero hz]
    simp
    rfl
  | false =>
    have hpos := (not_isZero_iff a).mp hz
    have hdvd : 10 ^ u ∣ a.magnitude ↔ 10 ^ (u - a.unit) ∣ beValue a.byte := by
      have hpow : 10 ^ u = 10 ^ (u - a.unit) * 10 ^ a.unit := by
        rw [← pow_add, Nat.sub_add_cancel (by omega)]
      rw [magnitude, hpow]
      exact Nat.mul_dvd_mul_iff_right (by positivity)
    rw [if_neg (by simp [hle]), decide_eq_decide.mpr hdvd]
    by_cases hlen : a.byte.length ≤ 16
    · rw [if_pos hlen]
      show (tailToU128 a.byte u128Max >>= fun m => if 38 < u - a.unit then pure false
        else pure (decide (m % 10 ^ (u - a.unit) = 0)) : Ret Bool) = _
      rw [tailToU128_of_length hlen, ok_bind]
      split_ifs with hk
      · have hsmall : beValue a.byte < 10 ^ (u - a.unit) := by
          refine lt_of_lt_of_le (beValue_lt a.byte) ?_
          refine (Nat.pow_le_pow_right (by norm_num) hlen).trans ?_
          exact le_trans (by norm_num) (Nat.pow_le_pow_right (show 0 < 10 by norm_num) hk)
        rw [decide_eq_false fun h => absurd (Nat.le_of_dvd hpos h) (by omega)]
        rfl
      · rw [decide_eq_decide.mpr (Nat.dvd_iff_mod_eq_zero ..)]
        rfl
    · rw [if_neg hlen]
      show Except.ok (exactLoop (u - a.unit) a.byte) = _
      rw [exactLoop_eq]

/-- **Unit conversion is exact.** `to_unit_u128` returns the floor if it is a `u128` and an error if
not, and `is_exact_unit` says whether the unit divides the amount. -/
theorem unit_conversion_exact (a : Amount) (ha : 0 ≤ a.value) (u : ℕ) :
    (a.value / 10 ^ u ≤ u128Max → a.raw.toUnitU128 u = .ok (a.value / 10 ^ u).toNat) ∧
    (u128Max < a.value / 10 ^ u → ∃ e, a.raw.toUnitU128 u = .error e) ∧
    a.raw.isExactUnit u = .ok (decide ((10 : ℤ) ^ u ∣ a.value)) := by
  have hneg : a.isNegative = false := by
    rw [← Bool.not_eq_true, isNegative_iff]
    omega
  have hfloor : a.value / 10 ^ u = (a.magnitude / 10 ^ u : ℕ) := by
    rw [value_of_not_isNegative hneg]
    norm_cast
  rw [raw_toUnitU128_eq hneg, raw_isExactUnit_eq hneg, hfloor]
  refine ⟨?_, ?_, ?_⟩
  · intro hle
    rw [if_pos (by exact_mod_cast hle), Int.toNat_natCast]
  · intro hgt
    rw [if_neg (by rw [not_le]; exact_mod_cast hgt)]
    exact ⟨_, rfl⟩
  · rw [value_of_not_isNegative hneg]
    congr 1
    refine decide_eq_decide.mpr ?_
    norm_cast

/-- What is below the unit is dropped. -/
theorem unit_conversion_exact_sample :
    (coinU128 12345 240).raw.toUnitU128 241 = .ok 1234 ∧
      (coinU128 12345 240).raw.isExactUnit 241 = .ok false := by
  obtain ⟨hok, -, hexact⟩ := unit_conversion_exact (coinU128 12345 240) (by decide +kernel) 241
  refine ⟨(hok (by decide +kernel)).trans (by decide +kernel), hexact.trans (by decide +kernel)⟩

theorem raw_cmp (a b : Amount) : a.raw.cmp b.raw = some (a.cmp b) := by
  rw [RawAmount.cmp_eq, Amount.cmp_eq]
  rfl

theorem raw_toUnitU128 (a : Amount) (u : ℕ) : a.raw.toUnitU128 u = a.toUnitU128 u := by
  rw [RawAmount.toUnitU128, toUnitU128]
  congr 1
  funext _
  show (if u ≤ a.unit then _ else if a.byte.length ≤ 16 then _
      else tailToU128 (divPow10B256 a.byte (u - a.unit)) u128Max)
    = if u ≤ a.unit then _ else if a.byte.length ≤ 16 then _ else _
  refine if_congr Iff.rfl rfl (if_congr Iff.rfl rfl ?_)
  rw [tailToU128_eq (divPow10B256_head _ _), divPow10B256_value]
  dsimp only
  split_ifs with h
  · rw [ensure_of _ h]
    rfl
  · rw [ensure, if_neg h]
    rfl

end Amount

end Hacash
