import Hacash.Field.RawAmount

/-!
# Arithmetic of amounts (`field`, amount.rs:462–577)

Mantissas are brought to the smaller unit and combined in a `u64` or `u128`. **Key results**:
`amount_arith_exact_or_fails` and `compress_bounds`.
-/

namespace Hacash

open Lib

namespace Amount

/-! ## Addition and subtraction -/

/-- The mantissa brought to a smaller unit. -/
def mantissaScaled (a : Amount) (base : ℕ) : ℕ := beValue a.byte * 10 ^ (a.unit - base)

/-- The width the arithmetic runs in. -/
inductive WidthMode where
  | u64
  | u128
  deriving DecidableEq

namespace WidthMode

/-- The largest integer of the width. -/
def max : WidthMode → ℕ
  | u64 => u64Max
  | u128 => u128Max

/-- `add_mode_u64`, `add_mode_u128`. -/
def add : WidthMode → Amount → Amount → Ret Amount
  | u64 => addModeU64
  | u128 => addModeU128

/-- `sub_mode_u64`, `sub_mode_u128`. -/
def sub : WidthMode → Amount → Amount → Ret Amount
  | u64 => subModeU64
  | u128 => subModeU128

theorem add_eq (mode : WidthMode) (a b : Amount) :
    mode.add a b = a.computeUnsigned b mode.max true := by
  cases mode <;> rfl

theorem sub_eq (mode : WidthMode) (a b : Amount) :
    mode.sub a b = a.computeUnsigned b mode.max false := by
  cases mode <;> rfl

theorem max_le (mode : WidthMode) : mode.max ≤ u128Max := by
  cases mode
  · decide
  · exact le_rfl

end WidthMode

theorem le_mantissaScaled (a : Amount) (base : ℕ) : beValue a.byte ≤ a.mantissaScaled base :=
  Nat.le_mul_of_pos_right _ (by positivity)

variable {a : Amount} {limit v btn : ℕ}

/-- A mantissa within the limit is read. -/
theorem tailToU128_isOk (hlimit : limit ≤ u128Max)
    (h : beValue a.byte ≤ limit) : tailToU128 a.byte limit = .ok (beValue a.byte) := by
  have hlen : a.byte.length ≤ 16 := by
    refine length_le_of_beValue_lt a.head_ne (h.trans_lt (hlimit.trans_lt ?_))
    rw [u128Max]
    norm_num
  rw [tailToU128, ensure_of _ hlen, ok_bind, ensure_of _ h]
  rfl

theorem mantissaAt_eq {base : ℕ} (hz : a.isZero = false)
    (hlimit : limit ≤ u128Max) (hbase : base ≤ a.unit) (h : a.mantissaScaled base ≤ limit) :
    a.mantissaAt base limit (beValue a.byte) = .ok (a.mantissaScaled base) := by
  rw [mantissaAt]
  split_ifs with hlt
  · have hten : 10 ^ (a.unit - base) ≤ a.mantissaScaled base :=
      Nat.le_mul_of_pos_left _ ((not_isZero_iff a).mp hz)
    rw [mantissaScaled] at h hten ⊢
    rw [scaleU128, ensure_of _ (by omega), ok_bind, ensure_of _ ⟨by omega, h⟩]
    rfl
  · have : a.unit - base = 0 := by omega
    rw [mantissaScaled, this, pow_zero, mul_one]

/-- Magnitudes at a common unit. -/
theorem magnitude_eq_mantissaScaled {base : ℕ} (h : base ≤ a.unit) :
    a.magnitude = a.mantissaScaled base * 10 ^ base := magnitude_eq_scaled a h

theorem computeUnsigned_isOk {b : Amount} {add : Bool}
    (hna : a.isNegative = false) (hnb : b.isNegative = false) (hlimit : limit ≤ u128Max)
    (ha : a.mantissaScaled (min a.unit b.unit) ≤ limit)
    (hb : b.mantissaScaled (min a.unit b.unit) ≤ limit)
    (hop : if add then a.mantissaScaled (min a.unit b.unit)
        + b.mantissaScaled (min a.unit b.unit) ≤ limit
      else b.value ≤ a.value) : ∃ c, a.computeUnsigned b limit add = .ok c := by
  have hva := value_of_not_isNegative hna
  have hvb := value_of_not_isNegative hnb
  rw [computeUnsigned, ensure_of _ ⟨hna, hnb⟩, ok_bind]
  cases hza : a.isZero with
  | true =>
    rw [if_pos rfl]
    have hcond : (add || b.isZero) = true := by
      cases add with
      | true => rfl
      | false =>
        -- the difference from zero is not negative, so nothing is taken away
        have hle : b.value ≤ a.value := hop
        rw [Bool.false_or]
        by_contra hzb
        have := magnitude_pos (Bool.not_eq_true _ ▸ hzb : b.isZero = false)
        rw [hva, magnitude_of_isZero hza] at hle
        omega
    rw [if_pos hcond]
    exact ⟨b, rfl⟩
  | false =>
    rw [if_neg Bool.false_ne_true]
    cases hzb : b.isZero with
    | true => exact ⟨a, rfl⟩
    | false =>
      rw [if_neg Bool.false_ne_true,
        tailToU128_isOk hlimit ((le_mantissaScaled a _).trans ha), ok_bind,
        tailToU128_isOk hlimit ((le_mantissaScaled b _).trans hb), ok_bind]
      dsimp only
      rw [mantissaAt_eq hza hlimit (min_le_left _ _) ha, ok_bind,
        mantissaAt_eq hzb hlimit (min_le_right _ _) hb, ok_bind]
      suffices hchecked : ∃ v, checkedOp add (a.mantissaScaled (min a.unit b.unit))
          (b.mantissaScaled (min a.unit b.unit)) limit = .ok v by
        obtain ⟨v, hv⟩ := hchecked
        exact ⟨_, by rw [hv, ok_bind]; rfl⟩
      cases add with
      | true =>
        have hsum : a.mantissaScaled (min a.unit b.unit) + b.mantissaScaled (min a.unit b.unit)
          ≤ limit := hop
        refine ⟨a.mantissaScaled (min a.unit b.unit) + b.mantissaScaled (min a.unit b.unit), ?_⟩
        rw [checkedOp, if_pos rfl, ensure_of _ ⟨hsum.trans hlimit, hsum⟩]
        rfl
      | false =>
        have hle : b.value ≤ a.value := hop
        have hba : b.mantissaScaled (min a.unit b.unit) ≤ a.mantissaScaled (min a.unit b.unit) := by
          refine Nat.le_of_mul_le_mul_right ?_
            (show 0 < 10 ^ min a.unit b.unit by positivity)
          rw [← magnitude_eq_mantissaScaled (min_le_left _ _),
            ← magnitude_eq_mantissaScaled (min_le_right _ _)]
          omega
        refine ⟨a.mantissaScaled (min a.unit b.unit) - b.mantissaScaled (min a.unit b.unit), ?_⟩
        rw [checkedOp, if_neg Bool.false_ne_true, ensure_of _ ⟨hba, by omega⟩]
        rfl

/-- **Addition and subtraction are exact or fail.** On amounts that are not negative a result is
exact; a negative difference fails; and otherwise a failure means that a mantissa at the smaller
unit, or the sum, does not fit the width. -/
theorem amount_arith_exact_or_fails (mode : WidthMode) (a b : Amount) (ha : 0 ≤ a.value)
    (hb : 0 ≤ b.value) :
    (∀ c, mode.add a b = .ok c → c.value = a.value + b.value) ∧
    (∀ c, mode.sub a b = .ok c → c.value = a.value - b.value) ∧
    (a.value < b.value → ∃ e, mode.sub a b = .error e) ∧
    (∀ e, mode.add a b = .error e →
      mode.max < a.mantissaScaled (min a.unit b.unit) ∨
      mode.max < b.mantissaScaled (min a.unit b.unit) ∨
      mode.max < a.mantissaScaled (min a.unit b.unit) + b.mantissaScaled (min a.unit b.unit)) ∧
    (∀ e, mode.sub a b = .error e → a.value < b.value ∨
      mode.max < a.mantissaScaled (min a.unit b.unit) ∨
      mode.max < b.mantissaScaled (min a.unit b.unit)) := by
  have hneg : ∀ x : Amount, 0 ≤ x.value → x.isNegative = false := by
    intro x hx
    rw [← Bool.not_eq_true, isNegative_iff]
    omega
  rw [mode.add_eq, mode.sub_eq]
  refine ⟨?_, ?_, ?_, ?_, ?_⟩
  · intro c h
    exact (computeUnsigned_add_value h).2.2
  · intro c h
    exact (computeUnsigned_sub_value mode.max_le h).2.2
  · intro hlt
    cases h : a.computeUnsigned b mode.max false with
    | error e => exact ⟨e, rfl⟩
    | ok c =>
      obtain ⟨-, hc, hdiff⟩ := computeUnsigned_sub_value mode.max_le h
      omega
  · intro e h
    by_contra hfits
    rw [not_or, not_or, not_lt, not_lt, not_lt] at hfits
    obtain ⟨c, hc⟩ := computeUnsigned_isOk (hneg a ha) (hneg b hb) mode.max_le hfits.1
      hfits.2.1 (show if true then _ else _ from hfits.2.2)
    rw [h] at hc
    cases hc
  · intro e h
    by_contra hfits
    rw [not_or, not_or, not_lt, not_lt, not_lt] at hfits
    obtain ⟨c, hc⟩ := computeUnsigned_isOk (hneg a ha) (hneg b hb) mode.max_le hfits.2.1
      hfits.2.2 (show if false then _ else _ from hfits.1)
    rw [h] at hc
    cases hc

/-- A sum within the width, and one whose first mantissa does not fit at the smaller unit. -/
theorem amount_arith_exact_or_fails_sample :
    (coinU128 125 246).value = (coinU128 1 248).value + (coinU128 25 246).value ∧
    (u64Max < (coinU128 1 248).mantissaScaled 228 ∨ u64Max < (coinU128 1 228).mantissaScaled 228 ∨
      u64Max < (coinU128 1 248).mantissaScaled 228 + (coinU128 1 228).mantissaScaled 228) := by
  obtain ⟨hadd, -⟩ := amount_arith_exact_or_fails .u64 (coinU128 1 248) (coinU128 25 246)
    (by decide +kernel) (by decide +kernel)
  obtain ⟨-, -, -, herr, -⟩ := amount_arith_exact_or_fails .u64 (coinU128 1 248) (coinU128 1 228)
    (by decide +kernel) (by decide +kernel)
  exact ⟨hadd _ (by decide +kernel),
    herr (.fault "amount computing size overflow") (by decide +kernel)⟩

/-! ## Other functions that return an amount -/

/-- `unit_sub`: the unit lowered. Zero has the unit zero, so it is not lowered. -/
def unitSub (a : Amount) (sub : ℕ) : Ret Amount :=
  if hsub : sub = 0 then .ok a
  else if hlt : a.unit < sub then errf "unit_sub failed: unit must be greater than"
  else .ok
    { a with
      unit := a.unit - sub
      unit_lt := lt_of_le_of_lt (Nat.sub_le _ _) a.unit_lt
      zero_unit := fun h => by
        have := a.zero_unit h
        omega }

/-! ## Amounts with a given mantissa -/

/-- The struct of a unit and mantissa bytes without a leading zero, with a sign. -/
def ofMantissa (negative : Bool) (unit : ℕ) (byte : List UInt8) : Amount :=
  if h : unit < 256 ∧ byte.length ≤ 127 ∧ byte.head? ≠ some 0 ∧ byte ≠ [] then
    { unit := unit
      dist := if negative then -(byte.length : ℤ) else byte.length
      byte := byte
      unit_lt := h.1
      dist_byte := by split_ifs <;> simp
      byte_le := h.2.1
      head_ne := h.2.2.1
      zero_unit := fun hnil => absurd hnil h.2.2.2 }
  else zero

theorem ofMantissa_eq {negative : Bool} {unit : ℕ} {byte : List UInt8}
    (h : unit < 256 ∧ byte.length ≤ 127 ∧ byte.head? ≠ some 0 ∧ byte ≠ []) :
    (ofMantissa negative unit byte).unit = unit ∧ (ofMantissa negative unit byte).byte = byte ∧
      (ofMantissa negative unit byte).dist
        = if negative then -(byte.length : ℤ) else byte.length := by
  rw [ofMantissa, dif_pos h]
  exact ⟨rfl, rfl, rfl⟩

theorem ofMantissa_value {negative : Bool} {unit : ℕ} {byte : List UInt8}
    (h : unit < 256 ∧ byte.length ≤ 127 ∧ byte.head? ≠ some 0 ∧ byte ≠ []) :
    (ofMantissa negative unit byte).value
      = (if negative then -1 else 1) * (beValue byte * 10 ^ unit : ℕ) := by
  obtain ⟨hunit, hbyte, hdist⟩ := @ofMantissa_eq negative unit byte h
  have hlen : 0 < byte.length := List.length_pos_of_ne_nil h.2.2.2
  rw [value, hunit, hbyte, hdist]
  cases negative with
  | true =>
    rw [if_pos rfl, if_pos rfl, Int.sign_eq_neg_one_of_neg (by omega)]
  | false =>
    rw [if_neg Bool.false_ne_true, if_neg Bool.false_ne_true,
      Int.sign_eq_one_of_pos (by omega)]

/-- The bytes of a positive `u128` make an amount. -/
theorem u128_mantissa (hpos : 0 < v) (hv : v ≤ u128Max) :
    beValue (dropLeftZero (beBytes 16 v)) = v ∧ (dropLeftZero (beBytes 16 v)).length ≤ 16 ∧
      (dropLeftZero (beBytes 16 v)).head? ≠ some 0 ∧ dropLeftZero (beBytes 16 v) ≠ [] := by
  have hvalue : beValue (dropLeftZero (beBytes 16 v)) = v := by
    rw [beValue_dropLeftZero]
    refine beValue_beBytes (hv.trans_lt ?_)
    rw [u128Max]
    norm_num
  refine ⟨hvalue, ?_, head_dropLeftZero _, ?_⟩
  · exact (dropLeftZero_length_le _).trans (by rw [beBytes_length])
  · intro hnil
    rw [hnil, beValue_nil] at hvalue
    omega

/-! ## Compression (amount.rs:546–577) -/

/-- `AmtCpr`: what happens to the digit that is dropped. -/
inductive AmtCpr where
  | discard
  | grow
  deriving DecidableEq

def u128ByteLen (v : ℕ) : ℕ := (Nat.size v + 7) / 8

/-- The value after one turn of the loop of `compress`. -/
def AmtCpr.shorten (cpr : AmtCpr) (v : ℕ) : ℕ :=
  match cpr with
  | .discard => v / 10
  | .grow => v / 10 + 1

/-- Either way it is about a tenth. -/
theorem AmtCpr.shorten_bounds (cpr : AmtCpr) (v : ℕ) :
    v / 10 ≤ cpr.shorten v ∧ cpr.shorten v ≤ v / 10 + 1 := by
  cases cpr with
  | discard => exact ⟨le_rfl, Nat.le_succ _⟩
  | grow => exact ⟨Nat.le_succ _, le_rfl⟩

/-- The loop of `compress`; `steps` is `255 - unit`. -/
def compressLoop (btn : ℕ) (cpr : AmtCpr) : (steps v unit : ℕ) → Ret (ℕ × ℕ)
  | 0, v, unit =>
    if btn < u128ByteLen v then errf "amount uint too large to compress" else .ok (v, unit)
  | steps + 1, v, unit =>
    if btn < u128ByteLen v then compressLoop btn cpr steps (cpr.shorten v) (unit + 1)
    else .ok (v, unit)

def compress (a : Amount) (btn : ℕ) (cpr : AmtCpr) : Ret Amount := do
  ensure (¬ a.dist < 0) (.fault "cannot compress negative amount")
  ensure (a.dist.natAbs ≤ 16) (.fault "amount bytes too long to compress")
  let v ← tailToU128 a.byte u128Max
  let (v, unit) ← compressLoop btn cpr (255 - a.unit) v a.unit
  if v = 0 then return zero
  else return ofMantissa false unit (dropLeftZero (beBytes 16 v))

theorem u128ByteLen_le_iff : u128ByteLen v ≤ btn ↔ v < 256 ^ btn := by
  have hpow : (256 : ℕ) ^ btn = 2 ^ (8 * btn) := by
    rw [pow_mul]
    norm_num
  rw [u128ByteLen, hpow, ← Nat.size_le]
  omega

/-- **What the loop does**: it stops with a value that fits, and a turn changes the value by less
than a unit, or by at most one when it rounds up. The excess of rounding up is `10 + 100 + ⋯`. -/
theorem compressLoop_ok {cpr : AmtCpr} (hbtn : 1 ≤ btn) : ∀ {steps v unit v' unit' : ℕ},
    compressLoop btn cpr steps v unit = .ok (v', unit') →
    ∃ k, unit' = unit + k ∧ k ≤ steps ∧ v' < 256 ^ btn ∧ (0 < v → 0 < v') ∧ v' ≤ v ∧
      (v < 256 ^ btn → k = 0 ∧ v' = v) ∧
      (cpr = .discard → v' * 10 ^ k ≤ v ∧ v < (v' + 1) * 10 ^ k) ∧
      (cpr = .grow → v ≤ v' * 10 ^ k ∧ 9 * (v' * 10 ^ k) + 10 ≤ 9 * v + 10 * 10 ^ k) := by
  intro steps
  induction steps with
  | zero =>
    intro v unit v' unit' h
    rw [compressLoop] at h
    split_ifs at h with hlong
    · cases h
    · cases h
      rw [not_lt, u128ByteLen_le_iff] at hlong
      refine ⟨0, rfl, le_rfl, hlong, id, by omega, fun _ => ⟨rfl, rfl⟩, fun _ => ?_, fun _ => ?_⟩
      · omega
      · omega
  | succ steps ih =>
    intro v unit v' unit' h
    rw [compressLoop] at h
    split_ifs at h with hlong
    · have hlong' : 256 ^ btn ≤ v := by
        rw [← not_lt, ← u128ByteLen_le_iff]
        omega
      have hbig : 256 ≤ v := (Nat.pow_le_pow_right (by norm_num) hbtn).trans hlong'
      obtain ⟨k, rfl, hk, hfits, hpos, hle, -, hdiscard, hgrow⟩ := ih h
      obtain ⟨hshort, hshort'⟩ := cpr.shorten_bounds v
      refine ⟨k + 1, by omega, by omega, hfits, fun _ => hpos (by omega), by omega, ?_, ?_, ?_⟩
      · intro hlt
        omega
      · rintro rfl
        obtain ⟨hlo, hhi⟩ := hdiscard rfl
        rw [AmtCpr.shorten] at hlo hhi
        rw [pow_succ, ← mul_assoc, ← mul_assoc]
        constructor
        · omega
        · omega
      · rintro rfl
        obtain ⟨hlo, hhi⟩ := hgrow rfl
        rw [AmtCpr.shorten] at hlo hhi
        rw [pow_succ, ← mul_assoc]
        constructor
        · omega
        · omega
    · cases h
      rw [not_lt, u128ByteLen_le_iff] at hlong
      refine ⟨0, rfl, Nat.zero_le _, hlong, id, by omega, fun _ => ⟨rfl, rfl⟩, fun _ => ?_,
        fun _ => ?_⟩
      · omega
      · omega

theorem tailToU128_le {bytes : List UInt8} (h : tailToU128 bytes limit = .ok v) :
    beValue bytes ≤ limit := by
  replace h := ensure_drop h
  exact (ensure_bind_iff.mp h).1

/-- The amount a value of the loop stands for. -/
theorem compress_ok {r : Amount} {cpr : AmtCpr} (hbtn : 1 ≤ btn) (h : a.compress btn cpr = .ok r) :
    a.isNegative = false ∧ ∃ v' k,
      (a.byte.length ≤ btn → r = a) ∧ r.byte.length ≤ btn ∧ 10 ^ a.unit * 10 ^ k ≤ 10 ^ r.unit ∧
      r.value = (v' * 10 ^ k * 10 ^ a.unit : ℕ) ∧
      (cpr = .discard → v' * 10 ^ k ≤ beValue a.byte ∧ beValue a.byte < (v' + 1) * 10 ^ k) ∧
      (cpr = .grow → beValue a.byte ≤ v' * 10 ^ k ∧
        9 * (v' * 10 ^ k) + 10 ≤ 9 * beValue a.byte + 10 * 10 ^ k) := by
  obtain ⟨hdist, h⟩ := ensure_bind_iff.mp h
  obtain ⟨hlen, h⟩ := ensure_bind_iff.mp h
  obtain ⟨v, hv, h⟩ := bind_eq_ok h
  obtain ⟨⟨v', unit'⟩, hloop, h⟩ := bind_eq_ok h
  rw [tailToU128_ok hv] at hloop
  obtain ⟨k, rfl, hk, hfits, hpos, hle, hsame, hdiscard, hgrow⟩ := compressLoop_ok hbtn hloop
  have hneg : a.isNegative = false := by
    rw [isNegative, decide_eq_false hdist]
    rfl
  refine ⟨hneg, v', k, ?_⟩
  dsimp only at h
  split_ifs at h with hzero
  · -- only zero is shortened to zero
    cases h
    have hv0 : beValue a.byte = 0 := by
      by_contra hne
      have := hpos (Nat.pos_of_ne_zero hne)
      omega
    have ha : a = zero := eq_zero_of_isZero ((all_zero_iff a.byte).mpr hv0)
    refine ⟨fun _ => ha.symm, Nat.zero_le _, ?_, ?_, hdiscard, hgrow⟩
    · obtain ⟨rfl, -⟩ := hsame (by rw [hv0]; positivity)
      rw [ha, pow_zero, mul_one]
    · rw [hzero]
      simp
  · cases h
    obtain ⟨hvalue, hlen', hhead, hne⟩ :=
      u128_mantissa (Nat.pos_of_ne_zero hzero) (hle.trans (tailToU128_le hv))
    have hfields : a.unit + k < 256 ∧ (dropLeftZero (beBytes 16 v')).length ≤ 127 ∧
        (dropLeftZero (beBytes 16 v')).head? ≠ some 0 ∧ dropLeftZero (beBytes 16 v') ≠ [] :=
      ⟨by have := a.unit_lt; omega, by omega, hhead, hne⟩
    obtain ⟨hunit, hbyte, hrdist⟩ := @ofMantissa_eq false _ _ hfields
    refine ⟨?_, ?_, ?_, ?_, hdiscard, hgrow⟩
    · intro hshort
      obtain ⟨rfl, rfl⟩ := hsame ((beValue_lt a.byte).trans_le
        (Nat.pow_le_pow_right (by norm_num) hshort))
      have hbytes : dropLeftZero (beBytes 16 (beValue a.byte)) = a.byte :=
        eq_of_beValue_eq hhead a.head_ne hvalue
      refine eq_of_fields hunit ?_ (hbyte.trans hbytes)
      rw [hrdist, if_neg Bool.false_ne_true, dist_of_not_isNegative hneg, hbytes]
    · rw [hbyte]
      exact length_le_of_beValue_lt hhead (by rw [hvalue]; exact hfits)
    · rw [hunit, pow_add]
    · rw [ofMantissa_value hfields, hvalue, if_neg Bool.false_ne_true, one_mul, pow_add]
      congr 1
      ring

/-- **Bounds of compression.** The mantissa has at most `btn` bytes; rounding up gives no less and
rounding down no more than the amount; one that fits is returned as it is; and the difference is
below one unit of the result rounding down, ten ninths rounding up. -/
theorem compress_bounds (a r : Amount) (btn : ℕ) (cpr : AmtCpr) (hbtn : 1 ≤ btn)
    (h : a.compress btn cpr = .ok r) :
    r.byte.length ≤ btn ∧
    (cpr = .grow → a.value ≤ |r.value|) ∧
    (cpr = .discard → |r.value| ≤ a.value) ∧
    (a.byte.length ≤ btn → r = a) ∧
    (cpr = .discard → |a.value - r.value| < 10 ^ r.unit) ∧
    (cpr = .grow → 9 * |a.value - r.value| < 10 * 10 ^ r.unit) := by
  obtain ⟨hneg, v', k, hsame, hlen, hunit, hr, hdiscard, hgrow⟩ := compress_ok hbtn h
  have ha : a.value = (beValue a.byte * 10 ^ a.unit : ℕ) := value_of_not_isNegative hneg
  have hunit' : ((10 ^ a.unit * 10 ^ k : ℕ) : ℤ) ≤ 10 ^ r.unit := by exact_mod_cast hunit
  have habs : |r.value| = r.value := by
    rw [hr]
    exact abs_of_nonneg (Int.natCast_nonneg _)
  have hten : 0 < 10 ^ a.unit := by positivity
  set v := beValue a.byte
  set x := v' * 10 ^ k with hx
  rw [habs]
  refine ⟨hlen, ?_, ?_, hsame, ?_, ?_⟩
  · intro hcpr
    rw [ha, hr]
    exact_mod_cast Nat.mul_le_mul_right _ (hgrow hcpr).1
  · intro hcpr
    rw [ha, hr]
    exact_mod_cast Nat.mul_le_mul_right _ (hdiscard hcpr).1
  · intro hcpr
    obtain ⟨hlo, hhi⟩ := hdiscard hcpr
    have hdiff : a.value - r.value = ((v - x) * 10 ^ a.unit : ℕ) := by
      rw [ha, hr, Nat.sub_mul, Nat.cast_sub (Nat.mul_le_mul_right _ hlo)]
    have hlt : (v - x) * 10 ^ a.unit < 10 ^ a.unit * 10 ^ k := by
      rw [mul_comm (10 ^ a.unit)]
      refine Nat.mul_lt_mul_of_pos_right ?_ hten
      rw [Nat.add_mul, one_mul] at hhi
      omega
    rw [hdiff, abs_of_nonneg (Int.natCast_nonneg _)]
    exact lt_of_lt_of_le (by exact_mod_cast hlt) hunit'
  · intro hcpr
    obtain ⟨hlo, hhi⟩ := hgrow hcpr
    have hdiff : a.value - r.value = -((x - v) * 10 ^ a.unit : ℕ) := by
      rw [ha, hr, Nat.sub_mul, Nat.cast_sub (Nat.mul_le_mul_right _ hlo)]
      ring
    have hlt : 9 * ((x - v) * 10 ^ a.unit) < 10 * (10 ^ a.unit * 10 ^ k) := by
      have hx : 9 * (x - v) < 10 * 10 ^ k := by omega
      calc 9 * ((x - v) * 10 ^ a.unit) = 9 * (x - v) * 10 ^ a.unit := by ring
        _ < 10 * 10 ^ k * 10 ^ a.unit := Nat.mul_lt_mul_of_pos_right hx hten
        _ = 10 * (10 ^ a.unit * 10 ^ k) := by ring
    rw [hdiff, abs_neg, abs_of_nonneg (Int.natCast_nonneg _)]
    have hcast : (9 : ℤ) * ((x - v) * 10 ^ a.unit : ℕ) < 10 * (10 ^ a.unit * 10 ^ k : ℕ) := by
      exact_mod_cast hlt
    exact lt_of_lt_of_le hcast (mul_le_mul_of_nonneg_left hunit' (by norm_num))

/-- Two turns of rounding down. -/
theorem compress_bounds_sample :
    (coinU128 655991 238).compress 2 .discard = .ok (coinU128 6559 240) ∧
      |(coinU128 655991 238).value - (coinU128 6559 240).value| <
        10 ^ (coinU128 6559 240).unit := by
  have hok : (coinU128 655991 238).compress 2 .discard = .ok (coinU128 6559 240) := by
    decide +kernel
  obtain ⟨-, -, -, -, hdiff, -⟩ := compress_bounds _ _ 2 .discard (by decide) hok
  exact ⟨hok, hdiff rfl⟩

/-- **Rounding up can be off by more than a unit**: `655991:238` becomes `6561:240`, more than
`1:240` above it. -/
theorem compress_grow_overshoots :
    ∃ a r : Amount, a.compress 2 .grow = .ok r ∧ ¬ |a.value - r.value| < 10 ^ r.unit :=
  ⟨coinU128 655991 238, coinU128 6561 240, by decide +kernel, by decide +kernel⟩

end Amount

end Hacash
