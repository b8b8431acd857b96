import Hacash.Base.Error
import Hacash.Lib.Radix

/-!
# Amounts of HAC (`field`, amount.rs)

A big-endian mantissa, a decimal exponent `unit` and a sign. An amount is an integer number of `10 ^
-248` HAC (`Amount.value`).
-/

namespace Hacash

open Lib Bool List

/-- `u128::MAX`. -/
def u128Max : ℕ := 2 ^ 128 - 1

def unitZhu : ℕ := 240

def dropLeftZero (v : List UInt8) : List UInt8 := v.dropWhile (· == 0)

/-- A canonical amount: no leading zero byte, and one form of zero. -/
structure Amount where
  unit : ℕ
  dist : ℤ
  byte : List UInt8
  unit_lt : unit < 256
  dist_byte : dist.natAbs = byte.length
  byte_le : byte.length ≤ 127
  head_ne : byte.head? ≠ some 0
  zero_unit : byte = [] → unit = 0
  deriving DecidableEq

namespace Amount

def amountStoreMaxSize : ℕ := 12

/-- `UNIT_238`: gas settlement and the ledger totals. -/
def unit238Exp : ℕ := 238

def zero : Amount where
  unit := 0
  dist := 0
  byte := []
  unit_lt := by decide
  dist_byte := rfl
  byte_le := Nat.zero_le _
  head_ne := nofun
  zero_unit _ := rfl

/-- `is_zero`: every mantissa byte is zero. -/
def isZero (a : Amount) : Bool := a.byte.all (· == 0)

def isPositive (a : Amount) : Bool := decide (0 < a.dist) && !a.isZero

def isNegative (a : Amount) : Bool := decide (a.dist < 0) && !a.isZero

/-- The amount in units of `10 ^ -248` HAC. -/
def value (a : Amount) : ℤ := a.dist.sign * (beValue a.byte * 10 ^ a.unit : ℕ)

/-! ## Building amounts -/

/-- The loop of `coin_u128`: zeros at the end move into the unit, up to 255. `steps` is `255 - u`.
-/
def trimTens : (steps v u : ℕ) → ℕ × ℕ
  | 0, v, u => (v, u)
  | steps + 1, v, u => if v % 10 = 0 then trimTens steps (v / 10) (u + 1) else (v, u)

/-- Moving zeros into the unit keeps the number. -/
theorem trimTens_value : ∀ steps v u,
    (trimTens steps v u).1 * 10 ^ (trimTens steps v u).2 = v * 10 ^ u
  | 0, _, _ => rfl
  | steps + 1, v, u => by
    rw [trimTens]
    split_ifs with h
    · rw [trimTens_value steps, pow_succ']
      rw [← mul_assoc, Nat.div_mul_cancel (Nat.dvd_of_mod_eq_zero h)]
    · rfl

theorem trimTens_le : ∀ steps v u, (trimTens steps v u).1 ≤ v
  | 0, _, _ => le_rfl
  | steps + 1, v, u => by
    rw [trimTens]
    split_ifs
    · exact (trimTens_le steps _ _).trans (Nat.div_le_self v 10)
    · exact le_rfl

theorem trimTens_pos : ∀ steps {v} u, 0 < v → 0 < (trimTens steps v u).1
  | 0, _, _, h => h
  | steps + 1, v, u, h => by
    rw [trimTens]
    split_ifs with hmod
    · exact trimTens_pos steps _ (by omega)
    · exact h

theorem trimTens_unit : ∀ steps v u,
    u ≤ (trimTens steps v u).2 ∧ (trimTens steps v u).2 ≤ u + steps
  | 0, _, _ => ⟨le_rfl, le_rfl⟩
  | steps + 1, v, u => by
    rw [trimTens]
    split_ifs
    · have h := trimTens_unit steps (v / 10) (u + 1)
      exact ⟨by omega, by omega⟩
    · exact ⟨le_rfl, by omega⟩

end Amount

/-! ## Mantissa bytes -/

theorem beValue_dropLeftZero (v : List UInt8) : beValue (dropLeftZero v) = beValue v :=
  beValue_stripZeros v

theorem dropLeftZero_length_le (v : List UInt8) : (dropLeftZero v).length ≤ v.length :=
  (dropWhile_sublist _).length_le

theorem head_dropLeftZero (v : List UInt8) : (dropLeftZero v).head? ≠ some 0 :=
  head_stripZeros v

theorem beValue_pos {v : List UInt8} (hne : v ≠ []) (hhead : v.head? ≠ some 0) : 0 < beValue v := by
  cases v with
  | nil => exact absurd rfl hne
  | cons b v =>
    have hb : b.toNat ≠ 0 := by
      intro h0
      exact hhead (congrArg some (UInt8.toNat_inj.mp h0))
    rw [beValue_cons]
    have : 0 < b.toNat * 256 ^ v.length :=
      Nat.mul_pos (Nat.pos_of_ne_zero hb) (by positivity)
    omega

namespace Amount

/-- `coin_u128`: the integer `v` (a `u128`) at the unit `u` (a `u8`). -/
def coinU128 (v u : ℕ) : Amount :=
  if h : 0 < v ∧ v < 2 ^ 128 ∧ u < 256 then
    let p := trimTens (255 - u) v u
    let byte := dropLeftZero (beBytes 16 p.1)
    have hlen : byte.length ≤ 16 := by
      simpa using dropLeftZero_length_le (beBytes 16 p.1)
    have hval : beValue byte = p.1 := by
      rw [beValue_dropLeftZero]
      exact beValue_beBytes ((trimTens_le _ _ _).trans_lt (by norm_num; exact h.2.1))
    { unit := p.2
      dist := byte.length
      byte := byte
      unit_lt := by
        have := (trimTens_unit (255 - u) v u).2
        have := h.2.2
        change (trimTens (255 - u) v u).2 < 256
        omega
      dist_byte := rfl
      byte_le := by omega
      head_ne := head_dropLeftZero _
      zero_unit := by
        intro hnil
        rw [hnil, beValue_nil] at hval
        have : 0 < p.1 := trimTens_pos _ _ h.1
        omega }
  else zero

def unit238 (v : ℕ) : Amount := coinU128 v unit238Exp

/-! ## Sign and value -/

theorem isZero_iff (a : Amount) : a.isZero = true ↔ a.byte = [] := by
  constructor
  · intro h
    by_contra hne
    obtain ⟨b, v, hbv⟩ := exists_cons_of_ne_nil hne
    have hb : b = 0 := by
      rw [isZero, hbv, all_cons, and_eq_true] at h
      simpa using h.1
    exact a.head_ne (by rw [hbv, hb]; rfl)
  · intro h
    rw [isZero, h]
    rfl

theorem not_isZero_iff (a : Amount) : a.isZero = false ↔ 0 < beValue a.byte := by
  rw [← not_eq_true, isZero_iff]
  constructor
  · exact fun h => beValue_pos h a.head_ne
  · intro h hnil
    rw [hnil] at h
    exact absurd h (lt_irrefl 0)

variable {a b rhs c : Amount} {base v u limit : ℕ}

theorem value_of_isZero (h : a.isZero = true) : a.value = 0 := by
  rw [value, (isZero_iff a).mp h]
  simp

/-- The magnitude of the value. -/
def magnitude (a : Amount) : ℕ := beValue a.byte * 10 ^ a.unit

theorem magnitude_pos (h : a.isZero = false) : 0 < a.magnitude :=
  Nat.mul_pos ((not_isZero_iff a).mp h) (by positivity)

theorem magnitude_of_isZero (h : a.isZero = true) : a.magnitude = 0 := by
  rw [magnitude, (isZero_iff a).mp h]
  simp

theorem value_of_isNegative (h : a.isNegative = true) : a.value = -(a.magnitude : ℤ) := by
  rw [isNegative, and_eq_true, decide_eq_true_iff] at h
  rw [value, Int.sign_eq_neg_one_of_neg h.1, neg_one_mul, magnitude]

theorem value_of_not_isNegative (h : a.isNegative = false) : a.value = a.magnitude := by
  rw [isNegative, and_eq_false_iff, decide_eq_false_iff_not] at h
  rcases h with h | h
  · rcases (not_lt.mp h).lt_or_eq with hpos | hzero
    · rw [value, Int.sign_eq_one_of_pos hpos, one_mul, magnitude]
    · have hlen := a.dist_byte
      rw [← hzero] at hlen
      have hz : a.isZero = true :=
        (isZero_iff a).mpr (eq_nil_of_length_eq_zero hlen.symm)
      rw [value_of_isZero hz, magnitude_of_isZero hz]
      rfl
  · have hz : a.isZero = true := by simpa using h
    rw [value_of_isZero hz, magnitude_of_isZero hz]
    rfl

theorem isNegative_iff (a : Amount) : a.isNegative = true ↔ a.value < 0 := by
  cases h : a.isNegative with
  | true =>
    have hz : a.isZero = false := by
      rw [isNegative, and_eq_true] at h
      simpa using h.2
    have := magnitude_pos hz
    rw [value_of_isNegative h]
    simp only [true_iff]
    omega
  | false =>
    rw [value_of_not_isNegative h]
    simp

theorem isPositive_iff (a : Amount) : a.isPositive = true ↔ 0 < a.value := by
  rw [isPositive, and_eq_true, decide_eq_true_iff]
  cases hz : a.isZero with
  | true => simp [value_of_isZero hz]
  | false =>
    have hm := magnitude_pos hz
    rcases lt_trichotomy a.dist 0 with h | h | h
    · rw [value_of_isNegative (by simp [isNegative, h, hz])]
      constructor
      · omega
      · omega
    · have hlen := a.dist_byte
      rw [h] at hlen
      have hnil := (isZero_iff a).mpr (eq_nil_of_length_eq_zero hlen.symm)
      rw [hz] at hnil
      cases hnil
    · have hneg : a.isNegative = false := by
        have : ¬ a.dist < 0 := by omega
        simp [isNegative, this]
      rw [value_of_not_isNegative hneg]
      constructor
      · intro
        omega
      · intro
        exact ⟨h, rfl⟩

theorem magnitude_eq_scaled (a : Amount) (h : base ≤ a.unit) :
    a.magnitude = beValue a.byte * 10 ^ (a.unit - base) * 10 ^ base := by
  rw [magnitude, mul_assoc, ← pow_add, Nat.sub_add_cancel h]

@[simp] theorem zero_value : zero.value = 0 := rfl

/-- `coin_u128` is exact. -/
theorem coinU128_value (hv : v < 2 ^ 128) (hu : u < 256) :
    (coinU128 v u).value = (v * 10 ^ u : ℕ) := by
  rcases Nat.eq_zero_or_pos v with rfl | hpos
  · rw [coinU128, dif_neg (by omega)]
    simp
  · rw [coinU128, dif_pos ⟨hpos, hv, hu⟩]
    have hlt : (trimTens (255 - u) v u).1 < 256 ^ 16 :=
      (trimTens_le _ _ _).trans_lt (by norm_num; exact hv)
    have hbyte : beValue (dropLeftZero (beBytes 16 (trimTens (255 - u) v u).1))
        = (trimTens (255 - u) v u).1 := by
      rw [beValue_dropLeftZero, beValue_beBytes hlt]
    have hlen : 0 < (dropLeftZero (beBytes 16 (trimTens (255 - u) v u).1)).length := by
      apply length_pos_of_ne_nil
      intro hnil
      rw [hnil, beValue_nil] at hbyte
      have := trimTens_pos (255 - u) u hpos
      omega
    simp only [value]
    rw [Int.sign_eq_one_of_pos (by exact_mod_cast hlen), one_mul, hbyte, trimTens_value]

theorem unit238_value (hv : v < 2 ^ 128) :
    (unit238 v).value = (v * 10 ^ 238 : ℕ) := coinU128_value hv (by decide)

/-! ## Normal form

Equality of amounts is equality of the fields: `10:239` and `1:240` are the same number
and not the same amount. `coin_u128` only returns amounts whose mantissa has no trailing
decimal zero left to move into the unit, and of those a number has one. -/

/-- The mantissa does not end in a decimal zero, or the unit cannot be raised. -/
def Normal (a : Amount) : Prop := a.isZero = true ∨ a.unit = 255 ∨ beValue a.byte % 10 ≠ 0

instance (a : Amount) : Decidable a.Normal := inferInstanceAs (Decidable (_ ∨ _ ∨ _))

theorem trimTens_stops : ∀ steps v u,
    (trimTens steps v u).2 = u + steps ∨ (trimTens steps v u).1 % 10 ≠ 0
  | 0, _, _ => .inl rfl
  | steps + 1, v, u => by
    rw [trimTens]
    split_ifs with h
    · have := trimTens_stops steps (v / 10) (u + 1)
      rwa [add_right_comm, add_assoc] at this
    · exact .inr h

theorem coinU128_normal (v u : ℕ) : (coinU128 v u).Normal := by
  by_cases h : 0 < v ∧ v < 2 ^ 128 ∧ u < 256
  · have hval : beValue (coinU128 v u).byte = (trimTens (255 - u) v u).1 := by
      rw [coinU128, dif_pos h, beValue_dropLeftZero]
      exact beValue_beBytes ((trimTens_le _ _ _).trans_lt (by norm_num; exact h.2.1))
    have hunit : (coinU128 v u).unit = (trimTens (255 - u) v u).2 := by
      rw [coinU128, dif_pos h]
    rw [Normal, hval, hunit]
    rcases trimTens_stops (255 - u) v u with hstop | hstop
    · exact .inr (.inl (by omega))
    · exact .inr (.inr hstop)
  · rw [coinU128, dif_neg h]
    exact .inl rfl

theorem unit_le_of_normal (ha : a.Normal) (hz : a.isZero = false)
    (h : a.magnitude = b.magnitude) : b.unit ≤ a.unit := by
  by_contra hlt
  have hb := b.unit_lt
  have hmod : beValue a.byte % 10 ≠ 0 := by
    rcases ha with h0 | h255 | hmod
    · rw [hz] at h0
      cases h0
    · omega
    · exact hmod
  have hscaled : beValue a.byte = beValue b.byte * 10 ^ (b.unit - a.unit) := by
    refine Nat.eq_of_mul_eq_mul_right (show 0 < 10 ^ a.unit by positivity) ?_
    rw [← magnitude_eq_scaled b (by omega), ← h, magnitude]
  obtain ⟨k, hk⟩ : ∃ k, b.unit - a.unit = k + 1 := ⟨b.unit - a.unit - 1, by omega⟩
  rw [hscaled, hk, pow_succ, ← mul_assoc, Nat.mul_mod_left] at hmod
  exact hmod rfl

theorem eq_of_fields (hunit : a.unit = b.unit) (hdist : a.dist = b.dist)
    (hbyte : a.byte = b.byte) : a = b := by
  cases a
  cases b
  cases hunit
  cases hdist
  cases hbyte
  rfl

theorem eq_zero_of_isZero (h : a.isZero = true) : a = zero := by
  have hbyte := (isZero_iff a).mp h
  have hdist := a.dist_byte
  rw [hbyte, length_nil, Int.natAbs_eq_zero] at hdist
  exact eq_of_fields (a.zero_unit hbyte) hdist hbyte

theorem dist_of_not_isNegative (h : a.isNegative = false) : a.dist = a.byte.length := by
  have hlen := a.dist_byte
  cases hz : a.isZero with
  | true =>
    rw [eq_zero_of_isZero hz]
    rfl
  | false =>
    rw [isNegative, hz, Bool.not_false, Bool.and_true, decide_eq_false_iff_not] at h
    omega

/-- **A number has one normal amount.** -/
theorem Normal.eq (ha : a.Normal) (hb : b.Normal) (hpos : 0 ≤ a.value)
    (h : a.value = b.value) : a = b := by
  have hna : a.isNegative = false := by
    rw [← not_eq_true, isNegative_iff]
    omega
  have hnb : b.isNegative = false := by
    rw [← not_eq_true, isNegative_iff]
    omega
  have hmag : a.magnitude = b.magnitude := by
    rw [value_of_not_isNegative hna, value_of_not_isNegative hnb] at h
    exact_mod_cast h
  cases hza : a.isZero with
  | true =>
    have hzb : b.isZero = true := by
      rw [← not_eq_false]
      intro hzb
      have := magnitude_pos hzb
      rw [← hmag, magnitude_of_isZero hza] at this
      exact absurd this (lt_irrefl 0)
    rw [eq_zero_of_isZero hza, eq_zero_of_isZero hzb]
  | false =>
    have hzb : b.isZero = false := by
      rw [← not_eq_true]
      intro hzb
      have := magnitude_pos hza
      rw [hmag, magnitude_of_isZero hzb] at this
      exact absurd this (lt_irrefl 0)
    have hunit : a.unit = b.unit :=
      le_antisymm (unit_le_of_normal hb hzb hmag.symm) (unit_le_of_normal ha hza hmag)
    have hbyte : a.byte = b.byte := by
      refine eq_of_beValue_eq a.head_ne b.head_ne ?_
      rw [magnitude, magnitude, hunit] at hmag
      exact Nat.eq_of_mul_eq_mul_right (by positivity) hmag
    refine eq_of_fields hunit ?_ hbyte
    rw [dist_of_not_isNegative hna, dist_of_not_isNegative hnb, hbyte]

/-! ## Arithmetic through `u128` (amount.rs:480–517) -/

def tailToU128 (bytes : List UInt8) (limit : ℕ) : Ret ℕ := do
  ensure (bytes.length ≤ 16) (.fault "amount computing size overflow")
  ensure (beValue bytes ≤ limit) (.fault "amount computing size overflow")
  return beValue bytes

def scaleU128 (v exp limit : ℕ) : Ret ℕ := do
  ensure (10 ^ exp ≤ u128Max) (.fault "amount computing size overflow")
  ensure (v * 10 ^ exp ≤ u128Max ∧ v * 10 ^ exp ≤ limit)
    (.fault "amount computing size overflow")
  return v * 10 ^ exp

/-- The mantissa of `a` brought to the smaller unit `base`. -/
def mantissaAt (a : Amount) (base limit : ℕ) (v : ℕ) : Ret ℕ :=
  if base < a.unit then scaleU128 v (a.unit - base) limit else .ok v

/-- The last step of `compute_unsigned`: a checked sum or difference within the limit. -/
def checkedOp (add : Bool) (lhs rhs limit : ℕ) : Ret ℕ :=
  if add then do
    ensure (lhs + rhs ≤ u128Max ∧ lhs + rhs ≤ limit) (.fault "amount computing size overflow")
    return lhs + rhs
  else do
    ensure (rhs ≤ lhs ∧ lhs - rhs ≤ limit) (.fault "amount computing size overflow")
    return lhs - rhs

def computeUnsigned (a rhs : Amount) (limit : ℕ) (add : Bool) : Ret Amount := do
  ensure (a.isNegative = false ∧ rhs.isNegative = false)
    (.fault "amount operands cannot be negative")
  if a.isZero then
    if add || rhs.isZero then return rhs
    else errf "amount computing size overflow"
  else if rhs.isZero then return a
  else do
    let lhs ← tailToU128 a.byte limit
    let rhsValue ← tailToU128 rhs.byte limit
    let baseUnit := min a.unit rhs.unit
    let lhs ← a.mantissaAt baseUnit limit lhs
    let rhsValue ← rhs.mantissaAt baseUnit limit rhsValue
    let v ← checkedOp add lhs rhsValue limit
    return coinU128 v baseUnit

def addModeU128 (a rhs : Amount) : Ret Amount := a.computeUnsigned rhs u128Max true

def subModeU128 (a rhs : Amount) : Ret Amount := a.computeUnsigned rhs u128Max false

def addModeU64 (a rhs : Amount) : Ret Amount := a.computeUnsigned rhs u64Max true

def subModeU64 (a rhs : Amount) : Ret Amount := a.computeUnsigned rhs u64Max false

theorem tailToU128_ok {bytes : List UInt8} (h : tailToU128 bytes limit = .ok v) :
    v = beValue bytes := by
  obtain ⟨_, _, h⟩ := bind_eq_ok h
  obtain ⟨_, _, h⟩ := bind_eq_ok h
  cases h
  rfl

theorem mantissaAt_ok {w : ℕ} (hbase : base ≤ a.unit)
    (h : a.mantissaAt base limit v = .ok w) : w * 10 ^ base = v * 10 ^ a.unit := by
  rw [mantissaAt] at h
  split_ifs at h with hlt
  · obtain ⟨_, _, h⟩ := bind_eq_ok h
    obtain ⟨_, _, h⟩ := bind_eq_ok h
    cases h
    rw [mul_assoc, ← pow_add, Nat.sub_add_cancel hbase]
  · cases h
    rw [le_antisymm hbase (not_lt.mp hlt)]

/-- One of the operands if the other is zero, else the magnitudes at the common unit, combined. -/
theorem computeUnsigned_ok {add : Bool} (h : a.computeUnsigned rhs limit add = .ok c) :
    a.isNegative = false ∧ rhs.isNegative = false ∧
      ((a.isZero = true ∧ (add || rhs.isZero) = true ∧ c = rhs) ∨
        (rhs.isZero = true ∧ c = a) ∨ ∃ x y v base, base < 256 ∧ x * 10 ^ base = a.magnitude ∧
          y * 10 ^ base = rhs.magnitude ∧ checkedOp add x y limit = .ok v ∧
          c = coinU128 v base) := by
  obtain ⟨_, hsign, h⟩ := bind_eq_ok h
  have hneg := of_ensure hsign
  refine ⟨hneg.1, hneg.2, ?_⟩
  split_ifs at h with hz hop hzr
  · cases h
    exact .inl ⟨hz, hop, rfl⟩
  · cases h
  · cases h
    exact .inr (.inl ⟨hzr, rfl⟩)
  · obtain ⟨va, hva, h⟩ := bind_eq_ok h
    obtain ⟨vb, hvb, h⟩ := bind_eq_ok h
    obtain ⟨x, hx, h⟩ := bind_eq_ok h
    obtain ⟨y, hy, h⟩ := bind_eq_ok h
    obtain ⟨v, hv, h⟩ := bind_eq_ok h
    cases h
    rw [tailToU128_ok hva] at hx
    rw [tailToU128_ok hvb] at hy
    have hbase : min a.unit rhs.unit < 256 := lt_of_le_of_lt (min_le_left _ _) a.unit_lt
    exact .inr (.inr ⟨x, y, v, _, hbase, mantissaAt_ok (min_le_left _ _) hx,
      mantissaAt_ok (min_le_right _ _) hy, hv, rfl⟩)

theorem computeUnsigned_normal {add : Bool}
    (ha : a.Normal) (hrhs : rhs.Normal) (h : a.computeUnsigned rhs limit add = .ok c) :
    c.Normal := by
  obtain ⟨-, -, hc⟩ := computeUnsigned_ok h
  rcases hc with ⟨-, -, rfl⟩ | ⟨-, rfl⟩ | ⟨x, y, v, base, -, -, -, -, rfl⟩
  · exact hrhs
  · exact ha
  · exact coinU128_normal v base

/-- A sum that is returned is exact. -/
theorem computeUnsigned_add_value (h : a.computeUnsigned rhs limit true = .ok c) :
    0 ≤ a.value ∧ 0 ≤ rhs.value ∧ c.value = a.value + rhs.value := by
  obtain ⟨hna, hnb, hc⟩ := computeUnsigned_ok h
  have ha := value_of_not_isNegative hna
  have hb := value_of_not_isNegative hnb
  refine ⟨by omega, by omega, ?_⟩
  rcases hc with ⟨hz, _, rfl⟩ | ⟨hz, rfl⟩ | ⟨x, y, v, base, hbase, hx, hy, hop, rfl⟩
  · rw [value_of_isZero hz, zero_add]
  · rw [value_of_isZero hz, add_zero]
  · rw [checkedOp, if_pos rfl] at hop
    obtain ⟨_, hle, hop⟩ := bind_eq_ok hop
    have hmax := (of_ensure hle).1
    cases hop
    have hlt : x + y < 2 ^ 128 := by
      have : u128Max < 2 ^ 128 := by decide
      omega
    rw [coinU128_value hlt hbase, ha, hb, ← hx, ← hy]
    push_cast
    ring

theorem computeUnsigned_sub_value (hlimit : limit ≤ u128Max)
    (h : a.computeUnsigned rhs limit false = .ok c) :
    0 ≤ rhs.value ∧ 0 ≤ c.value ∧ c.value = a.value - rhs.value := by
  obtain ⟨hna, hnb, hc⟩ := computeUnsigned_ok h
  have ha := value_of_not_isNegative hna
  have hb := value_of_not_isNegative hnb
  refine ⟨by omega, ?_⟩
  rcases hc with ⟨hz, hzr, rfl⟩ | ⟨hz, rfl⟩ | ⟨x, y, v, base, hbase, hx, hy, hop, rfl⟩
  · have hzr' : c.isZero = true := by simpa using hzr
    rw [value_of_isZero hz, value_of_isZero hzr']
    exact ⟨le_rfl, rfl⟩
  · rw [value_of_isZero hz, sub_zero]
    exact ⟨by omega, rfl⟩
  · rw [checkedOp, if_neg Bool.false_ne_true] at hop
    obtain ⟨_, hle, hop⟩ := bind_eq_ok hop
    obtain ⟨hyx, hmax⟩ := of_ensure hle
    cases hop
    have hlt : x - y < 2 ^ 128 := by
      have : u128Max < 2 ^ 128 := by decide
      omega
    rw [coinU128_value hlt hbase, ha, hb, ← hx, ← hy]
    refine ⟨by positivity, ?_⟩
    push_cast [Nat.cast_sub hyx]
    ring

theorem addModeU128_value (h : a.addModeU128 rhs = .ok c) :
    0 ≤ a.value ∧ 0 ≤ rhs.value ∧ c.value = a.value + rhs.value :=
  computeUnsigned_add_value h

theorem addModeU64_value (h : a.addModeU64 rhs = .ok c) :
    0 ≤ a.value ∧ 0 ≤ rhs.value ∧ c.value = a.value + rhs.value :=
  computeUnsigned_add_value h

theorem subModeU128_value (h : a.subModeU128 rhs = .ok c) :
    0 ≤ rhs.value ∧ 0 ≤ c.value ∧ c.value = a.value - rhs.value :=
  computeUnsigned_sub_value le_rfl h

theorem subModeU64_value (h : a.subModeU64 rhs = .ok c) :
    0 ≤ rhs.value ∧ 0 ≤ c.value ∧ c.value = a.value - rhs.value :=
  computeUnsigned_sub_value (by decide) h

/-! ### A difference that is sure to succeed -/

/-- The shape of a positive `coin_u128`. -/
theorem coinU128_spec (hpos : 0 < v) (hv : v < 2 ^ 128) (hu : u < 256) :
    u ≤ (coinU128 v u).unit ∧ (coinU128 v u).byte.length ≤ 16 ∧
      (coinU128 v u).isZero = false ∧ (coinU128 v u).isNegative = false ∧
      (coinU128 v u).magnitude = v * 10 ^ u := by
  have hval := coinU128_value hv hu
  have hvpos : 0 < (coinU128 v u).value := by
    rw [hval]
    positivity
  have hneg : (coinU128 v u).isNegative = false := by
    rw [← not_eq_true, isNegative_iff]
    omega
  refine ⟨?_, ?_, ?_, hneg, ?_⟩
  · rw [coinU128, dif_pos ⟨hpos, hv, hu⟩]
    exact (trimTens_unit (255 - u) v u).1
  · rw [coinU128, dif_pos ⟨hpos, hv, hu⟩]
    exact (dropLeftZero_length_le _).trans (by rw [beBytes_length])
  · rw [← not_eq_true]
    intro hz
    rw [value_of_isZero hz] at hvpos
    exact lt_irrefl _ hvpos
  · rw [value_of_not_isNegative hneg] at hval
    exact_mod_cast hval

/-- The mantissa of a whole number `v` of a unit fits wherever `v` does. -/
theorem mantissaAt_isOk (hz : a.isZero = false)
    (hbase : base ≤ a.unit) (hu : u ≤ base) (hmag : a.magnitude = v * 10 ^ u) (hv : v ≤ u128Max) :
    ∃ x, a.mantissaAt base u128Max (beValue a.byte) = .ok x := by
  rw [mantissaAt]
  split_ifs with hlt
  · have hscaled : beValue a.byte * 10 ^ (a.unit - base) ≤ v := by
      have h1 := magnitude_eq_scaled a hbase
      have h2 : 10 ^ u ≤ 10 ^ base := Nat.pow_le_pow_right (by norm_num) hu
      refine Nat.le_of_mul_le_mul_right ?_ (show 0 < 10 ^ base by positivity)
      rw [← h1, hmag]
      exact Nat.mul_le_mul_left v h2
    have hten : 10 ^ (a.unit - base) ≤ beValue a.byte * 10 ^ (a.unit - base) :=
      Nat.le_mul_of_pos_left _ ((not_isZero_iff a).mp hz)
    refine ⟨beValue a.byte * 10 ^ (a.unit - base), ?_⟩
    rw [scaleU128, ensure_of _ (by omega), ensure_of _ (by omega)]
    rfl
  · exact ⟨_, rfl⟩

theorem coinU128_sub_isOk {a b : ℕ} (hba : b ≤ a) (ha : a < 2 ^ 128) (hu : u < 256) :
    ∃ c, (coinU128 a u).subModeU128 (coinU128 b u) = .ok c := by
  have hzero : coinU128 0 u = zero := by rw [coinU128, dif_neg (by omega)]
  rcases Nat.eq_zero_or_pos a with rfl | hapos
  · obtain rfl : b = 0 := by omega
    rw [hzero]
    exact ⟨zero, rfl⟩
  obtain ⟨hau, hal, haz, han, ham⟩ := coinU128_spec hapos ha hu
  rcases Nat.eq_zero_or_pos b with rfl | hbpos
  · refine ⟨coinU128 a u, ?_⟩
    rw [hzero, subModeU128, computeUnsigned, ensure_of _ ⟨han, rfl⟩, haz]
    rfl
  obtain ⟨hbu, hbl, hbz, hbn, hbm⟩ := coinU128_spec hbpos (by omega) hu
  have hmax : ∀ n, n < 2 ^ 128 → n ≤ u128Max := by
    intro n hn
    rw [u128Max]
    omega
  have htail : ∀ bytes : List UInt8, bytes.length ≤ 16 →
      tailToU128 bytes u128Max = .ok (beValue bytes) := by
    intro bytes hlen
    have hlt : beValue bytes < 2 ^ 128 :=
      (beValue_lt bytes).trans_le ((Nat.pow_le_pow_right (by norm_num) hlen).trans (by norm_num))
    rw [tailToU128, ensure_of _ hlen, ensure_of _ (hmax _ hlt)]
    rfl
  have hminu : u ≤ min (coinU128 a u).unit (coinU128 b u).unit := le_min hau hbu
  obtain ⟨x, hx⟩ := mantissaAt_isOk haz (min_le_left _ _) hminu ham (hmax a ha)
  obtain ⟨y, hy⟩ := mantissaAt_isOk hbz (min_le_right _ _) hminu hbm (hmax b (by omega))
  have hxv : x * _ = (coinU128 a u).magnitude := mantissaAt_ok (min_le_left _ _) hx
  have hyv : y * _ = (coinU128 b u).magnitude := mantissaAt_ok (min_le_right _ _) hy
  -- the scaled mantissas are in the order of the amounts
  have hyx : y ≤ x := by
    refine Nat.le_of_mul_le_mul_right ?_
      (show 0 < 10 ^ min (coinU128 a u).unit (coinU128 b u).unit by positivity)
    rw [hxv, hyv, ham, hbm]
    exact Nat.mul_le_mul_right _ hba
  have hxa : x ≤ a := by
    refine Nat.le_of_mul_le_mul_right ?_
      (show 0 < 10 ^ min (coinU128 a u).unit (coinU128 b u).unit by positivity)
    rw [hxv, ham]
    exact Nat.mul_le_mul_left a (Nat.pow_le_pow_right (by norm_num) hminu)
  have hop : checkedOp false x y u128Max = .ok (x - y) := by
    rw [checkedOp, if_neg Bool.false_ne_true, ensure_of _ ⟨hyx, by have := hmax a ha; omega⟩]
    rfl
  refine ⟨coinU128 (x - y) (min (coinU128 a u).unit (coinU128 b u).unit), ?_⟩
  rw [subModeU128, computeUnsigned, ensure_of _ ⟨han, hbn⟩, haz, hbz, htail _ hal, htail _ hbl]
  show (do
    let lhs ← (coinU128 a u).mantissaAt _ u128Max (beValue (coinU128 a u).byte)
    let rhsValue ← (coinU128 b u).mantissaAt _ u128Max (beValue (coinU128 b u).byte)
    let v ← checkedOp false lhs rhsValue u128Max
    return coinU128 v _ : Ret Amount) = _
  rw [hx, hy]
  show (do
    let v ← checkedOp false x y u128Max
    return coinU128 v _ : Ret Amount) = _
  rw [hop]
  rfl

/-! ## Order (amount.rs:583–604, 846–879) -/

/-- `magnitude_cmp_wide`. The base-256 numbers are modelled by their values. -/
def magnitudeCmpWide (lhs rhs : Amount) : Ordering :=
  let base := min lhs.unit rhs.unit
  compare (beValue lhs.byte * 10 ^ (lhs.unit - base)) (beValue rhs.byte * 10 ^ (rhs.unit - base))

def magnitudeCmp (lhs rhs : Amount) : Ordering :=
  if lhs.isZero || rhs.isZero then compare (!lhs.isZero) (!rhs.isZero)
  else if lhs.unit = rhs.unit then compare (beValue lhs.byte) (beValue rhs.byte)
  else if lhs.byte.length ≤ 16 ∧ rhs.byte.length ≤ 16 then
    let base := min lhs.unit rhs.unit
    match scaleU128 (beValue lhs.byte) (lhs.unit - base) u128Max,
        scaleU128 (beValue rhs.byte) (rhs.unit - base) u128Max with
    | .ok l, .ok r => compare l r
    | _, _ => magnitudeCmpWide lhs rhs
  else magnitudeCmpWide lhs rhs

def cmp (a b : Amount) : Ordering :=
  match a.isNegative, b.isNegative with
  | true, false => .lt
  | false, true => .gt
  | true, true => (magnitudeCmp a b).swap
  | false, false => magnitudeCmp a b

theorem compare_mul_right {x y k : ℕ} (hk : 0 < k) : compare (x * k) (y * k) = compare x y := by
  rcases lt_trichotomy x y with h | rfl | h
  · rw [compare_lt_iff_lt.mpr h, compare_lt_iff_lt.mpr (Nat.mul_lt_mul_of_pos_right h hk)]
  · rw [compare_eq_iff_eq.mpr rfl, compare_eq_iff_eq.mpr rfl]
  · rw [compare_gt_iff_gt.mpr h, compare_gt_iff_gt.mpr (Nat.mul_lt_mul_of_pos_right h hk)]

theorem magnitudeCmpWide_eq (a b : Amount) :
    magnitudeCmpWide a b = compare a.magnitude b.magnitude := by
  rw [magnitude_eq_scaled a (min_le_left a.unit b.unit),
    magnitude_eq_scaled b (min_le_right a.unit b.unit), compare_mul_right (by positivity)]
  rfl

theorem scaleU128_ok {exp w : ℕ} (h : scaleU128 v exp limit = .ok w) : w = v * 10 ^ exp := by
  obtain ⟨_, _, h⟩ := bind_eq_ok h
  obtain ⟨_, _, h⟩ := bind_eq_ok h
  cases h
  rfl

theorem magnitudeCmp_eq (a b : Amount) : magnitudeCmp a b = compare a.magnitude b.magnitude := by
  rw [magnitudeCmp]
  split_ifs with hz hunit hlen
  · -- a zero operand: only whether the other is zero matters
    cases ha : a.isZero with
    | true =>
      rw [magnitude_of_isZero ha]
      cases hb : b.isZero with
      | true => rw [magnitude_of_isZero hb]; rfl
      | false => exact (compare_lt_iff_lt.mpr (magnitude_pos hb)).symm
    | false =>
      have hb : b.isZero = true := by simpa [ha] using hz
      rw [magnitude_of_isZero hb, hb]
      exact (compare_gt_iff_gt.mpr (magnitude_pos ha)).symm
  · rw [magnitude, magnitude, hunit, compare_mul_right (by positivity)]
  · dsimp only
    split
    · next l r hl hr =>
      rw [scaleU128_ok hl, scaleU128_ok hr]
      exact magnitudeCmpWide_eq a b
    · exact magnitudeCmpWide_eq a b
  · exact magnitudeCmpWide_eq a b

theorem cmp_eq (a b : Amount) : cmp a b = compare a.value b.value := by
  rw [cmp]
  cases ha : a.isNegative with
  | true =>
    have hva := (isNegative_iff a).mp ha
    cases hb : b.isNegative with
    | true =>
      rw [value_of_isNegative ha, value_of_isNegative hb, magnitudeCmp_eq]
      rcases lt_trichotomy a.magnitude b.magnitude with h | h | h
      · rw [compare_lt_iff_lt.mpr h, compare_gt_iff_gt.mpr (by omega)]
        rfl
      · rw [h, compare_eq_iff_eq.mpr rfl, compare_eq_iff_eq.mpr rfl]
        rfl
      · rw [compare_gt_iff_gt.mpr h, compare_lt_iff_lt.mpr (by omega)]
        rfl
    | false =>
      have hvb := value_of_not_isNegative hb
      exact (compare_lt_iff_lt.mpr (by omega)).symm
  | false =>
    have hva := value_of_not_isNegative ha
    cases hb : b.isNegative with
    | true =>
      have hvb := (isNegative_iff b).mp hb
      exact (compare_gt_iff_gt.mpr (by omega)).symm
    | false =>
      rw [hva, value_of_not_isNegative hb, magnitudeCmp_eq]
      rcases lt_trichotomy a.magnitude b.magnitude with h | h | h
      · rw [compare_lt_iff_lt.mpr h, compare_lt_iff_lt.mpr (by omega)]
      · rw [h, compare_eq_iff_eq.mpr rfl, compare_eq_iff_eq.mpr rfl]
      · rw [compare_gt_iff_gt.mpr h, compare_gt_iff_gt.mpr (by omega)]

/-- `a < b` as the source compares. -/
def lt (a b : Amount) : Bool := cmp a b == .lt

theorem lt_iff (a b : Amount) : a.lt b = true ↔ a.value < b.value := by
  rw [lt, cmp_eq, beq_iff_eq, compare_lt_iff_lt]

/-! ## Conversions and store size -/

def toUnitU128 (a : Amount) (baseUnit : ℕ) : Ret ℕ := do
  ensure (a.isNegative = false) (.fault "amount overflow unit u128")
  if baseUnit ≤ a.unit then do
    let magnitude ← tailToU128 a.byte u128Max
    scaleU128 magnitude (a.unit - baseUnit) u128Max
  else if a.byte.length ≤ 16 then do
    let magnitude ← tailToU128 a.byte u128Max
    if 38 < baseUnit - a.unit then return 0
    else return magnitude / 10 ^ (baseUnit - a.unit)
  else do
    let quotient := beValue a.byte / 10 ^ (baseUnit - a.unit)
    ensure (quotient ≤ u128Max) (.fault "amount computing size overflow")
    return quotient

/-- `to_238_u64`. -/
def to238U64 (a : Amount) : Ret ℕ := do
  let v ← a.toUnitU128 unit238Exp
  ensure (v ≤ u64Max) (.fault "amount overflow unit238 u64")
  return v

def size (a : Amount) : ℕ := 2 + a.byte.length

def checkStoreLong (a : Amount) : Ret Unit :=
  ensure (a.size ≤ amountStoreMaxSize) (.fault "amount size exceeds max")

end Amount

end Hacash
