import Hacash.Lib.BigEndian

/-!
# Schoolbook arithmetic on byte strings

Byte strings multiplied and divided by a small number in one pass (`beValue_mul`, `divRem_spec`).
-/

namespace Hacash.Lib

open List

/-! ## Least significant byte first -/

/-- The number a byte string stands for, least significant byte first. -/
def leValue : List UInt8 → ℕ
  | [] => 0
  | b :: bytes => b.toNat + 256 * leValue bytes

theorem beValue_append (a b : List UInt8) :
    beValue (a ++ b) = beValue a * 256 ^ b.length + beValue b := by
  induction a with
  | nil => simp
  | cons x a ih =>
    rw [cons_append, beValue_cons, beValue_cons, ih, length_append, pow_add]
    ring

theorem beValue_reverse (bytes : List UInt8) : beValue bytes.reverse = leValue bytes := by
  induction bytes with
  | nil => rfl
  | cons b bytes ih =>
    rw [reverse_cons, beValue_append, ih, leValue, beValue_cons]
    simp
    ring

/-- The bytes of a number, least significant first, with no zero at the end. -/
def leBytes : (fuel n : ℕ) → List UInt8
  | 0, _ => []
  | fuel + 1, n => if n = 0 then [] else UInt8.ofNat (n % 256) :: leBytes fuel (n / 256)

theorem leValue_leBytes : ∀ {fuel n : ℕ}, n ≤ fuel → leValue (leBytes fuel n) = n
  | 0, n, h => by
    rw [Nat.le_zero.mp h]
    rfl
  | fuel + 1, n, h => by
    rw [leBytes]
    split_ifs with hn
    · rw [hn]
      rfl
    · have hbyte : (UInt8.ofNat (n % 256)).toNat = n % 256 :=
        UInt8.toNat_ofNat_of_lt' (Nat.mod_lt _ (by norm_num))
      rw [leValue, leValue_leBytes (by omega), hbyte]
      omega

/-- `bytes * m + carry`, least significant byte first. -/
def leMulAdd (m : ℕ) : List UInt8 → ℕ → List UInt8
  | [], carry => leBytes carry carry
  | b :: bytes, carry =>
    UInt8.ofNat ((b.toNat * m + carry) % 256)
      :: leMulAdd m bytes ((b.toNat * m + carry) / 256)

theorem leValue_leMulAdd (m : ℕ) : ∀ (bytes : List UInt8) (carry : ℕ),
    leValue (leMulAdd m bytes carry) = leValue bytes * m + carry
  | [], carry => by
    rw [leMulAdd, leValue_leBytes le_rfl, leValue]
    omega
  | b :: bytes, carry => by
    have hbyte : (UInt8.ofNat ((b.toNat * m + carry) % 256)).toNat = (b.toNat * m + carry) % 256 :=
      UInt8.toNat_ofNat_of_lt' (Nat.mod_lt _ (by norm_num))
    have hdiv := Nat.div_add_mod (b.toNat * m + carry) 256
    rw [leMulAdd, leValue, leValue_leMulAdd m bytes, hbyte, leValue]
    linarith

theorem leBytes_getLast : ∀ {fuel n : ℕ}, n ≤ fuel → (leBytes fuel n).getLast? ≠ some 0
  | 0, _, _ => nofun
  | fuel + 1, n, h => by
    rw [leBytes]
    split_ifs with hn
    · nofun
    · have ih := leBytes_getLast (show n / 256 ≤ fuel by omega)
      rw [getLast?_cons]
      cases hlast : (leBytes fuel (n / 256)).getLast? with
      | some b =>
        rw [hlast] at ih
        simpa using ih
      | none =>
        -- the last byte is all that is left of the number
        rw [getLast?_eq_none_iff] at hlast
        have hzero : n / 256 = 0 := by
          rw [← leValue_leBytes (show n / 256 ≤ fuel by omega), hlast]
          rfl
        intro hbyte
        have hbyte' : UInt8.ofNat (n % 256) = 0 := Option.some.inj hbyte
        have hmod : n % 256 = 0 := by
          have h0 := congrArg UInt8.toNat hbyte'
          rwa [UInt8.toNat_ofNat', Nat.mod_mod] at h0
        omega

/-- The most significant byte stays nonzero. -/
theorem leMulAdd_getLast {m : ℕ} (hm : 0 < m) : ∀ (bytes : List UInt8) (carry : ℕ),
    bytes.getLast? ≠ some 0 → (leMulAdd m bytes carry).getLast? ≠ some 0
  | [], _, _ => leBytes_getLast le_rfl
  | b :: rest, carry, h => by
    have hrest : rest.getLast? ≠ some 0 := by
      intro h0
      rw [getLast?_cons, h0] at h
      exact h rfl
    have ih := leMulAdd_getLast hm rest ((b.toNat * m + carry) / 256) hrest
    rw [leMulAdd, getLast?_cons]
    cases hlast : (leMulAdd m rest ((b.toNat * m + carry) / 256)).getLast? with
    | some c =>
      rw [hlast] at ih
      simpa using ih
    | none =>
      -- nothing is above `b`, and no carry came out of it
      rw [getLast?_eq_none_iff] at hlast
      have hvalue := leValue_leMulAdd m rest ((b.toNat * m + carry) / 256)
      rw [hlast, leValue] at hvalue
      have hnil : rest = [] := by
        cases rest with
        | nil => rfl
        | cons c rest =>
          rw [leMulAdd] at hlast
          cases hlast
      have hb : b.toNat ≠ 0 := by
        intro h0
        rw [hnil] at h
        exact h (congrArg some (UInt8.toNat_inj.mp h0))
      intro hbyte
      have hmod : (b.toNat * m + carry) % 256 = 0 := by
        have hbyte' : UInt8.ofNat ((b.toNat * m + carry) % 256) = 0 := Option.some.inj hbyte
        have h0 := congrArg UInt8.toNat hbyte'
        rwa [UInt8.toNat_ofNat', Nat.mod_mod] at h0
      have hmul : 0 < b.toNat * m := Nat.mul_pos (Nat.pos_of_ne_zero hb) hm
      omega

/-! ## Multiplication -/

/-- One pass of a multiplication, from the last byte on: the bytes and the carry. -/
def mulCarry (m : ℕ) : List UInt8 → List UInt8 × ℕ
  | [] => ([], 0)
  | b :: rest =>
    let (out, carry) := mulCarry m rest
    let v := b.toNat * m + carry
    (UInt8.ofNat v :: out, v / 256)

theorem mulCarry_length (m : ℕ) (bytes : List UInt8) :
    (mulCarry m bytes).1.length = bytes.length := by
  induction bytes with
  | nil => rfl
  | cons b rest ih =>
    rw [mulCarry, length_cons, ih, length_cons]

/-- The carry stays below the multiplier. -/
theorem mulCarry_lt {m : ℕ} (hm : 0 < m) (bytes : List UInt8) : (mulCarry m bytes).2 < m := by
  induction bytes with
  | nil => exact hm
  | cons b rest ih =>
    have hb := b.toNat_lt
    rw [mulCarry, Nat.div_lt_iff_lt_mul (by norm_num)]
    nlinarith

theorem mulCarry_value (m : ℕ) (bytes : List UInt8) :
    (mulCarry m bytes).2 * 256 ^ bytes.length + beValue (mulCarry m bytes).1
      = beValue bytes * m := by
  induction bytes with
  | nil => simp [mulCarry]
  | cons b rest ih =>
    rw [mulCarry, beValue_cons, beValue_cons, mulCarry_length, length_cons, pow_succ,
      UInt8.toNat_ofNat']
    set carry := (mulCarry m rest).2
    have hdiv := Nat.div_add_mod (b.toNat * m + carry) 256
    calc (b.toNat * m + carry) / 256 * (256 ^ rest.length * 256)
          + ((b.toNat * m + carry) % 256 * 256 ^ rest.length + beValue (mulCarry m rest).1)
        = (256 * ((b.toNat * m + carry) / 256) + (b.toNat * m + carry) % 256)
            * 256 ^ rest.length + beValue (mulCarry m rest).1 := by ring
      _ = b.toNat * m * 256 ^ rest.length
            + (carry * 256 ^ rest.length + beValue (mulCarry m rest).1) := by
          rw [hdiv]
          ring
      _ = (b.toNat * 256 ^ rest.length + beValue rest) * m := by
          rw [ih]
          ring

/-- A carry of at most `steps` bytes written in front of the bytes. -/
def pushCarry : (steps carry : ℕ) → List UInt8 → List UInt8
  | 0, _, out => out
  | steps + 1, carry, out =>
    if carry = 0 then out else pushCarry steps (carry / 256) (UInt8.ofNat carry :: out)

theorem pushCarry_value : ∀ {steps carry : ℕ} (out : List UInt8), carry < 256 ^ steps →
    beValue (pushCarry steps carry out) = carry * 256 ^ out.length + beValue out
  | 0, carry, out, h => by
    have hzero : carry = 0 := by simpa using h
    rw [hzero, pushCarry]
    simp
  | steps + 1, carry, out, h => by
    rw [pushCarry]
    split_ifs with hc
    · rw [hc]
      simp
    · have hlt : carry / 256 < 256 ^ steps := by
        rw [Nat.div_lt_iff_lt_mul (by norm_num), ← pow_succ]
        exact h
      have hdiv := Nat.div_add_mod carry 256
      rw [pushCarry_value _ hlt, beValue_cons, UInt8.toNat_ofNat', length_cons, pow_succ]
      calc carry / 256 * (256 ^ out.length * 256)
            + (carry % 256 * 256 ^ out.length + beValue out)
          = (256 * (carry / 256) + carry % 256) * 256 ^ out.length + beValue out := by ring
        _ = carry * 256 ^ out.length + beValue out := by rw [hdiv]

/-- **The pass and the carry in front of it multiply.** -/
theorem beValue_mul {m steps : ℕ} (hm : 0 < m) (hsteps : m ≤ 256 ^ steps) (bytes : List UInt8) :
    beValue (pushCarry steps (mulCarry m bytes).2 (mulCarry m bytes).1) = beValue bytes * m := by
  rw [pushCarry_value _ ((mulCarry_lt hm bytes).trans_le hsteps), mulCarry_length,
    mulCarry_value]

/-! ## Division -/

/-- One pass of a division, from the first byte on: the quotient and the remainder. -/
def divRem (d : ℕ) : (rem : ℕ) → List UInt8 → List UInt8 × ℕ
  | rem, [] => ([], rem)
  | rem, b :: rest =>
    let v := rem * 256 + b.toNat
    let (out, last) := divRem d (v % d) rest
    (UInt8.ofNat (v / d) :: out, last)

theorem divRem_length (d : ℕ) (bytes : List UInt8) :
    ∀ rem, (divRem d rem bytes).1.length = bytes.length := by
  induction bytes with
  | nil => exact fun _ => rfl
  | cons b rest ih =>
    intro rem
    rw [divRem, length_cons, ih, length_cons]

theorem divRem_value {d : ℕ} (hd : 0 < d) (bytes : List UInt8) : ∀ {rem : ℕ}, rem < d →
    beValue (divRem d rem bytes).1 * d + (divRem d rem bytes).2
        = rem * 256 ^ bytes.length + beValue bytes ∧ (divRem d rem bytes).2 < d := by
  induction bytes with
  | nil =>
    intro rem h
    simp [divRem, h]
  | cons b rest ih =>
    intro rem h
    have hq : (rem * 256 + b.toNat) / d < 256 := by
      have := b.toNat_lt
      rw [Nat.div_lt_iff_lt_mul hd]
      nlinarith
    obtain ⟨hvalue, hlt⟩ := ih (Nat.mod_lt (rem * 256 + b.toNat) hd)
    have hdiv := Nat.div_add_mod (rem * 256 + b.toNat) d
    refine ⟨?_, hlt⟩
    rw [divRem, beValue_cons, beValue_cons, UInt8.toNat_ofNat_of_lt' hq, divRem_length,
      length_cons, pow_succ]
    set low := divRem d ((rem * 256 + b.toNat) % d) rest
    calc ((rem * 256 + b.toNat) / d * 256 ^ rest.length + beValue low.1) * d + low.2
        = d * ((rem * 256 + b.toNat) / d) * 256 ^ rest.length
            + (beValue low.1 * d + low.2) := by ring
      _ = (d * ((rem * 256 + b.toNat) / d) + (rem * 256 + b.toNat) % d)
            * 256 ^ rest.length + beValue rest := by
          rw [hvalue]
          ring
      _ = rem * (256 ^ rest.length * 256) + (b.toNat * 256 ^ rest.length + beValue rest) := by
          rw [hdiv]
          ring

/-- **One pass divides.** -/
theorem divRem_spec {d : ℕ} (hd : 0 < d) (bytes : List UInt8) :
    beValue (divRem d 0 bytes).1 = beValue bytes / d ∧
      (divRem d 0 bytes).2 = beValue bytes % d := by
  obtain ⟨hvalue, hlt⟩ := divRem_value hd bytes hd
  rw [zero_mul, zero_add] at hvalue
  constructor
  · rw [← hvalue, mul_comm, Nat.mul_add_div hd, Nat.div_eq_of_lt hlt, add_zero]
  · rw [← hvalue, mul_comm, Nat.mul_add_mod, Nat.mod_eq_of_lt hlt]

/-! ## Leading zeros -/

/-- A byte string without its leading zero bytes. -/
def stripZeros (bytes : List UInt8) : List UInt8 := bytes.dropWhile (· == 0)

theorem beValue_stripZeros : ∀ bytes : List UInt8, beValue (stripZeros bytes) = beValue bytes
  | [] => rfl
  | b :: bytes => by
    rw [stripZeros, dropWhile_cons]
    split_ifs with hb
    · have hb' : b = 0 := by simpa using hb
      rw [hb', beValue_cons]
      simpa [stripZeros] using beValue_stripZeros bytes
    · rfl

theorem head_stripZeros (bytes : List UInt8) : (stripZeros bytes).head? ≠ some 0 := by
  intro h
  have hd := head?_dropWhile_not (· == (0 : UInt8)) bytes
  rw [show bytes.dropWhile (· == 0) = stripZeros bytes from rfl, h] at hd
  simp at hd

/-- The comparison of byte strings, first byte first. -/
def compareBytes : List UInt8 → List UInt8 → Ordering
  | [], [] => .eq
  | [], _ :: _ => .lt
  | _ :: _, [] => .gt
  | x :: a, y :: b => (compare x.toNat y.toNat).then (compareBytes a b)

theorem compareBytes_eq : ∀ {a b : List UInt8}, a.length = b.length →
    compareBytes a b = compare (beValue a) (beValue b)
  | [], [], _ => rfl
  | x :: a, y :: b, h => by
    have hlen : a.length = b.length := Nat.succ.inj h
    have ha := beValue_lt a
    have hb := beValue_lt b
    rw [compareBytes, compareBytes_eq hlen, beValue_cons, beValue_cons, hlen]
    rw [hlen] at ha
    rcases lt_trichotomy x.toNat y.toNat with hxy | hxy | hxy
    · have := Nat.mul_le_mul_right (256 ^ b.length) (Nat.succ_le_of_lt hxy)
      rw [Nat.succ_mul] at this
      rw [compare_lt_iff_lt.mpr hxy]
      exact (compare_lt_iff_lt.mpr (by omega)).symm
    · rw [hxy, compare_eq_iff_eq.mpr rfl]
      show compare (beValue a) (beValue b) = _
      rcases lt_trichotomy (beValue a) (beValue b) with hab | hab | hab
      · rw [compare_lt_iff_lt.mpr hab, compare_lt_iff_lt.mpr (by omega)]
      · rw [hab, compare_eq_iff_eq.mpr rfl, compare_eq_iff_eq.mpr rfl]
      · rw [compare_gt_iff_gt.mpr hab, compare_gt_iff_gt.mpr (by omega)]
    · have := Nat.mul_le_mul_right (256 ^ b.length) (Nat.succ_le_of_lt hxy)
      rw [Nat.succ_mul] at this
      rw [compare_gt_iff_gt.mpr hxy]
      exact (compare_gt_iff_gt.mpr (by omega)).symm

/-- **Without leading zeros the longer string is larger**, and of two strings of one length
the first different byte decides. -/
theorem compare_stripZeros (a b : List UInt8) :
    (compare (stripZeros a).length (stripZeros b).length).then
        (compareBytes (stripZeros a) (stripZeros b)) = compare (beValue a) (beValue b) := by
  rw [← beValue_stripZeros a, ← beValue_stripZeros b]
  have ha := head_stripZeros a
  have hb := head_stripZeros b
  generalize stripZeros a = x at ha ⊢
  generalize stripZeros b = y at hb ⊢
  rcases lt_trichotomy x.length y.length with hlen | hlen | hlen
  · have hlt : beValue x < beValue y := by
      by_contra h
      have := length_le_of_beValue_le hb (not_lt.mp h)
      omega
    rw [compare_lt_iff_lt.mpr hlen, compare_lt_iff_lt.mpr hlt]
    rfl
  · rw [compare_eq_iff_eq.mpr hlen]
    exact compareBytes_eq hlen
  · have hlt : beValue y < beValue x := by
      by_contra h
      have := length_le_of_beValue_le ha (not_lt.mp h)
      omega
    rw [compare_gt_iff_gt.mpr hlen, compare_gt_iff_gt.mpr hlt]
    rfl

end Hacash.Lib
