import Mathlib

/-!
# Big-endian byte strings

Numbers as byte strings, most significant byte first (`beValue`).
-/

namespace Hacash.Lib

open List

/-- The number a big-endian byte string stands for. -/
def beValue : List UInt8 → ℕ
  | [] => 0
  | b :: bytes => b.toNat * 256 ^ bytes.length + beValue bytes

/-- The `w`-byte big-endian string of `n` (of `n % 256 ^ w`). -/
def beBytes : ℕ → ℕ → List UInt8
  | 0, _ => []
  | w + 1, n => UInt8.ofNat (n / 256 ^ w) :: beBytes w (n % 256 ^ w)

@[simp] theorem beBytes_length : ∀ w n, (beBytes w n).length = w
  | 0, _ => rfl
  | w + 1, n => by rw [beBytes, length_cons, beBytes_length w]

@[simp] theorem beValue_nil : beValue [] = 0 := rfl

theorem beValue_cons (b : UInt8) (bytes : List UInt8) :
    beValue (b :: bytes) = b.toNat * 256 ^ bytes.length + beValue bytes := rfl

theorem beValue_lt (bytes : List UInt8) : beValue bytes < 256 ^ bytes.length := by
  induction bytes with
  | nil => simp
  | cons b bytes ih =>
    rw [beValue_cons, length_cons, pow_succ]
    have hb : b.toNat < 256 := b.toNat_lt
    nlinarith

/-- Encoding then reading back gives the number, below `256 ^ w`. -/
theorem beValue_beBytes : ∀ {w n : ℕ}, n < 256 ^ w → beValue (beBytes w n) = n
  | 0, n, h => by
    have : n = 0 := by simpa using h
    rw [this]
    rfl
  | w + 1, n, h => by
    have hpos : 0 < 256 ^ w := by positivity
    have hq : n / 256 ^ w < 256 := by
      rw [Nat.div_lt_iff_lt_mul hpos, mul_comm, ← pow_succ]
      exact h
    rw [beBytes, beValue_cons, beBytes_length, beValue_beBytes (Nat.mod_lt _ hpos)]
    rw [UInt8.toNat_ofNat_of_lt' hq, mul_comm]
    exact Nat.div_add_mod n (256 ^ w)

/-- Reading then encoding gives the bytes. -/
theorem beBytes_beValue : ∀ bytes : List UInt8, beBytes bytes.length (beValue bytes) = bytes
  | [] => rfl
  | b :: bytes => by
    have hpos : 0 < 256 ^ bytes.length := by positivity
    have hlt := beValue_lt bytes
    have hdiv : (b.toNat * 256 ^ bytes.length + beValue bytes) / 256 ^ bytes.length = b.toNat := by
      rw [mul_comm, Nat.mul_add_div hpos, Nat.div_eq_of_lt hlt, add_zero]
    have hmod : (b.toNat * 256 ^ bytes.length + beValue bytes) % 256 ^ bytes.length
        = beValue bytes := by
      rw [mul_comm, Nat.mul_add_mod, Nat.mod_eq_of_lt hlt]
    rw [length_cons, beBytes, beValue_cons, hdiv, hmod, beBytes_beValue bytes,
      UInt8.ofNat_toNat]

theorem beBytes_injective {w m n : ℕ} (hm : m < 256 ^ w) (hn : n < 256 ^ w)
    (h : beBytes w m = beBytes w n) : m = n := by
  rw [← beValue_beBytes hm, ← beValue_beBytes hn, h]

theorem lt_iff_beValue_lt : ∀ {a b : List UInt8}, a.length = b.length →
    (a < b ↔ beValue a < beValue b)
  | [], [], _ => by simp
  | x :: a, y :: b, h => by
    have hlen : a.length = b.length := Nat.succ.inj h
    have ha := beValue_lt a
    have hb := beValue_lt b
    rw [cons_lt_cons_iff, beValue_cons, beValue_cons, hlen, lt_iff_beValue_lt hlen]
    rw [hlen] at ha
    constructor
    · rintro (hxy | ⟨rfl, hab⟩)
      · have hxy' : x.toNat + 1 ≤ y.toNat := UInt8.lt_iff_toNat_lt.mp hxy
        have := Nat.mul_le_mul_right (256 ^ b.length) hxy'
        rw [Nat.add_mul, one_mul] at this
        omega
      · omega
    · intro hval
      rcases lt_trichotomy x.toNat y.toNat with hxy | hxy | hxy
      · exact Or.inl (UInt8.lt_iff_toNat_lt.mpr hxy)
      · refine Or.inr ⟨UInt8.toNat_inj.mp hxy, ?_⟩
        rw [hxy] at hval
        omega
      · have := Nat.mul_le_mul_right (256 ^ b.length) (Nat.succ_le_of_lt hxy)
        rw [Nat.succ_mul] at this
        omega

theorem beBytes_lt_iff {w m n : ℕ} (hm : m < 256 ^ w) (hn : n < 256 ^ w) :
    beBytes w m < beBytes w n ↔ m < n := by
  rw [lt_iff_beValue_lt (by simp), beValue_beBytes hm, beValue_beBytes hn]

/-! ## Strings without a leading zero -/

theorem le_beValue {b : UInt8} (bytes : List UInt8) (hb : b ≠ 0) :
    256 ^ bytes.length ≤ beValue (b :: bytes) := by
  have hpos : 0 < b.toNat := by
    refine Nat.pos_of_ne_zero fun h => hb ?_
    exact UInt8.toNat_inj.mp h
  rw [beValue_cons]
  exact (Nat.le_mul_of_pos_left _ hpos).trans (Nat.le_add_right _ _)

theorem length_le_of_beValue_le {a b : List UInt8} (ha : a.head? ≠ some 0)
    (h : beValue a ≤ beValue b) : a.length ≤ b.length := by
  cases a with
  | nil => exact Nat.zero_le _
  | cons x a =>
    have hx : x ≠ 0 := fun h0 => ha (congrArg some h0)
    by_contra hlen
    have hle : b.length ≤ a.length := by
      rw [length_cons] at hlen
      omega
    have h1 := le_beValue a hx
    have h2 := beValue_lt b
    have h3 : 256 ^ b.length ≤ 256 ^ a.length := Nat.pow_le_pow_right (by norm_num) hle
    omega

theorem length_le_of_beValue_lt {a : List UInt8} {n : ℕ} (ha : a.head? ≠ some 0)
    (h : beValue a < 256 ^ n) : a.length ≤ n := by
  cases a with
  | nil => exact Nat.zero_le _
  | cons x a =>
    have hx : x ≠ 0 := fun h0 => ha (congrArg some h0)
    have hlt : a.length < n :=
      (Nat.pow_lt_pow_iff_right (by norm_num)).mp ((le_beValue a hx).trans_lt h)
    rw [length_cons]
    omega

theorem eq_of_beValue_eq {a b : List UInt8} (ha : a.head? ≠ some 0) (hb : b.head? ≠ some 0)
    (h : beValue a = beValue b) : a = b := by
  have hlen : a.length = b.length :=
    le_antisymm (length_le_of_beValue_le ha h.le) (length_le_of_beValue_le hb h.ge)
  rw [← beBytes_beValue a, ← beBytes_beValue b, h, hlen]

end Hacash.Lib
