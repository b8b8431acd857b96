import Hacash.Field.Amount
import Hacash.Lib.Decimal

/-!
# Base 256 (`field`, amount_base256.rs)

Byte strings in which leading zeros do not count. Each function is stated by the numbers its strings
stand for.
-/

namespace Hacash

open Lib List Function

/-! ## Multiplication and division -/

def mul10InPlace (bytes : List UInt8) : List UInt8 :=
  let (out, carry) := mulCarry 10 bytes
  pushCarry 2 carry out

def div10InPlace (bytes : List UInt8) : List UInt8 := (divRem 10 0 bytes).1

def mulPow10B256 (bytes : List UInt8) (exp : ℕ) : List UInt8 :=
  dropLeftZero (mul10InPlace^[exp] (dropLeftZero bytes))

def divPow10B256 (bytes : List UInt8) (exp : ℕ) : List UInt8 :=
  dropLeftZero (div10InPlace^[exp] (dropLeftZero bytes))

def mulU64B256 (bytes : List UInt8) (m : ℕ) : List UInt8 :=
  if dropLeftZero bytes = [] ∨ m = 0 then []
  else
    let (out, carry) := mulCarry m (dropLeftZero bytes)
    dropLeftZero (pushCarry 16 carry out)

def divmodU64B256 (bytes : List UInt8) (d : ℕ) : List UInt8 × ℕ :=
  let (out, rem) := divRem d 0 (dropLeftZero bytes)
  (dropLeftZero out, rem)

def cmpB256 (a b : List UInt8) : Ordering :=
  (compare (dropLeftZero a).length (dropLeftZero b).length).then
    (compareBytes (dropLeftZero a) (dropLeftZero b))

section

variable (bytes : List UInt8)
include bytes

theorem mul10InPlace_value : beValue (mul10InPlace bytes) = beValue bytes * 10 :=
  beValue_mul (by norm_num) (by norm_num) bytes

theorem div10InPlace_value : beValue (div10InPlace bytes) = beValue bytes / 10 :=
  (divRem_spec (by norm_num) bytes).1

/-- A factor ten at a time, `exp` times. -/
theorem mulPow10B256_value (exp : ℕ) :
    beValue (mulPow10B256 bytes exp) = beValue bytes * 10 ^ exp := by
  rw [mulPow10B256, beValue_dropLeftZero]
  induction exp with
  | zero => rw [iterate_zero_apply, beValue_dropLeftZero, pow_zero, mul_one]
  | succ exp ih =>
    rw [iterate_succ_apply', mul10InPlace_value, ih, pow_succ, mul_assoc]

theorem divPow10B256_value (exp : ℕ) :
    beValue (divPow10B256 bytes exp) = beValue bytes / 10 ^ exp := by
  rw [divPow10B256, beValue_dropLeftZero]
  induction exp with
  | zero => rw [iterate_zero_apply, beValue_dropLeftZero, pow_zero, Nat.div_one]
  | succ exp ih =>
    rw [iterate_succ_apply', div10InPlace_value, ih, pow_succ, Nat.div_div_eq_div_mul]

theorem divPow10B256_head (exp : ℕ) :
    (divPow10B256 bytes exp).head? ≠ some 0 := head_dropLeftZero _

end

theorem divmodU64B256_value {d : ℕ} (hd : 0 < d) (bytes : List UInt8) :
    beValue (divmodU64B256 bytes d).1 = beValue bytes / d ∧
      (divmodU64B256 bytes d).2 = beValue bytes % d := by
  obtain ⟨hquot, hrem⟩ := divRem_spec hd (dropLeftZero bytes)
  rw [beValue_dropLeftZero] at hquot hrem
  exact ⟨(beValue_dropLeftZero _).trans hquot, hrem⟩

/-- **The comparison is that of the numbers.** -/
theorem cmpB256_eq (a b : List UInt8) : cmpB256 a b = compare (beValue a) (beValue b) :=
  compare_stripZeros a b

/-! ## Decimal digits -/

/-- One turn of `from_decimal_b256`: the bytes, least significant first, times ten plus the
digit. -/
def pushDecimalB256 (bytes : List UInt8) (ch : Char) : Ret (List UInt8) := do
  ensure ((leMulAdd 10 bytes (ch.toNat - 48)).length ≤ 127) (.fault "Amount is too wide.")
  return leMulAdd 10 bytes (ch.toNat - 48)

def fromDecimalB256 (digits : List Char) : Ret (List UInt8) := do
  let bytes ← digits.foldlM pushDecimalB256 []
  return dropLeftZero bytes.reverse

/-- The loop of `to_decimal_b256`: digits are written in front until nothing is left. -/
def decimalLoopB256 : (fuel : ℕ) → List UInt8 → List Char → List Char
  | 0, _, digits => digits
  | fuel + 1, buf, digits =>
    let (out, rem) := divRem 10 0 buf
    if out.all (· == 0) then decDigit rem :: digits
    else decimalLoopB256 fuel out (decDigit rem :: digits)

/-- `to_decimal_b256`. A byte is less than three digits, so the loop is over before its fuel
is. -/
def toDecimalB256 (bytes : List UInt8) : List Char :=
  if dropLeftZero bytes = [] then ['0']
  else decimalLoopB256 (3 * (dropLeftZero bytes).length) (dropLeftZero bytes) []

/-- Only zero bytes stand for zero. -/
theorem all_zero_iff (bytes : List UInt8) : bytes.all (· == 0) = true ↔ beValue bytes = 0 := by
  induction bytes with
  | nil => simp
  | cons b bytes ih =>
    rw [all_cons, Bool.and_eq_true, ih, beq_iff_eq, beValue_cons]
    constructor
    · rintro ⟨rfl, hrest⟩
      rw [hrest]
      simp
    · intro h
      have hpos : 0 < 256 ^ bytes.length := by positivity
      have hb : b.toNat * 256 ^ bytes.length = 0 := by omega
      refine ⟨UInt8.toNat_inj.mp ?_, by omega⟩
      exact (Nat.mul_eq_zero.mp hb).resolve_right hpos.ne'

/-- The loop is that of the library on the number. -/
theorem decimalLoopB256_eq : ∀ (fuel : ℕ) (buf : List UInt8) (digits : List Char),
    decimalLoopB256 fuel buf digits = writeDigits fuel (beValue buf) digits
  | 0, _, _ => rfl
  | fuel + 1, buf, digits => by
    obtain ⟨hquot, hrem⟩ := divRem_spec (show 0 < 10 by norm_num) buf
    have hzero := all_zero_iff (divRem 10 0 buf).1
    rw [hquot] at hzero
    rw [decimalLoopB256, writeDigits]
    dsimp only
    rw [hrem, decimalLoopB256_eq fuel, hquot, if_congr hzero rfl rfl]

theorem toDecimalB256_fuel (bytes : List UInt8) : beValue bytes < 10 ^ (3 * bytes.length) := by
  refine (beValue_lt _).trans_le ?_
  rw [pow_mul]
  exact Nat.pow_le_pow_left (by norm_num) _

theorem toDecimalB256_eq (bytes : List UInt8) :
    toDecimalB256 bytes = Nat.toDigits 10 (beValue bytes) := by
  rw [toDecimalB256, ← beValue_dropLeftZero bytes]
  split_ifs with hnil
  · rw [hnil]
    rfl
  · have hlen : 0 < (dropLeftZero bytes).length := length_pos_of_ne_nil hnil
    rw [decimalLoopB256_eq, writeDigits_eq [] (toDecimalB256_fuel _) (by omega), append_nil]

/-- **`to_decimal_b256` writes the number.** -/
theorem toDecimalB256_writes (bytes : List UInt8) :
    Writes (toDecimalB256 bytes) (beValue bytes) := by
  rw [toDecimalB256, ← beValue_dropLeftZero bytes]
  split_ifs with hnil
  · rw [hnil]
    exact zero_writes
  · have hlen : 0 < (dropLeftZero bytes).length := length_pos_of_ne_nil hnil
    obtain ⟨ds, hds, hwrites⟩ :=
      writeDigits_writes [] (toDecimalB256_fuel (dropLeftZero bytes)) (by omega)
    rw [decimalLoopB256_eq]
    rw [hds, append_nil]
    exact hwrites

/-- What the turns of `from_decimal_b256` make of the digits after `pre`. -/
theorem foldlM_pushDecimalB256 : ∀ {digits : List Char} (pre : List Char)
    {bytes out : List UInt8},
    digits.foldlM pushDecimalB256 bytes = .ok out → leValue bytes = decValue pre →
    bytes.length ≤ 127 → leValue out = decValue (pre ++ digits) ∧ out.length ≤ 127
  | [], pre, bytes, out, h, hvalue, hlen => by
    cases h
    rw [append_nil]
    exact ⟨hvalue, hlen⟩
  | ch :: digits, pre, bytes, out, h, hvalue, _ => by
    rw [foldlM_cons] at h
    obtain ⟨next, hnext, h⟩ := bind_eq_ok h
    obtain ⟨hle, hnext⟩ := ensure_bind_iff.mp hnext
    cases hnext
    have hstep : leValue (leMulAdd 10 bytes (ch.toNat - 48)) = decValue (pre ++ [ch]) := by
      rw [leValue_leMulAdd, hvalue, decValue_concat]
    have := foldlM_pushDecimalB256 (pre ++ [ch]) h hstep hle
    rwa [append_assoc, singleton_append] at this

/-- No turn fails if the number fits. -/
theorem foldlM_pushDecimalB256_isOk : ∀ {digits : List Char} (pre : List Char)
    {bytes : List UInt8},
    leValue bytes = decValue pre → bytes.getLast? ≠ some 0 →
    decValue (pre ++ digits) < 256 ^ 127 →
    ∃ out, digits.foldlM pushDecimalB256 bytes = .ok out
  | [], _, bytes, _, _, _ => ⟨bytes, rfl⟩
  | ch :: digits, pre, bytes, hvalue, hlast, hlt => by
    have hstep : leValue (leMulAdd 10 bytes (ch.toNat - 48)) = decValue (pre ++ [ch]) := by
      rw [leValue_leMulAdd, hvalue, decValue_concat]
    have hlast' := leMulAdd_getLast (show 0 < 10 by norm_num) bytes (ch.toNat - 48) hlast
    have happend : pre ++ ch :: digits = (pre ++ [ch]) ++ digits := by
      rw [append_assoc, singleton_append]
    rw [happend] at hlt
    have hlen : (leMulAdd 10 bytes (ch.toNat - 48)).length ≤ 127 := by
      rw [← length_reverse]
      refine length_le_of_beValue_lt (by rw [List.head?_reverse]; exact hlast') ?_
      rw [beValue_reverse, hstep]
      refine lt_of_le_of_lt ?_ hlt
      rw [decValue_append (pre ++ [ch])]
      exact (Nat.le_mul_of_pos_right _ (by positivity)).trans (Nat.le_add_right _ _)
    obtain ⟨out, hout⟩ := foldlM_pushDecimalB256_isOk (pre ++ [ch]) hstep hlast' hlt
    refine ⟨out, ?_⟩
    rw [foldlM_cons, pushDecimalB256, ensure_of _ hlen, ok_bind]
    exact hout

/-- **`from_decimal_b256` reads the number**, without a leading zero. -/
theorem fromDecimalB256_ok {digits : List Char} {bytes : List UInt8}
    (h : fromDecimalB256 digits = .ok bytes) :
    beValue bytes = decValue digits ∧ bytes.head? ≠ some 0 ∧ bytes.length ≤ 127 := by
  obtain ⟨out, hout, h⟩ := bind_eq_ok h
  cases h
  obtain ⟨hvalue, hlen⟩ := foldlM_pushDecimalB256 [] hout rfl (Nat.zero_le _)
  refine ⟨?_, head_dropLeftZero _, ?_⟩
  · rw [beValue_dropLeftZero, beValue_reverse, hvalue, nil_append]
  · exact (dropLeftZero_length_le _).trans (by rw [length_reverse]; exact hlen)

/-- It reads every number of at most 127 bytes. -/
theorem fromDecimalB256_isOk {digits : List Char} (h : decValue digits < 256 ^ 127) :
    ∃ bytes, fromDecimalB256 digits = .ok bytes := by
  have hnil : ([] : List UInt8).getLast? ≠ some 0 := nofun
  obtain ⟨out, hout⟩ := foldlM_pushDecimalB256_isOk [] rfl hnil h
  exact ⟨_, by rw [fromDecimalB256, hout]; rfl⟩

/-! ## All functions -/

/-- The string of a number without a leading zero. -/
structure IsBytesOf (bytes : List UInt8) (n : ℕ) : Prop where
  value : beValue bytes = n
  head : bytes.head? ≠ some 0

theorem mulU64B256_isBytesOf (bytes : List UInt8) {m : ℕ} (hm : m < 2 ^ 64) :
    IsBytesOf (mulU64B256 bytes m) (beValue bytes * m) := by
  rw [mulU64B256]
  split_ifs with h
  · refine ⟨?_, by simp⟩
    rcases h with hnil | rfl
    · rw [← beValue_dropLeftZero bytes, hnil, beValue_nil, zero_mul]
    · rw [mul_zero, beValue_nil]
  · rw [not_or] at h
    refine ⟨?_, head_dropLeftZero _⟩
    rw [beValue_dropLeftZero, ← beValue_dropLeftZero bytes]
    exact beValue_mul (Nat.pos_of_ne_zero h.2) (hm.trans (by norm_num)).le _

/-- **The base 256 core is the arithmetic of natural numbers**, on all strings and for all
operands: a decimal text is refused only if its number does not fit 127 bytes. -/
theorem base256_exact (x y : List UInt8) (digits : List Char) (exp m d : ℕ) :
    ((∃ bytes, fromDecimalB256 digits = .ok bytes) ↔ decValue digits < 256 ^ 127) ∧
    (∀ bytes, fromDecimalB256 digits = .ok bytes → IsBytesOf bytes (decValue digits)) ∧
    toDecimalB256 x = Nat.toDigits 10 (beValue x) ∧
    IsBytesOf (mulPow10B256 x exp) (beValue x * 10 ^ exp) ∧
    IsBytesOf (divPow10B256 x exp) (beValue x / 10 ^ exp) ∧
    (m < 2 ^ 64 → IsBytesOf (mulU64B256 x m) (beValue x * m)) ∧
    (0 < d → IsBytesOf (divmodU64B256 x d).1 (beValue x / d) ∧
      (divmodU64B256 x d).2 = beValue x % d) ∧
    cmpB256 x y = compare (beValue x) (beValue y) := by
  refine ⟨⟨fun ⟨bytes, h⟩ => ?_, fromDecimalB256_isOk⟩, fun bytes h => ?_, toDecimalB256_eq x,
    ⟨mulPow10B256_value x exp, head_dropLeftZero _⟩,
    ⟨divPow10B256_value x exp, head_dropLeftZero _⟩, mulU64B256_isBytesOf x, fun hd => ?_,
    cmpB256_eq x y⟩
  · obtain ⟨hvalue, -, hlen⟩ := fromDecimalB256_ok h
    rw [← hvalue]
    exact (beValue_lt bytes).trans_le (Nat.pow_le_pow_right (by norm_num) hlen)
  · obtain ⟨hvalue, hhead, -⟩ := fromDecimalB256_ok h
    exact ⟨hvalue, hhead⟩
  · obtain ⟨hquot, hrem⟩ := divmodU64B256_value hd x
    exact ⟨⟨hquot, head_dropLeftZero _⟩, hrem⟩

end Hacash
