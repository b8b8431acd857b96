import Hacash.Field.RawAmount
import Hacash.Field.Wire
import Hacash.Vm.Value

/-!
# Amount functions of the virtual machine (`vm::native`, amount.rs)

`hac_to_unit` and `hac_to_zhu` drop what is below the unit, and `hac_zhu_tail` returns what
`hac_to_zhu` drops. **Key result**: `amount_natives_exact`.
-/

namespace Hacash

open Lib Amount

namespace Vm

/-- The error of a native function. -/
def nativeErr {α : Type} (msg : String) : VmrtRes α := .error ⟨.nativeFuncError, msg⟩

/-- `map_err`: a field error under the code of native functions. None of those is an abort. -/
def mapIre {α : Type} : Ret α → VmrtRes α
  | .ok a => .ok a
  | .error e => nativeErr e.msg

/-- A `u128` result. -/
def Value.u128 (n : ℕ) : Value := .uint .u128 (Fin.ofNat _ n)

/-! ## Arguments (argv.rs, native/mod.rs:178) -/

/-- `func_argv` of a function of two arguments: they come as a tuple. -/
def funcArgv2 : Value → VmrtRes (Value × Value)
  | .tuple [first, second] => .ok (first, second)
  | _ => nativeErr "native func requires 2 argument(s)"

/-- `func_u8`, `func_u128`: an integer of any width that fits `size` bytes. -/
def funcUint (v : Value) (size : ℕ) (msg : String) : VmrtRes ℕ :=
  match v.extractUintCast size with
  | .ok n => .ok n
  | .error _ => nativeErr msg

def funcU8 (v : Value) : VmrtRes ℕ := funcUint v 1 "native func requires uint convertible to u8"

def funcU128 (v : Value) : VmrtRes ℕ :=
  funcUint v 16 "native func requires uint convertible to u128"

def funcBytes : Value → VmrtRes (List UInt8)
  | .bytes b => .ok b
  | _ => nativeErr "native func requires bytes argument"

/-- `decode_exact` of an amount: the buffer is the amount and nothing else. -/
def decodeExact (buf : List UInt8) : VmrtRes Amount := do
  let (value, used) ← mapIre (decode buf)
  check (used = buf.length) .nativeFuncError "call parse length mismatch"
  return value

def unitAndAmount (argv : Value) : VmrtRes (ℕ × Amount) := do
  let (first, second) ← funcArgv2 argv
  let unit ← funcU8 first
  let buf ← funcBytes second
  return (unit, ← decodeExact buf)

def unitAndU128 (argv : Value) : VmrtRes (ℕ × ℕ) := do
  let (first, second) ← funcArgv2 argv
  let unit ← funcU8 first
  let value ← funcU128 second
  return (unit, value)

/-! ## The functions (amount.rs:44–148, native/mod.rs:212) -/

def hacToUnit (argv : Value) : VmrtRes Value := do
  let (unit, hacash) ← unitAndAmount argv
  return .u128 (← mapIre (hacash.raw.toUnitU128 unit))

def unitToHac (argv : Value) : VmrtRes Value := do
  let (unit, value) ← unitAndU128 argv
  return .bytes (coinU128 value unit).encode

def hacToZhu (buf : List UInt8) : VmrtRes Value := do
  let hacash ← decodeExact buf
  return .u128 (← mapIre (hacash.raw.toUnitU128 unitZhu))

def hacZhuTail (buf : List UInt8) : VmrtRes Value := do
  let amount ← decodeExact buf
  check (amount.isNegative = false) .nativeFuncError "hac_zhu_tail amount cannot be negative"
  let exact ← mapIre (amount.raw.isExactUnit unitZhu)
  if amount.isZero || exact || decide (unitZhu ≤ amount.unit) then
    return .bytes zero.encode
  check (amount.byte.length ≤ 16) .nativeFuncError "hac_zhu_tail magnitude exceeds u128"
  let mag := beValue amount.byte
  let k := unitZhu - amount.unit
  -- `10 ^ 39` is no `u128`
  let rem := if 39 ≤ k then mag else mag % 10 ^ k
  return .bytes (coinU128 rem amount.unit).encode

/-! ## Values -/

theorem Value.u128_extract {n : ℕ} (h : n < 2 ^ 128) : (Value.u128 n).extractU128 = .ok n := by
  have hmod : n % 256 ^ 16 = n := Nat.mod_eq_of_lt (by norm_num; exact h)
  have hopt : (Value.u128 n).uintU128Opt = some n := congrArg some hmod
  rw [Value.extractU128, Value.extractUintCast, hopt]
  show (check (n < 256 ^ 16) .castParamFail "cannot cast param" >>= fun _ => pure n) = _
  rw [check_of _ _ (by norm_num; exact h)]
  rfl

theorem extractUintCast_lt {v : Value} {size n : ℕ} (h : v.extractUintCast size = .ok n) :
    n < 256 ^ size := by
  rw [Value.extractUintCast] at h
  split at h
  · cases h
  · obtain ⟨hlt, h⟩ := check_bind_iff.mp h
    cases h
    exact hlt

theorem funcUint_ok {v : Value} {size n : ℕ} {msg : String} (h : funcUint v size msg = .ok n) :
    v.extractUintCast size = .ok n := by
  rw [funcUint] at h
  split at h
  next hm =>
    cases h
    exact hm
  · cases h

theorem decodeExact_encode (a : Amount) : decodeExact a.encode = .ok a := by
  have hdec := codes.accepts a trivial []
  rw [List.append_nil] at hdec
  rw [decodeExact, hdec]
  show (check (a.encode.length = a.encode.length) _ _ >>= fun _ => pure a) = _
  rw [check_of _ _ rfl]
  rfl

/-! ## Conversions -/

theorem magnitude_of_value {a : Amount} {n : ℕ} (h : a.value = n) :
    a.isNegative = false ∧ a.magnitude = n := by
  have hneg : a.isNegative = false := by
    rw [← Bool.not_eq_true, isNegative_iff]
    omega
  refine ⟨hneg, ?_⟩
  rw [value_of_not_isNegative hneg] at h
  exact_mod_cast h

theorem toUnit_coinU128 {v u : ℕ} (hv : v < 2 ^ 128) (hu : u < 256) :
    (coinU128 v u).raw.toUnitU128 u = .ok v := by
  obtain ⟨hneg, hmag⟩ := magnitude_of_value (coinU128_value hv hu)
  have hle : v ≤ u128Max := Nat.le_sub_one_of_lt hv
  rw [raw_toUnitU128_eq hneg, hmag, Nat.mul_div_cancel _ (by positivity), if_pos hle]

theorem hacToUnit_unitToHac {u v hac : Value} (h : unitToHac (.tuple [u, v]) = .ok hac) :
    ∃ n, v.extractU128 = .ok n ∧ hacToUnit (.tuple [u, hac]) = .ok (.u128 n) := by
  obtain ⟨⟨unit, n⟩, hargs, h⟩ := bind_eq_ok h
  cases h
  obtain ⟨unit', hunit, hargs⟩ := bind_eq_ok (show (funcU8 u >>= _) = _ from hargs)
  obtain ⟨n', hn, hargs⟩ := bind_eq_ok hargs
  cases hargs
  have hu := extractUintCast_lt (funcUint_ok hunit)
  have hv := funcUint_ok hn
  have hlt := extractUintCast_lt hv
  refine ⟨n, hv, ?_⟩
  have hargs : unitAndAmount (.tuple [u, .bytes (coinU128 n unit).encode])
      = .ok (unit, coinU128 n unit) := by
    show (funcU8 u >>= fun unit => decodeExact _ >>= fun a => pure (unit, a)) = _
    rw [hunit, ok_bind, decodeExact_encode]
    rfl
  rw [hacToUnit, hargs, ok_bind]
  dsimp only
  rw [toUnit_coinU128 (by norm_num at hlt; exact hlt) (by simpa using hu)]
  rfl

theorem hacToZhu_encode {a : Amount} (hneg : a.isNegative = false) {zhu : Value}
    (h : hacToZhu a.encode = .ok zhu) :
    zhu = .u128 (a.magnitude / 10 ^ 240) ∧ a.magnitude / 10 ^ 240 < 2 ^ 128 := by
  rw [hacToZhu, decodeExact_encode, ok_bind, raw_toUnitU128_eq hneg, unitZhu] at h
  split_ifs at h with hle
  · cases h
    exact ⟨rfl, Nat.lt_of_le_sub_one (by norm_num) hle⟩
  · cases h

/-- The remainder at the finer unit is the remainder at the coarser one. -/
theorem magnitude_mod {a : Amount} {u : ℕ} (h : a.unit ≤ u) :
    a.magnitude % 10 ^ u = beValue a.byte % 10 ^ (u - a.unit) * 10 ^ a.unit := by
  have hpow : 10 ^ u = 10 ^ (u - a.unit) * 10 ^ a.unit := by
    rw [← pow_add, Nat.sub_add_cancel h]
  rw [magnitude, hpow, Nat.mul_mod_mul_right]

theorem hacZhuTail_encode {a : Amount} (hneg : a.isNegative = false) (hlen : a.byte.length ≤ 16) :
    ∃ t : Amount, hacZhuTail a.encode = .ok (.bytes t.encode) ∧
      t.value = (a.magnitude % 10 ^ 240 : ℕ) := by
  rw [hacZhuTail, decodeExact_encode, ok_bind, check_of _ _ hneg, ok_bind,
    raw_isExactUnit_eq hneg]
  show ∃ t : Amount, (if (a.isZero || decide (10 ^ 240 ∣ a.magnitude) || decide (240 ≤ a.unit))
    then _ else _) = _ ∧ _
  by_cases hexact : 10 ^ 240 ∣ a.magnitude
  · rw [decide_eq_true hexact, if_pos (by simp)]
    refine ⟨.zero, rfl, ?_⟩
    rw [Nat.mod_eq_zero_of_dvd hexact]
    rfl
  · have hzero : a.isZero = false := by
      cases hz : a.isZero with
      | false => rfl
      | true => exact absurd (by rw [magnitude_of_isZero hz]; exact dvd_zero _) hexact
    have hunit : a.unit < 240 := by
      by_contra hge
      exact hexact ((pow_dvd_pow 10 (not_lt.mp hge)).mul_left _)
    have hmant : beValue a.byte < 2 ^ 128 :=
      (beValue_lt a.byte).trans_le ((Nat.pow_le_pow_right (by norm_num) hlen).trans (by norm_num))
    -- a mantissa of 16 bytes is below `10 ^ 39`
    have hrem : (if 39 ≤ 240 - a.unit then beValue a.byte
        else beValue a.byte % 10 ^ (240 - a.unit)) = beValue a.byte % 10 ^ (240 - a.unit) := by
      split_ifs with hk
      · have hpow : 10 ^ 39 ≤ 10 ^ (240 - a.unit) := Nat.pow_le_pow_right (by norm_num) hk
        exact (Nat.mod_eq_of_lt (hmant.trans (lt_of_lt_of_le (by norm_num) hpow))).symm
      · rfl
    rw [decide_eq_false hexact, if_neg (by simp [hzero, hunit]), check_of _ _ hlen, ok_bind]
    refine ⟨_, rfl, ?_⟩
    rw [unitZhu, hrem, magnitude_mod hunit.le]
    exact coinU128_value ((Nat.mod_le _ _).trans_lt hmant) a.unit_lt

/-- **The amount functions are exact.** `hac_to_unit` reads back what `unit_to_hac` has written, and
an amount of at most 16 bytes is its whole zhu and its tail, which is below one zhu. -/
theorem amount_natives_exact :
    (∀ u v hac : Value, unitToHac (.tuple [u, v]) = .ok hac →
      ∃ n, v.extractU128 = .ok n ∧ hacToUnit (.tuple [u, hac]) = .ok (.u128 n) ∧
        (Value.u128 n).extractU128 = .ok n) ∧
    (∀ a : Amount, 0 ≤ a.value → a.byte.length ≤ 16 → ∀ zhu, hacToZhu a.encode = .ok zhu →
      ∃ (n : ℕ) (t : Amount), zhu.extractU128 = .ok n ∧
        hacZhuTail a.encode = .ok (.bytes t.encode) ∧
        a.value = n * 10 ^ 240 + t.value ∧ 0 ≤ t.value ∧ t.value < 10 ^ 240) := by
  constructor
  · intro u v hac h
    obtain ⟨n, hv, hback⟩ := hacToUnit_unitToHac h
    exact ⟨n, hv, hback, Value.u128_extract (by simpa using extractUintCast_lt hv)⟩
  · intro a hpos hlen zhu hzhu
    have hneg : a.isNegative = false := by
      rw [← Bool.not_eq_true, isNegative_iff]
      omega
    obtain ⟨rfl, hlt⟩ := hacToZhu_encode hneg hzhu
    obtain ⟨t, htail, hval⟩ := hacZhuTail_encode hneg hlen
    refine ⟨_, t, Value.u128_extract hlt, htail, ?_, ?_, ?_⟩
    · rw [hval, value_of_not_isNegative hneg]
      exact_mod_cast (Nat.div_add_mod' a.magnitude (10 ^ 240)).symm
    · omega
    · rw [hval]
      exact_mod_cast Nat.mod_lt _ (by positivity)

end Vm

end Hacash
