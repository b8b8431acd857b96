import Hacash.Field.Base256

/-!
# Interest on channel deposits (`mint_core::interest`)

The mantissa of a deposit, eight digits finer than it is written, is compounded once for every ten
thousand blocks (`calculateInterest_value`).
-/

namespace Hacash

namespace Amount

def fromUnitByte (unit : UInt8) (byte : List UInt8) : Ret Amount :=
  if hlen : byte.length ≤ 127 then
    if hnil : dropLeftZero byte = [] then .ok zero
    else .ok
      { unit := unit.toNat
        dist := (dropLeftZero byte).length
        byte := dropLeftZero byte
        unit_lt := unit.toNat_lt
        dist_byte := rfl
        byte_le := le_trans (dropLeftZero_length_le byte) hlen
        head_ne := head_dropLeftZero byte
        zero_unit := fun h => absurd h hnil }
  else errf "amount bytes len overflow 127."

end Amount

open Amount

/-! ## Interest (interest.rs) -/

/-- The compounding loop of `calculate_interest`. -/
def compoundB256 (wfzn : ℕ) : (calcLoop : ℕ) → List UInt8 → List UInt8
  | 0, coinnum => coinnum
  | calcLoop + 1, coinnum =>
    compoundB256 wfzn calcLoop (divmodU64B256 (mulU64B256 coinnum (10000 + wfzn)) 10000).1

/-- The last loop of `calculate_interest`: tens go from the mantissa to the unit. -/
def trimTensB256 : (steps : ℕ) → (coinnum : List UInt8) → (unit : ℕ) → List UInt8 × ℕ
  | 0, coinnum, unit => (coinnum, unit)
  | steps + 1, coinnum, unit =>
    let (quotient, remainder) := divmodU64B256 coinnum 10
    if remainder ≠ 0 then (coinnum, unit) else trimTensB256 steps quotient (unit + 1)

def calculateInterest (userDistributeAmt interestCalcBaseAmt : Amount) (calcLoop wfzn : ℕ) :
    Ret Amount :=
  if interestCalcBaseAmt.unit < 8 then .ok userDistributeAmt
  else do
    let newunit := interestCalcBaseAmt.unit - 8
    let coinnum := compoundB256 wfzn calcLoop (mulU64B256 interestCalcBaseAmt.byte 100000000)
    let (coinnum, unit) := trimTensB256 (255 - newunit) coinnum newunit
    let best ← fromUnitByte (UInt8.ofNat unit) coinnum
    let realbest ← best.subModeU64 interestCalcBaseAmt
    realbest.addModeU64 userDistributeAmt

def bothInterest (distributeType : ℕ) (amtl amtr : Amount) (calcLoop wfzn : ℕ) :
    Ret (Amount × Amount) :=
  if distributeType = 0 then do
    let amt1 ← calculateInterest amtl amtl calcLoop wfzn
    let amt2 ← calculateInterest amtr amtr calcLoop wfzn
    return (amt1, amt2)
  else do
    let total ← amtl.addModeU64 amtr
    let left ← if distributeType = 1 then calculateInterest amtl total calcLoop wfzn
      else .ok amtl
    let right ← if distributeType = 2 then calculateInterest amtr total calcLoop wfzn
      else .ok amtr
    return (left, right)

def calculateInterestOfHeight (curblkhei chanopenblkhei distributeType : ℕ)
    (amtl amtr : Amount) : Ret (Amount × Amount) := do
  ensure (chanopenblkhei ≤ curblkhei)
    (.fault "current block height cannot be less than channel open height")
  let calcLoop := (curblkhei - chanopenblkhei) / 10000
  if calcLoop = 0 then return (amtl, amtr)
  else bothInterest distributeType amtl amtr calcLoop 10

theorem calculateInterest_value {user base c : Amount} {calcLoop wfzn : ℕ}
    (h : calculateInterest user base calcLoop wfzn = .ok c) :
    user.value ≤ c.value ∧ (base.isZero = true → c = user) := by
  rw [calculateInterest] at h
  by_cases hunit : base.unit < 8
  · rw [if_pos hunit] at h
    cases h
    exact ⟨le_rfl, fun _ => rfl⟩
  · rw [if_neg hunit] at h
    obtain ⟨best, _, h⟩ := bind_eq_ok h
    obtain ⟨realbest, hsub, h⟩ := bind_eq_ok h
    obtain ⟨_, hnonneg, -⟩ := subModeU64_value hsub
    obtain ⟨-, -, hadd⟩ := addModeU64_value h
    refine ⟨by omega, fun hzero => ?_⟩
    -- zero is written with the unit 0
    have hbase := base.zero_unit ((isZero_iff base).mp hzero)
    omega

theorem calculateInterestOfHeight_value {cur opened : ℕ} {amtl amtr newl newr : Amount}
    (h : calculateInterestOfHeight cur opened 0 amtl amtr = .ok (newl, newr)) :
    amtl.value ≤ newl.value ∧ amtr.value ≤ newr.value ∧
      (amtl.isZero = true → newl = amtl) ∧ (amtr.isZero = true → newr = amtr) := by
  replace h := ensure_drop h
  dsimp only at h
  split_ifs at h with hloop
  · cases h
    exact ⟨le_rfl, le_rfl, fun _ => rfl, fun _ => rfl⟩
  · rw [bothInterest, if_pos rfl] at h
    obtain ⟨amt1, h1, h⟩ := bind_eq_ok h
    obtain ⟨amt2, h2, h⟩ := bind_eq_ok h
    cases h
    obtain ⟨hle1, hzero1⟩ := calculateInterest_value h1
    obtain ⟨hle2, hzero2⟩ := calculateInterest_value h2
    exact ⟨hle1, hle2, hzero1, hzero2⟩

/-- Twenty thousand blocks on one coin. -/
example : (calculateInterestOfHeight 20000 0 0 (.coinU128 1 248) .zero).map
    (fun p => (p.1.value, p.2.value)) = .ok (1002001 * 10 ^ 242, 0) := by decide

end Hacash
