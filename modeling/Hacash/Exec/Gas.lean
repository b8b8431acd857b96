import Hacash.Ledger.Conserve

/-!
# Gas billing of a transaction (`protocol::exec`, gas.rs)

A type 3 transaction escrows the charge of its budget and gets back what it did not use. **Key
results**: `calcBurnAmount_ceil` and `gas_escrow_exact`.
-/

namespace Hacash

open Amount

/-- `i64::MAX`. -/
def i64Max : ℤ := 2 ^ 63 - 1

/-- `i64::MIN`. -/
def i64Min : ℤ := -2 ^ 63

/-- `i128::MAX`. -/
def i128Max : ℤ := 2 ^ 127 - 1

/-- `SETTLEMENT_SCALE`: pricing units in a settlement unit. -/
def settlementScale : ℤ := 10 ^ 6

def feePricingUnit : ℕ := 232

/-! ## Price (gas.rs:20–68) -/

/-- The price of gas: a fee over a size. -/
structure GasPrice where
  purityFee : ℤ
  puritySize : ℤ
  fee_pos : 0 < purityFee
  size_pos : 0 < puritySize

open GasPrice

def GasPrice.fromParts (rawFee puritySize floor : ℕ) : Ret GasPrice := do
  ensure (floor * puritySize ≤ u128Max) (.fault "tx gas price invalid")
  ensure (((max rawFee (floor * puritySize) : ℕ) : ℤ) ≤ i128Max ∧ (puritySize : ℤ) ≤ i128Max)
    (.fault "tx gas price invalid")
  if h : 0 < max rawFee (floor * puritySize) ∧ 0 < puritySize then
    return { purityFee := (max rawFee (floor * puritySize) : ℕ)
             puritySize := puritySize
             fee_pos := by exact_mod_cast h.1
             size_pos := by exact_mod_cast h.2 }
  else errf "tx gas price invalid"

/-- What gas billing reads of the execution context. None of it changes while the
transaction runs. -/
structure GasContext where
  /-- `tx.fee_got()` -/
  feeGot : Amount
  /-- `tx.billing_size()` -/
  billingSize : Ret ℕ
  /-- `vm_params()?.fee_purity_floor_at(height)` -/
  feePurityFloor : Ret ℕ
  /-- `decode_gas_budget(tx_gas_budget_cap_byte)` -/
  budgetCap : Int64
  /-- `env().tx.main` -/
  main : Address

def GasPrice.fromContext (ctx : GasContext) : Ret GasPrice := do
  let rawFee ← (ctx.feeGot.toUnitU128 feePricingUnit).mapError
    (fun _ => .fault "tx gas price invalid")
  let puritySize ← ctx.billingSize
  let floor ← ctx.feePurityFloor
  fromParts rawFee puritySize floor

/-! ## The meter (gas.rs:70–252) -/

/-- `TxGasMeter`. -/
structure TxGasMeter where
  running : Bool
  remaining : ℤ
  used : ℤ
  rebated : ℤ
  maxCharge : Amount
  deriving DecidableEq

open TxGasMeter

/-- The number of settlement units burned for a cost. -/
def burn238 (cost : ℤ) (price : GasPrice) : ℤ :=
  (cost * price.purityFee + (price.puritySize * settlementScale - 1))
    / (price.puritySize * settlementScale)

def calcBurnAmount (cost : ℤ) (price : GasPrice) : Ret Amount := do
  ensure (0 < cost) (.fault "gas cost invalid")
  ensure (cost * price.purityFee ≤ i128Max) (.fault "gas burn overflow")
  ensure (0 < price.puritySize) (.fault "gas settle denominator invalid")
  ensure (price.puritySize * settlementScale ≤ i128Max) (.fault "gas burn overflow")
  ensure (cost * price.purityFee + (price.puritySize * settlementScale - 1) ≤ i128Max)
    (.fault "gas burn overflow")
  ensure (0 < burn238 cost price) (.fault "gas burn underflow")
  ensure (burn238 cost price ≤ u64Max) (.fault "gas burn overflow")
  return unit238 (burn238 cost price).toNat

namespace TxGasMeter

def new : TxGasMeter where
  running := false
  remaining := 0
  used := 0
  rebated := 0
  maxCharge := .zero

def usedNet (m : TxGasMeter) : ℤ := m.used - min m.rebated m.used

/-- The error of an operation on a meter that is not running. -/
def notRunning (m : TxGasMeter) : Error :=
  if m.maxCharge.isPositive then .fault "gas already settled" else .fault "gas not initialized"

def usedCharge (m : TxGasMeter) (price : GasPrice) : Ret Amount := do
  ensure (m.maxCharge.isPositive = true) (.fault "gas not initialized")
  if m.usedNet ≤ 0 then return .zero
  else calcBurnAmount m.usedNet price

def begin (m : TxGasMeter) (budget : ℤ) (maxCharge : Amount) : Ret TxGasMeter := do
  ensure (0 < budget) (.fault "gas budget invalid")
  ensure (m.running = false) (.fault "gas already initialized")
  ensure (m.maxCharge.isPositive = false) (.fault "gas already settled")
  return { running := true, remaining := budget, used := 0, rebated := 0, maxCharge }

/-- `finalize`: refund and burn. A failure leaves the meter as it is. -/
def finalize (m : TxGasMeter) (price : GasPrice) : TxGasMeter × Ret (Amount × Amount) :=
  if m.running then
    match m.usedCharge price with
    | .error e => (m, .error e)
    | .ok usedCharge =>
      match m.maxCharge.subModeU128 usedCharge with
      | .error e => (m, .error e)
      | .ok refund => ({ m with running := false }, .ok (refund, usedCharge))
  else (m, .error m.notRunning)

/-- `charge`. The remaining gas is written before the used gas is; the check in between cannot fail
(`GasInv.charge`). -/
def charge (m : TxGasMeter) (gas : ℤ) : TxGasMeter × Ret Unit :=
  if gas < 0 then (m, errf "gas cost invalid")
  else if gas = 0 then (m, .ok ())
  else if m.running then
    let next := m.remaining - gas
    if next < i64Min then (m, errf "gas has run out")
    else if next < 0 then (m, errf "gas has run out")
    else if i64Max < m.used + gas then ({ m with remaining := next }, errf "gas has run out")
    else ({ m with remaining := next, used := m.used + gas }, .ok ())
  else (m, .error m.notRunning)

def rebate (m : TxGasMeter) (gas : ℤ) : TxGasMeter × Ret Unit :=
  if gas < 0 then (m, errf "gas refund invalid")
  else if m.running then
    if gas = 0 then (m, .ok ())
    else if i64Max < m.rebated + gas then (m, errf "gas refund overflow")
    else ({ m with rebated := m.rebated + gas }, .ok ())
  else (m, .error m.notRunning)

def restoreRebated (m : TxGasMeter) (rebated : ℤ) : TxGasMeter := { m with rebated }

end TxGasMeter

/-! ## Escrow and settlement (gas.rs:271–315) -/

def gasInitializeOn (gas : TxGasMeter) (ctx : GasContext) (s : CoreState) (budget : Int64) :
    Ret (TxGasMeter × CoreState) := do
  ensure (gas.running = false) (.fault "gas already initialized")
  ensure (gas.maxCharge.isPositive = false) (.fault "gas already settled")
  ensure (0 < budget.toInt) (.fault "gas budget invalid")
  let price ← fromContext ctx
  let maxBurnAmt ← calcBurnAmount (min budget.toInt ctx.budgetCap.toInt) price
  let s ← hacSub s ctx.main maxBurnAmt
  let gas ← gas.begin (min budget.toInt ctx.budgetCap.toInt) maxBurnAmt
  return (gas, s)

/-- `gas_refund_on`. The meter is settled even where a later step fails. -/
def gasRefundOn (gas : TxGasMeter) (ctx : GasContext) (s : CoreState) :
    TxGasMeter × Ret CoreState :=
  match fromContext ctx with
  | .error e => (gas, .error e)
  | .ok price =>
    match gas.finalize price with
    | (gas, .error e) => (gas, .error e)
    | (gas, .ok (refund, usedCharge)) => (gas, do
      let s ← if refund.isPositive then hacAdd s ctx.main refund else return s
      if usedCharge.isPositive then do
        let used238 ← usedCharge.to238U64
        if used238 = 0 then return s
        else do
          let next ← totalAddU12 s.getBaseTotal.astVmGasBurn238 used238 "ast_vm_gas_burn_238"
          return s.setBaseTotal { s.getBaseTotal with astVmGasBurn238 := next }
      else return s)

/-! ## The charge -/

theorem settlementDen_pos (price : GasPrice) : 0 < price.puritySize * settlementScale :=
  mul_pos price.size_pos (by decide)

/-- The division rounds up exactly. -/
theorem burn238_ceil (cost : ℤ) (price : GasPrice) :
    burn238 cost price
      = ⌈((cost * price.purityFee : ℤ) : ℚ) / ((price.puritySize * 10 ^ 6 : ℤ) : ℚ)⌉ := by
  have hden := settlementDen_pos price
  have hscale : price.puritySize * 10 ^ 6 = price.puritySize * settlementScale := rfl
  rw [hscale, burn238]
  generalize price.puritySize * settlementScale = den at hden
  generalize cost * price.purityFee = num
  have hmod := Int.emod_nonneg (num + (den - 1)) hden.ne'
  have hlt := Int.emod_lt_of_pos (num + (den - 1)) hden
  have hdiv := Int.mul_ediv_add_emod (num + (den - 1)) den
  generalize (num + (den - 1)) / den = q at hdiv
  generalize (num + (den - 1)) % den = r at hmod hlt hdiv
  have hdenQ : (0 : ℚ) < den := by exact_mod_cast hden
  symm
  rw [Int.ceil_eq_iff, lt_div_iff₀ hdenQ, div_le_iff₀ hdenQ]
  constructor
  · have : (q - 1) * den < num := by nlinarith
    exact_mod_cast this
  · have : num ≤ q * den := by nlinarith
    exact_mod_cast this

theorem burn238_mono {c d : ℤ} (price : GasPrice) (h : c ≤ d) :
    burn238 c price ≤ burn238 d price := by
  have hden := settlementDen_pos price
  refine Int.ediv_le_ediv hden ?_
  have := mul_le_mul_of_nonneg_right h price.fee_pos.le
  omega

variable {cost budget : ℤ} {price : GasPrice} {maxCharge : Amount} {r : GasRun}

theorem burn238_pos (price : GasPrice) (h : 0 < cost) : 0 < burn238 cost price := by
  have hden := settlementDen_pos price
  have hnum : 0 < cost * price.purityFee := mul_pos h price.fee_pos
  exact Int.le_ediv_of_mul_le hden (by omega)

/-- What a charge that is returned is. -/
theorem calcBurnAmount_ok {a : Amount} (h : calcBurnAmount cost price = .ok a) :
    0 < cost ∧ burn238 cost price ≤ u64Max ∧ a = unit238 (burn238 cost price).toNat := by
  obtain ⟨_, hcost, h⟩ := bind_eq_ok h
  obtain ⟨_, _, h⟩ := bind_eq_ok h
  obtain ⟨_, _, h⟩ := bind_eq_ok h
  obtain ⟨_, _, h⟩ := bind_eq_ok h
  obtain ⟨_, _, h⟩ := bind_eq_ok h
  obtain ⟨_, _, h⟩ := bind_eq_ok h
  obtain ⟨_, hmax, h⟩ := bind_eq_ok h
  cases h
  exact ⟨of_ensure hcost, of_ensure hmax, rfl⟩

theorem calcBurnAmount_mono {c : ℤ} {a : Amount}
    (h : calcBurnAmount cost price = .ok a) (hc : 0 < c) (hle : c ≤ cost) :
    calcBurnAmount c price = .ok (unit238 (burn238 c price).toNat) := by
  obtain ⟨_, hcost, h⟩ := bind_eq_ok h
  obtain ⟨_, hnum, h⟩ := bind_eq_ok h
  obtain ⟨_, hsize, h⟩ := bind_eq_ok h
  obtain ⟨_, hden, h⟩ := bind_eq_ok h
  obtain ⟨_, hsum, h⟩ := bind_eq_ok h
  obtain ⟨_, _, h⟩ := bind_eq_ok h
  obtain ⟨_, hmax, h⟩ := bind_eq_ok h
  have hmul : c * price.purityFee ≤ cost * price.purityFee :=
    mul_le_mul_of_nonneg_right hle price.fee_pos.le
  have hnum := of_ensure hnum
  have hsum := of_ensure hsum
  have hmax := of_ensure hmax
  have hmono := burn238_mono price hle
  rw [calcBurnAmount, ensure_of _ hc, ensure_of _ (by omega), ensure_of _ (of_ensure hsize),
    ensure_of _ (of_ensure hden), ensure_of _ (by omega), ensure_of _ (burn238_pos price hc),
    ensure_of _ (by omega)]
  rfl

/-! ## Runs of the meter -/

/-- A running meter with the rebate snapshots that AST nodes have taken. -/
structure GasRun where
  meter : TxGasMeter
  snaps : List ℤ

open GasRun

/-- What can happen to the meter: charges and rebates, and the snapshots and restores of AST nodes.
-/
inductive GasOp where
  | charge (gas : ℤ)
  | rebate (gas : ℤ)
  | snapshot
  | restore (i : ℕ)

/-- One operation. -/
def GasRun.step (r : GasRun) : GasOp → GasRun
  | .charge gas => { r with meter := (r.meter.charge gas).1 }
  | .rebate gas => { r with meter := (r.meter.rebate gas).1 }
  | .snapshot => { r with snaps := r.meter.rebated :: r.snaps }
  | .restore i =>
    match r.snaps[i]? with
    | some rebated => { r with meter := r.meter.restoreRebated rebated }
    | none => r

/-- A sequence of operations. -/
def GasRun.run (r : GasRun) (ops : List GasOp) : GasRun := ops.foldl step r

/-- What holds of a meter from its initialisation to its settlement. -/
structure GasInv (budget : ℤ) (maxCharge : Amount) (r : GasRun) : Prop where
  running : r.meter.running = true
  maxCharge : r.meter.maxCharge = maxCharge
  sum : r.meter.remaining + r.meter.used = budget
  remaining_nonneg : 0 ≤ r.meter.remaining
  used_nonneg : 0 ≤ r.meter.used
  rebated_nonneg : 0 ≤ r.meter.rebated
  snaps_nonneg : ∀ x ∈ r.snaps, 0 ≤ x

section

variable (inv : GasInv budget maxCharge r)
include inv

theorem GasInv.charge (hbudget : budget ≤ i64Max) (gas : ℤ) :
    GasInv budget maxCharge { r with meter := (r.meter.charge gas).1 } := by
  have hsum := inv.sum
  have hrem := inv.remaining_nonneg
  have hused := inv.used_nonneg
  rw [TxGasMeter.charge, if_pos inv.running]
  dsimp only
  split_ifs with hneg hzero hmin hnext hover
  · exact inv
  · exact inv
  · exact inv
  · exact inv
  · -- the used gas never passes the budget
    omega
  · exact { inv with
      sum := by change r.meter.remaining - gas + (r.meter.used + gas) = budget; omega
      remaining_nonneg := not_lt.mp hnext
      used_nonneg := by change 0 ≤ r.meter.used + gas; omega }

theorem GasInv.rebate (gas : ℤ) :
    GasInv budget maxCharge { r with meter := (r.meter.rebate gas).1 } := by
  have hreb := inv.rebated_nonneg
  rw [TxGasMeter.rebate, if_pos inv.running]
  split_ifs with hneg hzero hover
  · exact inv
  · exact inv
  · exact inv
  · exact { inv with
      rebated_nonneg := by change 0 ≤ r.meter.rebated + gas; omega }

theorem GasInv.step (hbudget : budget ≤ i64Max) (op : GasOp) :
    GasInv budget maxCharge (r.step op) := by
  cases op with
  | charge gas => exact inv.charge hbudget gas
  | rebate gas => exact inv.rebate gas
  | snapshot =>
    refine { inv with snaps_nonneg := ?_ }
    intro x hx
    rcases List.mem_cons.mp hx with rfl | hx
    · exact inv.rebated_nonneg
    · exact inv.snaps_nonneg x hx
  | restore i =>
    rw [GasRun.step]
    split
    · next rebated hget =>
      exact { inv with
        rebated_nonneg := inv.snaps_nonneg rebated (List.mem_of_getElem? hget) }
    · exact inv

theorem GasInv.run (hbudget : budget ≤ i64Max) (ops : List GasOp) :
    GasInv budget maxCharge (r.run ops) := by
  induction ops generalizing r with
  | nil => exact inv
  | cons op ops ih => exact ih (inv.step hbudget op)

theorem GasInv.usedNet : 0 ≤ r.meter.usedNet ∧ r.meter.usedNet ≤ budget := by
  have hsum := inv.sum
  have hrem := inv.remaining_nonneg
  have hused := inv.used_nonneg
  have hreb := inv.rebated_nonneg
  rw [TxGasMeter.usedNet]
  omega

end

theorem GasRun.step_stopped (h : r.meter.running = false) (op : GasOp) :
    (r.step op).meter.running = false := by
  have hrun : ¬ r.meter.running = true := by rw [h]; exact Bool.false_ne_true
  cases op with
  | charge gas =>
    rw [step, charge, if_neg hrun]
    split_ifs <;> exact h
  | rebate gas =>
    rw [step, rebate, if_neg hrun]
    split_ifs <;> exact h
  | snapshot => exact h
  | restore i =>
    rw [step]
    split
    · exact h
    · exact h

theorem GasRun.run_stopped (h : r.meter.running = false) (ops : List GasOp) :
    (r.run ops).meter.running = false := by
  induction ops generalizing r with
  | nil => exact h
  | cons op ops ih => exact ih (step_stopped h op)

/-- A meter that does not run cannot be settled. -/
theorem gasRefundOn_stopped {m : TxGasMeter} (h : m.running = false) (ctx : GasContext)
    (s : CoreState) : ∃ e, (gasRefundOn m ctx s).2 = .error e := by
  rw [gasRefundOn]
  cases hprice : fromContext ctx with
  | error e => exact ⟨e, rfl⟩
  | ok price =>
    have hfin : m.finalize price = (m, .error m.notRunning) := by
      rw [finalize, if_neg (by rw [h]; exact Bool.false_ne_true)]
    dsimp only
    rw [hfin]
    exact ⟨_, rfl⟩

/-! ## Settlement is exact -/

theorem unit238_toNat_value {n : ℤ} (h0 : 0 ≤ n) (hmax : n ≤ u64Max) :
    (unit238 n.toNat).value = n * 10 ^ 238 := by
  have hlt : n.toNat < 2 ^ 128 := by
    have : (u64Max : ℤ) < 2 ^ 128 := by decide
    omega
  rw [unit238_value hlt]
  push_cast [Int.toNat_of_nonneg h0]
  rfl

section

variable (inv : GasInv budget maxCharge r) (hmax : calcBurnAmount budget price = .ok maxCharge)
include inv hmax

/-- The charge of what was used: the exact ceiling, within the charge of the whole budget. -/
theorem GasInv.usedCharge :
    r.meter.usedCharge price = .ok (unit238 (burn238 r.meter.usedNet price).toNat) ∧
      0 ≤ burn238 r.meter.usedNet price ∧ burn238 r.meter.usedNet price ≤ burn238 budget price := by
  obtain ⟨hbudget, hle, hamt⟩ := calcBurnAmount_ok hmax
  obtain ⟨hnonneg, hnet⟩ := inv.usedNet
  have hpos := burn238_pos price hbudget
  have hposAmt : r.meter.maxCharge.isPositive = true := by
    rw [inv.maxCharge, isPositive_iff, hamt, unit238_toNat_value hpos.le hle]
    positivity
  refine ⟨?_, ?_, burn238_mono price hnet⟩
  · rw [TxGasMeter.usedCharge, ensure_of _ hposAmt]
    by_cases hzero : r.meter.usedNet ≤ 0
    · -- nothing was used: the ceiling of zero
      have hz : r.meter.usedNet = 0 := le_antisymm hzero hnonneg
      have hburn : burn238 0 price = 0 := by
        have hden := settlementDen_pos price
        rw [burn238, zero_mul, zero_add]
        exact Int.ediv_eq_zero_of_lt (by omega) (by omega)
      rw [hz, hburn]
      rfl
    · show (if r.meter.usedNet ≤ 0 then (return .zero : Ret Amount) else _) = _
      rw [if_neg hzero]
      exact calcBurnAmount_mono hmax (not_le.mp hzero) hnet
  · have hden := settlementDen_pos price
    exact Int.ediv_nonneg (by nlinarith [price.fee_pos]) hden.le

theorem GasInv.finalize : ∃ refund burn, r.meter.finalize price
        = ({ r.meter with running := false }, .ok (refund, burn)) ∧
      burn.value = burn238 r.meter.usedNet price * 10 ^ 238 ∧
      burn.value ≤ maxCharge.value ∧
      0 ≤ refund.value ∧ refund.value + burn.value = maxCharge.value := by
  obtain ⟨hcharge, hnonneg, hle⟩ := inv.usedCharge hmax
  obtain ⟨_, hmaxle, hamt⟩ := calcBurnAmount_ok hmax
  have hburn := unit238_toNat_value hnonneg (hle.trans hmaxle)
  have hmaxv : maxCharge.value = burn238 budget price * 10 ^ 238 := by
    rw [hamt]
    exact unit238_toNat_value (hnonneg.trans hle) hmaxle
  obtain ⟨refund, hrefund⟩ : ∃ c, maxCharge.subModeU128
      (unit238 (burn238 r.meter.usedNet price).toNat) = .ok c := by
    rw [hamt]
    refine coinU128_sub_isOk (Int.toNat_le_toNat hle) ?_ (by decide)
    have : (u64Max : ℤ) < 2 ^ 128 := by decide
    omega
  obtain ⟨_, hrefund0, hrefundv⟩ := subModeU128_value hrefund
  refine ⟨refund, _, ?_, hburn, ?_, hrefund0, ?_⟩
  · rw [TxGasMeter.finalize, if_pos inv.running, hcharge]
    dsimp only
    rw [inv.maxCharge, hrefund]
  · rw [hburn, hmaxv]
    exact mul_le_mul_of_nonneg_right hle (by positivity)
  · rw [hrefundv]
    ring

end

/-- The charge of the capped budget is taken from the ledger, and the meter runs with that budget.
-/
theorem gasInitializeOn_ok {ctx : GasContext} {s s1 : CoreState} {m0 : TxGasMeter}
    {budget : Int64} (h : gasInitializeOn .new ctx s budget = .ok (m0, s1)) :
    ∃ price, fromContext ctx = .ok price ∧
      calcBurnAmount (min budget.toInt ctx.budgetCap.toInt) price = .ok m0.maxCharge ∧
      hacSub s ctx.main m0.maxCharge = .ok s1 ∧
      GasInv (min budget.toInt ctx.budgetCap.toInt) m0.maxCharge ⟨m0, []⟩ := by
  obtain ⟨_, _, h⟩ := bind_eq_ok h
  obtain ⟨_, _, h⟩ := bind_eq_ok h
  obtain ⟨_, _, h⟩ := bind_eq_ok h
  obtain ⟨price, hprice, h⟩ := bind_eq_ok h
  obtain ⟨maxCharge, hmax, h⟩ := bind_eq_ok h
  obtain ⟨s1', hsub, h⟩ := bind_eq_ok h
  obtain ⟨m, hbegin, h⟩ := bind_eq_ok h
  cases h
  obtain ⟨_, hpos, hbegin⟩ := bind_eq_ok hbegin
  obtain ⟨_, _, hbegin⟩ := bind_eq_ok hbegin
  obtain ⟨_, _, hbegin⟩ := bind_eq_ok hbegin
  cases hbegin
  refine ⟨price, hprice, hmax, hsub, ?_⟩
  exact { running := rfl, maxCharge := rfl, sum := add_zero _
          remaining_nonneg := (of_ensure hpos).le, used_nonneg := le_rfl
          rebated_nonneg := le_rfl, snaps_nonneg := nofun }

/-- Gas escrow is exact. Once gas is initialised, whatever happens to the meter: remaining and used
gas add up to the budget, and settling burns the ceiling of the net use at the price, within the
escrow, and refunds the rest. Settling again fails. -/
theorem gas_escrow_exact {ctx : GasContext} {s s1 : CoreState} {m0 : TxGasMeter}
    {budget : Int64} (hinit : gasInitializeOn .new ctx s budget = .ok (m0, s1))
    (ops : List GasOp) :
    ∃ price, fromContext ctx = .ok price ∧
      calcBurnAmount (min budget.toInt ctx.budgetCap.toInt) price = .ok m0.maxCharge ∧
      s1.hacTotal = s.hacTotal - m0.maxCharge.value ∧
      let m := (run ⟨m0, []⟩ ops).meter
      m.remaining + m.used = min budget.toInt ctx.budgetCap.toInt ∧
      0 ≤ m.usedNet ∧
      ∃ m' refund burn, m.finalize price = (m', .ok (refund, burn)) ∧
        burn.value = ⌈((m.usedNet * price.purityFee : ℤ) : ℚ)
          / ((price.puritySize * 10 ^ 6 : ℤ) : ℚ)⌉ * 10 ^ 238 ∧
        burn.value ≤ m0.maxCharge.value ∧
        0 ≤ refund.value ∧ refund.value + burn.value = m0.maxCharge.value ∧
        ∀ s2, (gasRefundOn m ctx s2).1 = m' ∧
          ∀ snaps ops' s3, ∃ e,
            (gasRefundOn (run ⟨m', snaps⟩ ops').meter ctx s3).2 = .error e := by
  obtain ⟨price, hprice, hmax, hsub, inv0⟩ := gasInitializeOn_ok hinit
  have hbudget : min budget.toInt ctx.budgetCap.toInt ≤ i64Max :=
    (min_le_left _ _).trans (Int64.toInt_le budget)
  have inv := inv0.run hbudget ops
  obtain ⟨refund, burn, hfin, hburn, hle, hrefund, hsum⟩ := inv.finalize hmax
  refine ⟨price, hprice, hmax, hacSub_total hsub, inv.sum, inv.usedNet.1, _, refund, burn, hfin,
    ?_, hle, hrefund, hsum, ?_⟩
  · rw [hburn, burn238_ceil]
  · intro s2
    refine ⟨?_, ?_⟩
    · rw [gasRefundOn, hprice]
      dsimp only
      rw [hfin]
    · intro snaps ops' s3
      exact gasRefundOn_stopped (run_stopped rfl ops') ctx s3

/-- A fee of 0.0001 HAC for 300 bytes, over a floor of one pricing unit per byte. -/
def sampleGasContext : GasContext where
  feeGot := .coinU128 1 244
  billingSize := .ok 300
  feePurityFloor := .ok 1
  budgetCap := 1000000
  main := userAddr 1

/-- The main address holds one HAC. -/
def sampleGasState : CoreState :=
  CoreState.empty.balanceSet (userAddr 1) { Balance.default with hacash := .coinU128 1 248 }

/-- A charge, a rebate that a reverted node takes back, a rebate that stays, and a
charge beyond the budget. -/
def sampleGasOps : List GasOp :=
  [.charge 100, .snapshot, .rebate 40, .restore 0, .rebate 7, .charge 99999]

theorem gas_escrow_exact_sample : ∃ m0 s1,
    gasInitializeOn .new sampleGasContext sampleGasState 1000 = .ok (m0, s1) ∧
    let m := (run ⟨m0, []⟩ sampleGasOps).meter
    m.remaining + m.used = 1000 ∧
    ∃ price m' refund burn, m.finalize price = (m', .ok (refund, burn)) ∧
      refund.value + burn.value = m0.maxCharge.value := by
  obtain ⟨⟨m0, s1⟩, h⟩ : ∃ p,
      gasInitializeOn .new sampleGasContext sampleGasState 1000 = .ok p :=
    exists_of_isOk (by decide +kernel)
  obtain ⟨price, _, _, _, hsum, _, m', refund, burn, hfin, _, _, _, hexact, _⟩ :=
    gas_escrow_exact h sampleGasOps
  exact ⟨m0, s1, h, hsum, price, m', refund, burn, hfin, hexact⟩

end Hacash
