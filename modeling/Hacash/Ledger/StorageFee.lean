import Hacash.Ledger.ContractStorage

/-!
# The price of contract storage (`base::registry`, `base::ledger`, contract_storage.rs)

The price of a byte follows the remaining budget along a curve of steps. **Key results**:
`discount_curve` and `storage_facts_agree`.
-/

namespace Hacash

open List

namespace ContractStorageFeeParams

variable (p : ContractStorageFeeParams)

/-! ## The curve (registry/mod.rs:484–530) -/

/-- The step of the curve: `ceil(N × used / C)` within `1..=N`, evaluated as
`1 + (N × used - 1) / C`. -/
def curveStep (used capacityBytes : ℕ) : Ret ℕ :=
  if used = 0 then .ok 1
  else do
    ensure (used * p.curveSteps ≤ u128Max) (.abort "contract storage price curve overflow")
    return min ((used * p.curveSteps - 1) / capacityBytes + 1) p.curveSteps

def discountPeriods (remainingBytes capacityBytes maxPeriods : ℕ) : Ret ℕ := do
  ensure (capacityBytes ≠ 0) (.abort "contract storage capacity is zero")
  let step ← p.curveStep (capacityBytes - min remainingBytes capacityBytes) capacityBytes
  ensure (p.periodFloor * step ≤ u128Max)
    (.abort "contract storage price curve overflow in periods")
  ensure (p.periodFloor * step ≤ maxPeriods)
    (.abort "contract storage curve exceeds full price")
  return p.periodFloor * step

/-- The step without its checks. -/
def stepOf (used capacity : ℕ) : ℕ :=
  if used = 0 then 1 else min ((used * 1000 - 1) / capacity + 1) 1000

theorem stepOf_bounds (used capacity : ℕ) :
    1 ≤ stepOf used capacity ∧ stepOf used capacity ≤ 1000 := by
  rw [stepOf]
  split_ifs
  · exact ⟨le_rfl, by norm_num⟩
  · exact ⟨le_min (Nat.le_add_left _ _) (by norm_num), min_le_right _ _⟩

theorem stepOf_le {used used' capacity capacity' : ℕ} (hpos : 0 < capacity)
    (hused : used ≤ used') (hcap : capacity ≤ capacity') :
    stepOf used capacity' ≤ stepOf used' capacity := by
  rcases Nat.eq_zero_or_pos used with rfl | h
  · exact (stepOf_bounds used' capacity).1
  · rw [stepOf, stepOf, if_neg h.ne', if_neg (h.trans_le hused).ne']
    have hnum : used * 1000 - 1 ≤ used' * 1000 - 1 := by omega
    have hdiv : (used * 1000 - 1) / capacity' ≤ (used' * 1000 - 1) / capacity :=
      Nat.div_le_div hnum hcap hpos.ne'
    omega

/-! ## What validation gives the curve -/

variable {p}

/-- Version 1 of the rule: 1000 steps of 10 periods, and positive capacities. -/
structure CurveOk (p : ContractStorageFeeParams) (maxPeriods : ℕ) : Prop where
  steps : p.curveSteps = 1000
  floor : p.periodFloor = 10
  full : maxPeriods = 10000
  capacity_pos : ∀ e ∈ p.supplementSchedule, 0 < e.2 * p.targetCapacityBlocks
  capacity_le : ∀ e ∈ p.supplementSchedule, e.2 * p.targetCapacityBlocks ≤ uint12Max

theorem rate_pos_of_validateSchedule : ∀ {prev : Option (ℕ × ℕ)} {entries : List (ℕ × ℕ)},
    p.validateSchedule prev entries = .ok () → ∀ e ∈ entries, e.2 ≠ 0
  | _, [], _ => nofun
  | _, (height, rate) :: rest, h => by
    obtain ⟨_, hrate, h⟩ := bind_eq_ok h
    obtain ⟨_, _, h⟩ := bind_eq_ok h
    obtain ⟨_, _, h⟩ := bind_eq_ok h
    obtain ⟨_, _, h⟩ := bind_eq_ok h
    obtain ⟨_, _, h⟩ := bind_eq_ok h
    obtain ⟨_, _, h⟩ := bind_eq_ok h
    intro e he
    rcases mem_cons.mp he with rfl | he
    · exact of_ensure hrate
    · exact rate_pos_of_validateSchedule h e he

theorem curveOk_of_validate {maxPeriods : ℕ} (hvalid : p.validate maxPeriods = .ok ())
    (hdis : p.isDisabled = false) : CurveOk p maxPeriods := by
  have ok := validate_ok hvalid
  rw [validate, hdis, if_neg Bool.false_ne_true] at hvalid
  obtain ⟨_, _, hvalid⟩ := bind_eq_ok hvalid
  obtain ⟨_, hcurve, hvalid⟩ := bind_eq_ok hvalid
  obtain ⟨_, hfull, hvalid⟩ := bind_eq_ok hvalid
  obtain ⟨_, hperiod, hvalid⟩ := bind_eq_ok hvalid
  obtain ⟨_, _, hvalid⟩ := bind_eq_ok hvalid
  obtain ⟨_, _, hvalid⟩ := bind_eq_ok hvalid
  have hcurve := of_ensure hcurve
  have hfull := of_ensure hfull
  rw [hcurve.1, hcurve.2] at hfull
  refine ⟨hcurve.1, hcurve.2, hfull.symm, fun e he => ?_, ok.capacity_le⟩
  exact Nat.mul_pos (Nat.pos_of_ne_zero (rate_pos_of_validateSchedule hvalid e he))
    (Nat.pos_of_ne_zero (of_ensure hperiod))

theorem CurveOk.discountPeriods_eq {maxPeriods : ℕ} (ok : CurveOk p maxPeriods)
    {capacity : ℕ} (hpos : 0 < capacity) (hle : capacity ≤ uint12Max) (remaining : ℕ) :
    p.discountPeriods remaining capacity maxPeriods
      = .ok (10 * stepOf (capacity - min remaining capacity) capacity) := by
  have hused : (capacity - min remaining capacity) * 1000 ≤ u128Max := by
    have hmax : uint12Max * 1000 ≤ u128Max := by norm_num [uint12Max, u128Max]
    exact (Nat.mul_le_mul_right 1000 ((Nat.sub_le _ _).trans hle)).trans hmax
  have hstep : p.curveStep (capacity - min remaining capacity) capacity
      = .ok (stepOf (capacity - min remaining capacity) capacity) := by
    rw [curveStep, stepOf, ok.steps]
    split_ifs
    · rfl
    · rw [ensure_of _ hused]
      rfl
  have hbound := (stepOf_bounds (capacity - min remaining capacity) capacity).2
  generalize stepOf (capacity - min remaining capacity) capacity = step at hstep hbound ⊢
  have hfull : p.periodFloor * step ≤ maxPeriods := by
    rw [ok.floor, ok.full]
    omega
  have hfit : p.periodFloor * step ≤ u128Max := by
    have hten : 10000 ≤ u128Max := by norm_num [u128Max]
    rw [ok.floor]
    omega
  rw [discountPeriods, ensure_of _ hpos.ne', ok_bind, hstep, ok_bind, ensure_of _ hfit, ok_bind,
    ensure_of _ hfull, ok.floor]
  rfl

/-- **The settlement price curve.** For a validated schedule the curve has a value for every budget,
between `P_min` and `P_max`; it never rises with the budget, nor when an expansion credits the
same amount to budget and capacity. -/
theorem discount_curve {maxPeriods : ℕ} (hvalid : p.validate maxPeriods = .ok ())
    {e : ℕ × ℕ} (he : e ∈ p.supplementSchedule) (remaining : ℕ) :
    ∃ periods, p.discountPeriods remaining (e.2 * p.targetCapacityBlocks) maxPeriods = .ok periods ∧
      p.periodFloor ≤ periods ∧ periods ≤ maxPeriods ∧
      (∀ more periods', remaining ≤ more →
        p.discountPeriods more (e.2 * p.targetCapacityBlocks) maxPeriods = .ok periods' →
        periods' ≤ periods) ∧
      (∀ delta, e.2 * p.targetCapacityBlocks + delta ≤ uint12Max →
        ∃ periods', p.discountPeriods (remaining + delta)
            (e.2 * p.targetCapacityBlocks + delta) maxPeriods = .ok periods' ∧
          periods' ≤ periods) := by
  have hdis : p.isDisabled = false := by
    rw [isDisabled, isEmpty_eq_false_iff]
    exact ne_nil_of_mem he
  have ok := curveOk_of_validate hvalid hdis
  have hpos := ok.capacity_pos e he
  have hle := ok.capacity_le e he
  generalize e.2 * p.targetCapacityBlocks = capacity at hpos hle ⊢
  have hbounds := stepOf_bounds (capacity - min remaining capacity) capacity
  refine ⟨_, ok.discountPeriods_eq hpos hle remaining, ?_, ?_, ?_, ?_⟩
  · rw [ok.floor]
    omega
  · rw [ok.full]
    omega
  · intro more periods' hmore hperiods
    rw [ok.discountPeriods_eq hpos hle more] at hperiods
    cases hperiods
    refine Nat.mul_le_mul_left 10 (stepOf_le hpos ?_ le_rfl)
    omega
  · -- the expansion leaves the used bytes alone and only widens the capacity
    intro delta hfit
    refine ⟨_, ok.discountPeriods_eq (by omega) hfit (remaining + delta), ?_⟩
    refine Nat.mul_le_mul_left 10 (stepOf_le hpos ?_ (Nat.le_add_right _ _))
    omega

/-- The schedule with one expansion: its first entry, at a budget of 500 bytes. -/
theorem discount_curve_sample :
    sampleStorageParams.validate 10000 = .ok () ∧
      ∃ periods, sampleStorageParams.discountPeriods 500 2000 10000 = .ok periods ∧
        10 ≤ periods ∧ periods ≤ 10000 := by
  have hvalid : sampleStorageParams.validate 10000 = .ok () := by decide
  have he : (0, 1000) ∈ sampleStorageParams.supplementSchedule := by decide
  obtain ⟨periods, hperiods, hlow, hhigh, -⟩ := discount_curve hvalid he 500
  exact ⟨hvalid, periods, hperiods, hlow, hhigh⟩

end ContractStorageFeeParams

open ContractStorageFeeParams

/-! ## Facts (contract_storage.rs:405–518) -/

/-- `ContractStorageFeeFacts`. -/
structure ContractStorageFeeFacts where
  enabled : Bool
  ruleVersion : ℕ
  activationHeight : ℕ
  height : ℕ
  targetCapacityBlocks : ℕ
  capacity : ℕ
  rate : ℕ
  remaining : ℕ
  periodFloor : ℕ
  maxPeriods : ℕ
  periods : ℕ
  maxBlockDiscountBytes : ℕ
  nextBlockQuota : ℕ
  nextRemainingLo : ℕ
  nextRemainingHi : ℕ
  nextPeriodsLo : ℕ
  nextPeriodsHi : ℕ
  deriving DecidableEq

section

variable (p : ContractStorageFeeParams) (maxPeriods : ℕ)

/-- The remaining budget of a record against the active capacity, whatever the version of the
record. -/
def factsRemaining (record : Option ContractStorageBudget) (capacity : ℕ) : Ret ℕ :=
  match record with
  | none => .ok capacity
  | some record => do
    ensure (record.appliedCapacityBytes ≤ capacity)
      (budgetFatal "active capacity shrank below applied capacity")
    ensure (record.remainingBytes ≤ record.appliedCapacityBytes)
      (budgetFatal "remaining budget exceeds recorded capacity")
    ensure (record.remainingBytes + (capacity - record.appliedCapacityBytes) ≤ u128Max)
      (budgetFatal "capacity migration overflow")
    return record.remainingBytes + (capacity - record.appliedCapacityBytes)

/-- The facts of a disabled profile: the full price. -/
def disabledFacts (height : ℕ) : ContractStorageFeeFacts where
  enabled := false
  ruleVersion := p.ruleVersion
  activationHeight := p.activationHeight
  height
  targetCapacityBlocks := p.targetCapacityBlocks
  capacity := 0
  rate := 0
  remaining := 0
  periodFloor := p.periodFloor
  maxPeriods
  periods := maxPeriods
  maxBlockDiscountBytes := p.maxBlockDiscountBytes
  nextBlockQuota := 0
  nextRemainingLo := 0
  nextRemainingHi := 0
  nextPeriodsLo := maxPeriods
  nextPeriodsHi := maxPeriods

/-- `contract_storage_fee_facts`. An overflow of the first sum counts as `u128::MAX`, one of the
second as the capacity. -/
def contractStorageFeeFacts (s : BudgetState) (height : ℕ) : Ret ContractStorageFeeFacts :=
  if p.isDisabled then .ok (disabledFacts p maxPeriods height)
  else do
    let capacity ← p.capacityAt height
    let rate := ((p.activeEntry height).map (·.2)).getD 0
    let remaining ← factsRemaining s.record capacity
    let remaining := min remaining capacity
    let periods ← p.discountPeriods remaining capacity maxPeriods
    let quota := p.blockQuota remaining
    let refill := remaining - quota + rate
    let nextLo := min (if refill ≤ u128Max then refill else u128Max) capacity
    let nextHi := min (if remaining + rate ≤ u128Max then remaining + rate else capacity) capacity
    let periodsAtLo ← p.discountPeriods nextLo capacity maxPeriods
    let periodsAtHi ← p.discountPeriods nextHi capacity maxPeriods
    return { disabledFacts p maxPeriods height with
      enabled := true
      capacity
      rate
      remaining
      periods
      nextBlockQuota := quota
      nextRemainingLo := nextLo
      nextRemainingHi := nextHi
      nextPeriodsLo := min periodsAtHi periodsAtLo
      nextPeriodsHi := max periodsAtLo periodsAtHi }

end

section

variable {p : ContractStorageFeeParams} {maxPeriods height : ℕ} {s : BudgetState}

/-- Nothing is recorded yet, or what the check at the end of some block let through. -/
def BetweenBlocks (p : ContractStorageFeeParams) (s : BudgetState) : Prop :=
  s = .empty ∨ ∃ height, verifyBlockContractStorageState p s height = .ok ()

theorem BetweenBlocks.version (hs : BetweenBlocks p s) (hdis : p.isDisabled = false)
    {record : ContractStorageBudget} (hrecord : s.record = some record) :
    record.stateVersion = contractStorageBudgetVersionV1 := by
  rcases hs with rfl | ⟨h, hverify⟩
  · cases hrecord
  · obtain ⟨_, _, hverify⟩ := bind_eq_ok hverify
    obtain ⟨_, _, hverify⟩ := bind_eq_ok hverify
    rw [hdis, if_neg Bool.false_ne_true] at hverify
    obtain ⟨_, _, hverify⟩ := bind_eq_ok hverify
    rw [hrecord, okOr, ok_bind] at hverify
    obtain ⟨_, hversion, _⟩ := bind_eq_ok hverify
    exact of_ensure hversion

theorem startBudget_eq_factsRemaining {record : Option ContractStorageBudget} {capacity : ℕ}
    (hversion : ∀ r, record = some r → r.stateVersion = contractStorageBudgetVersionV1) :
    startBudget record capacity = factsRemaining record capacity := by
  cases record with
  | none => rfl
  | some r =>
    rw [startBudget, ensure_of _ (hversion r rfl), ok_bind]
    rfl

variable {B : ℕ} {e : ℕ × ℕ}

theorem factsRemaining_le {record : Option ContractStorageBudget} {capacity : ℕ}
    (h : factsRemaining record capacity = .ok B) : B ≤ capacity := by
  cases record with
  | none =>
    cases h
    exact le_rfl
  | some r =>
    obtain ⟨_, hcap, h⟩ := bind_eq_ok h
    obtain ⟨_, hrem, h⟩ := bind_eq_ok h
    obtain ⟨_, _, h⟩ := bind_eq_ok h
    cases h
    have hcap := of_ensure hcap
    have hrem := of_ensure hrem
    omega

/-- What the facts report at a height whose entry is `e`, with the budget `B`. -/
structure FactsAt (p : ContractStorageFeeParams) (e : ℕ × ℕ) (B : ℕ)
    (f : ContractStorageFeeFacts) : Prop where
  remaining : f.remaining = B
  quota : f.nextBlockQuota = p.blockQuota B
  lo : f.nextRemainingLo = min (B - p.blockQuota B + e.2) (e.2 * p.targetCapacityBlocks)
  hi : f.nextRemainingHi = min (B + e.2) (e.2 * p.targetCapacityBlocks)

section

variable (hvalid : p.validate maxPeriods = .ok ()) (hdis : p.isDisabled = false)
include hvalid hdis

theorem facts_of_remaining (he : p.activeEntry height = some e) :
    (∀ {B}, factsRemaining s.record (e.2 * p.targetCapacityBlocks) = .ok B →
      ∃ f, contractStorageFeeFacts p maxPeriods s height = .ok f ∧ FactsAt p e B f) ∧
    (∀ {err}, factsRemaining s.record (e.2 * p.targetCapacityBlocks) = .error err →
      contractStorageFeeFacts p maxPeriods s height = .error err) := by
  have ok := validate_ok hvalid
  have curve := curveOk_of_validate hvalid hdis
  obtain ⟨e', he', hcapAt, hcap, hrate⟩ := ok.active hdis height
  rw [he] at he'
  cases he'
  obtain ⟨_, hmem, hact⟩ := p.exists_activeEntry hdis height
  rw [he] at hact
  cases hact
  have hpos := curve.capacity_pos e hmem
  constructor
  · intro B hB
    have hBle := factsRemaining_le hB
    have hmax : uint12Max + uint12Max ≤ u128Max := by norm_num [uint12Max, u128Max]
    have hquota : p.blockQuota B ≤ B := min_le_left _ _
    rw [contractStorageFeeFacts, hdis, if_neg Bool.false_ne_true, hcapAt, ok_bind, hB, ok_bind,
      he]
    dsimp only [Option.map_some, Option.getD_some]
    rw [min_eq_left hBle, curve.discountPeriods_eq hpos hcap, ok_bind,
      curve.discountPeriods_eq hpos hcap, ok_bind, curve.discountPeriods_eq hpos hcap, ok_bind,
      if_pos (by omega), if_pos (by omega)]
    exact ⟨_, rfl, rfl, rfl, rfl, rfl⟩
  · intro err herr
    rw [contractStorageFeeFacts, hdis, if_neg Bool.false_ne_true, hcapAt, ok_bind, herr]
    rfl

theorem init_of_remaining (hs : BetweenBlocks p s) (he : p.activeEntry height = some e) :
    (∀ {B}, factsRemaining s.record (e.2 * p.targetCapacityBlocks) = .ok B →
      ∃ snap, initBlockContractStorageBudget p s height
          = .ok ({ s with start := some B, used := some 0 }, some snap) ∧
        snap.remainingStart = B) ∧
    (∀ {err}, factsRemaining s.record (e.2 * p.targetCapacityBlocks) = .error err →
      initBlockContractStorageBudget p s height = .error err) := by
  have ok := validate_ok hvalid
  obtain ⟨e', he', hcapAt, hcap, -⟩ := ok.active hdis height
  rw [he] at he'
  cases he'
  have hstart : startBudget s.record (e.2 * p.targetCapacityBlocks)
      = factsRemaining s.record (e.2 * p.targetCapacityBlocks) :=
    startBudget_eq_factsRemaining fun r hr => hs.version hdis hr
  constructor
  · intro B hB
    rw [initBlockContractStorageBudget, hdis, if_neg Bool.false_ne_true, he]
    dsimp only
    rw [hcapAt, ok_bind, hstart, hB, ok_bind, uint12Transient,
      ensure_of _ ((factsRemaining_le hB).trans hcap)]
    exact ⟨_, rfl, rfl⟩
  · intro err herr
    rw [initBlockContractStorageBudget, hdis, if_neg Bool.false_ne_true, he]
    dsimp only
    rw [hcapAt, ok_bind, hstart, herr]
    rfl

end

section

variable (ok : ScheduleOk p) (hdis : p.isDisabled = false) (he : p.activeEntry height = some e)
  (hB : B ≤ e.2 * p.targetCapacityBlocks)
include ok hdis he hB

/-- A block that starts with the budget `B` settles from it and the discount booked in its own
layer. -/
theorem applyBlock_of_init {s₁ : BudgetState} {snap : Option ContractStorageBlockSnapshot}
    (hinit : initBlockContractStorageBudget p s height = .ok (s₁, snap)) (hin : InBlock p B s₁)
    (ops : List LayerOp) :
    ∃ st, applyBlock p s height ops
        = .ok (⟨some ⟨contractStorageBudgetVersionV1, st.bNext, st.capacity⟩, none, none⟩,
            some st) ∧
      st.bStart = B ∧ (runLayers p height s₁ ops).used = some st.discountUsed ∧
      SettlementOk p height st := by
  have hin' := runLayers_inBlock ok hdis he hB ops hin
  obtain ⟨st, hsettle, hstart, hused, hst⟩ := hin'.settle ok hdis he hB
  refine ⟨st, ?_, hstart, hused, hst⟩
  rw [applyBlock, hinit, ok_bind]
  dsimp only
  rw [hsettle, ok_bind]
  dsimp only
  rw [hst.verify ok hdis]
  rfl

theorem runLayers_consume {D : ℕ}
    (hcap : e.2 * p.targetCapacityBlocks ≤ uint12Max) (hD : D ≤ p.blockQuota B)
    (hstart : s.start = some B) (hused : s.used = some 0) :
    (runLayers p height s [.consume D]).used = some D := by
  have hin : InBlock p B s := ⟨hstart, 0, hused, Nat.zero_le _⟩
  obtain ⟨d, hd, -, hread⟩ := hin.readSnapshot ok hdis he hB
  rw [hused] at hd
  cases hd
  have hquota : p.blockQuota B ≤ B := min_le_left _ _
  have hfit : 0 + D ≤ uint12Max := by omega
  have hmax : uint12Max ≤ u128Max := by norm_num [uint12Max, u128Max]
  rw [runLayers, foldl_cons, foldl_nil, BudgetLayers.step, hread]
  dsimp only
  rw [consumeBlockContractStorageDiscount, ContractStorageBlockSnapshot.remainingQuota,
    Nat.sub_zero, ensure_of _ hD, ok_bind, ensure_of _ (hfit.trans hmax), ok_bind,
    uint12Transient, ensure_of _ hfit, Nat.zero_add]
  rfl

end

theorem factsRemaining_settled {st : ContractStorageSettlement}
    (hst : SettlementOk p height st) (hcap : st.capacity ≤ uint12Max) :
    factsRemaining (some ⟨contractStorageBudgetVersionV1, st.bNext, st.capacity⟩) st.capacity
      = .ok st.bNext := by
  have hnext := hst.next_le_capacity
  have hmax : uint12Max ≤ u128Max := by norm_num [uint12Max, u128Max]
  have hfit : st.bNext + (st.capacity - st.capacity) ≤ u128Max := by omega
  rw [factsRemaining, ensure_of _ le_rfl, ok_bind, ensure_of _ hnext, ok_bind, ensure_of _ hfit,
    Nat.sub_self]
  rfl

/-- What the facts `f` promise of a block: its budget, and a settlement in the reported interval. -/
structure FactsKept (p : ContractStorageFeeParams) (maxPeriods height : ℕ)
    (f : ContractStorageFeeFacts) (s : BudgetState) (st : ContractStorageSettlement) : Prop where
  start : st.bStart = f.remaining
  lo : f.nextRemainingLo ≤ st.bNext
  hi : st.bNext ≤ f.nextRemainingHi
  /-- In the same segment of the schedule the settled budget is what the next block starts
  with, and what its facts report. -/
  next : p.activeEntry (height + 1) = p.activeEntry height →
    ∃ f' s' snap, contractStorageFeeFacts p maxPeriods s (height + 1) = .ok f' ∧
      initBlockContractStorageBudget p s (height + 1) = .ok (s', some snap) ∧
      f'.remaining = st.bNext ∧ snap.remainingStart = st.bNext

theorem FactsAt.kept {f : ContractStorageFeeFacts}
    (hat : FactsAt p e B f) (hvalid : p.validate maxPeriods = .ok ())
    (hdis : p.isDisabled = false) (he : p.activeEntry height = some e)
    {st : ContractStorageSettlement} (hst : SettlementOk p height st) (hstart : st.bStart = B) :
    FactsKept p maxPeriods height f
      ⟨some ⟨contractStorageBudgetVersionV1, st.bNext, st.capacity⟩, none, none⟩ st := by
  have ok := validate_ok hvalid
  obtain ⟨e', he', -, hcap, -⟩ := ok.active hdis height
  rw [he] at he'
  cases he'
  have hrate : st.rate = e.2 := by
    obtain ⟨h₀, hrate⟩ := hst.rate
    rw [he] at hrate
    cases hrate
    rfl
  have hcapacity := hst.capacity
  have hused := hst.used_le_quota
  have hnext := hst.next_eq
  rw [hrate] at hcapacity
  rw [hstart] at hused hnext
  rw [hcapacity, hrate] at hnext
  refine ⟨by rw [hstart, hat.remaining], ?_, ?_, ?_⟩
  · -- at most the quota has been consumed
    rw [hat.lo, hnext]
    omega
  · rw [hat.hi, hnext]
    omega
  · intro hsame
    rw [he] at hsame
    have hrem := factsRemaining_settled hst (hcapacity ▸ hcap)
    have hbetween : BetweenBlocks p
        ⟨some ⟨contractStorageBudgetVersionV1, st.bNext, st.capacity⟩, none, none⟩ :=
      Or.inr ⟨height, hst.verify ok hdis⟩
    nth_rewrite 2 [hcapacity] at hrem
    obtain ⟨f', hf', hat'⟩ := (facts_of_remaining (s := ⟨_, none, none⟩) hvalid hdis hsame).1 hrem
    obtain ⟨snap, hinit, hsnap⟩ := (init_of_remaining hvalid hdis hbetween hsame).1 hrem
    exact ⟨f', _, snap, hf', hinit, hat'.remaining, hsnap⟩

/-- **The facts and the lifecycle of a block agree.** The facts exist exactly when the next block
can start; the budget they report is the one it starts with; its settlement keeps to them whatever
is consumed; and every discount within the quota is such a consumption. -/
theorem storage_facts_agree (hvalid : p.validate maxPeriods = .ok ()) (hs : BetweenBlocks p s)
    (height : ℕ) :
    ((∃ f, contractStorageFeeFacts p maxPeriods s height = .ok f) ↔
      ∃ r, initBlockContractStorageBudget p s height = .ok r) ∧
    ∀ s₁ snap, initBlockContractStorageBudget p s height = .ok (s₁, some snap) →
      ∃ f, contractStorageFeeFacts p maxPeriods s height = .ok f ∧
        s₁.start = some f.remaining ∧ snap.remainingStart = f.remaining ∧
        (∀ ops s₂ st, applyBlock p s height ops = .ok (s₂, some st) →
          FactsKept p maxPeriods height f s₂ st) ∧
        ∀ D ≤ f.nextBlockQuota, ∃ ops s₂ st,
          applyBlock p s height ops = .ok (s₂, some st) ∧ st.discountUsed = D := by
  cases hdis : p.isDisabled with
  | true =>
    rw [contractStorageFeeFacts, initBlockContractStorageBudget, if_pos hdis, if_pos hdis]
    refine ⟨⟨fun _ => ⟨_, rfl⟩, fun _ => ⟨_, rfl⟩⟩, ?_⟩
    intro s₁ snap h
    cases h
  | false =>
    have ok := validate_ok hvalid
    obtain ⟨e, he, -, hcap, -⟩ := ok.active hdis height
    obtain ⟨hfacts, hfactsErr⟩ := facts_of_remaining (s := s) hvalid hdis he
    obtain ⟨hinit, hinitErr⟩ := init_of_remaining (s := s) hvalid hdis hs he
    cases hB : factsRemaining s.record (e.2 * p.targetCapacityBlocks) with
    | error err =>
      rw [hfactsErr hB, hinitErr hB]
      refine ⟨⟨?_, ?_⟩, ?_⟩
      · rintro ⟨f, h⟩
        cases h
      · rintro ⟨r, h⟩
        cases h
      · intro s₁ snap h
        cases h
    | ok B =>
      obtain ⟨f, hf, hat⟩ := hfacts hB
      obtain ⟨snap, hi, hsnap⟩ := hinit hB
      have hBle := factsRemaining_le hB
      have hin : InBlock p B { s with start := some B, used := some 0 } :=
        ⟨rfl, 0, rfl, Nat.zero_le _⟩
      refine ⟨⟨fun _ => ⟨_, hi⟩, fun _ => ⟨f, hf⟩⟩, ?_⟩
      intro s₁ snap' hi'
      rw [hi] at hi'
      cases hi'
      refine ⟨f, hf, by rw [hat.remaining], by rw [hsnap, hat.remaining], ?_, ?_⟩
      · intro ops s₂ st happly
        obtain ⟨st', happly', hstart, -, hst⟩ := applyBlock_of_init ok hdis he hBle hi hin ops
        rw [happly] at happly'
        cases happly'
        exact hat.kept hvalid hdis he hst hstart
      · intro D hD
        rw [hat.quota] at hD
        obtain ⟨st, happly, -, hused, -⟩ :=
          applyBlock_of_init ok hdis he hBle hi hin [.consume D]
        rw [runLayers_consume ok hdis he hBle hcap hD rfl rfl] at hused
        cases hused
        exact ⟨_, _, st, happly, rfl⟩

/-- The first block starts with the whole capacity of 2000 bytes, and consuming 1500 leaves 1500. -/
theorem storage_facts_agree_sample :
    sampleStorageParams.validate 10000 = .ok () ∧ BetweenBlocks sampleStorageParams .empty ∧
      ∃ f, contractStorageFeeFacts sampleStorageParams 10000 .empty 0 = .ok f ∧
        f.remaining = 2000 ∧ ∃ s st,
          applyBlock sampleStorageParams .empty 0 [.spawn, .consume 1500, .commit]
            = .ok (s, some st) ∧ st.bNext = 1500 ∧
          FactsKept sampleStorageParams 10000 0 f s st := by
  have hvalid : sampleStorageParams.validate 10000 = .ok () := by decide
  have hbetween : BetweenBlocks sampleStorageParams .empty := Or.inl rfl
  have hinit : initBlockContractStorageBudget sampleStorageParams .empty 0
      = .ok (⟨none, some 2000, some 0⟩, some ⟨2000, 0, 2000, 1000, 2000⟩) := by decide
  have hblock : applyBlock sampleStorageParams .empty 0 [.spawn, .consume 1500, .commit]
      = .ok (⟨some ⟨1, 1500, 2000⟩, none, none⟩, some ⟨2000, 1500, 1500, 2000, 1000⟩) := by
    decide +kernel
  obtain ⟨f, hf, -, hrem, hkept, -⟩ := (storage_facts_agree hvalid hbetween 0).2 _ _ hinit
  exact ⟨hvalid, hbetween, f, hf, hrem.symm, _, _, hblock, rfl, hkept _ _ _ hblock⟩

end

end Hacash
