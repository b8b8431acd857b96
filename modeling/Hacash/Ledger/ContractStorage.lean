import Hacash.Ledger.Operate

/-!
# Contract storage budget (`base::ledger`, contract_storage.rs; `base::registry`)

A block freezes the remaining budget, lets its transactions consume a quota of it, and refills it up
to a capacity that grows. **Key result**: `contract_storage_budget`.
-/

namespace Hacash

open List

/-! ## Schedule (registry/mod.rs:384–648) -/

/-- `ContractStorageFeeParams`. -/
structure ContractStorageFeeParams where
  ruleVersion : ℕ
  activationHeight : ℕ
  targetCapacityBlocks : ℕ
  curveSteps : ℕ
  periodFloor : ℕ
  maxBlockDiscountBytes : ℕ
  supplementSchedule : List (ℕ × ℕ)
  deriving DecidableEq

open ContractStorageFeeParams

def contractStorageRuleV1 : ℕ := 1

namespace ContractStorageFeeParams

def isDisabled (p : ContractStorageFeeParams) : Bool := p.supplementSchedule.isEmpty

/-- `active_entry`: the latest entry at or before the height, else the first one. -/
def activeEntry (p : ContractStorageFeeParams) (height : ℕ) : Option (ℕ × ℕ) :=
  if p.isDisabled then none
  else (p.supplementSchedule.filter (fun e => e.1 ≤ height)).getLast?.or
    p.supplementSchedule.head?

def capacityAt (p : ContractStorageFeeParams) (height : ℕ) : Ret ℕ :=
  match p.activeEntry height with
  | none => errf "contract storage fee schedule has no active entry at height"
  | some (_, rate) => do
    ensure (rate * p.targetCapacityBlocks ≤ u128Max) (.abort "contract storage capacity overflow")
    return rate * p.targetCapacityBlocks

def blockQuota (p : ContractStorageFeeParams) (remaining : ℕ) : ℕ :=
  min remaining p.maxBlockDiscountBytes

/-- The order check of `validate`: from the activation height on, up by whole thousands. -/
def validateOrder (p : ContractStorageFeeParams) (prev : Option (ℕ × ℕ)) (height rate : ℕ) :
    Ret Unit :=
  match prev with
  | none =>
    ensure (height = p.activationHeight)
      (.fault "contract storage schedule must start at activation height (H0)")
  | some (ph, pr) => do
    ensure (ph < height ∧ pr < rate)
      (.fault "contract storage schedule entry violates monotonicity")
    ensure ((rate - pr) % 1000 = 0)
      (.fault "contract storage rate delta must be a multiple of 1000 bytes/block")

/-- The loop of `validate` over the schedule, with the entry before. -/
def validateSchedule (p : ContractStorageFeeParams) : Option (ℕ × ℕ) → List (ℕ × ℕ) → Ret Unit
  | _, [] => .ok ()
  | prev, (height, rate) :: rest => do
    ensure (rate ≠ 0) (.fault "contract storage schedule rate must be positive")
    ensure (height % p.targetCapacityBlocks = 0)
      (.fault "contract storage schedule height must be a multiple of T")
    p.validateOrder prev height rate
    ensure (rate < p.maxBlockDiscountBytes)
      (.fault "contract storage K_max must exceed every schedule rate")
    ensure (rate * p.targetCapacityBlocks ≤ u128Max)
      (.fault "contract storage capacity overflows")
    ensure (rate * p.targetCapacityBlocks ≤ uint12Max)
      (.fault "contract storage capacity exceeds Uint12 maximum")
    validateSchedule p (some (height, rate)) rest

def validate (p : ContractStorageFeeParams) (maxPeriods : ℕ) : Ret Unit :=
  if p.isDisabled then .ok ()
  else do
    ensure (p.ruleVersion = contractStorageRuleV1)
      (.fault "unsupported contract storage rule version")
    ensure (p.curveSteps = 1000 ∧ p.periodFloor = 10)
      (.fault "contract storage rule v1 requires curve_steps=1000 and period_floor=10")
    ensure (p.periodFloor * p.curveSteps = maxPeriods)
      (.fault "contract storage period_floor × curve_steps must equal P_max")
    ensure (p.targetCapacityBlocks ≠ 0)
      (.fault "contract storage target_capacity_blocks must be positive")
    ensure (p.activationHeight % p.targetCapacityBlocks = 0)
      (.fault "contract storage activation height must be a multiple of T")
    ensure (p.maxBlockDiscountBytes ≠ 0)
      (.fault "contract storage max_block_discount_bytes must be positive")
    p.validateSchedule none p.supplementSchedule

end ContractStorageFeeParams

/-! ## Budget state (contract_storage.rs:33–135) -/

/-- `ContractStorageBudget`: the persistent record. -/
structure ContractStorageBudget where
  stateVersion : ℕ
  remainingBytes : ℕ
  appliedCapacityBytes : ℕ
  deriving DecidableEq

def contractStorageBudgetVersionV1 : ℕ := 1

/-- What a state layer holds under the budget's three keys. -/
structure BudgetState where
  record : Option ContractStorageBudget
  /-- `BLOCK_BUDGET_START_KEY` -/
  start : Option ℕ
  /-- `BLOCK_BUDGET_USED_KEY` -/
  used : Option ℕ
  deriving DecidableEq

/-- Nothing stored: before the first block. -/
def BudgetState.empty : BudgetState := ⟨none, none, none⟩

/-- `ContractStorageBlockSnapshot`. -/
structure ContractStorageBlockSnapshot where
  remainingStart : ℕ
  usedDiscount : ℕ
  capacity : ℕ
  rate : ℕ
  quota : ℕ
  deriving DecidableEq

def ContractStorageBlockSnapshot.remainingQuota (snap : ContractStorageBlockSnapshot) : ℕ :=
  snap.quota - snap.usedDiscount

def budgetFatal (msg : String) : Error := .abort ("contract storage budget: " ++ msg)

/-- `write_u128_transient`: the value to be written under a transient key. -/
def uint12Transient (value : ℕ) : Ret ℕ := do
  ensure (value ≤ uint12Max) (budgetFatal "transient value overflows Uint12")
  return value

/-! ## Lifecycle (contract_storage.rs:137–403) -/

section

variable (p : ContractStorageFeeParams)

/-- The budget at the start of a block: the whole capacity without a record, else the recorded one
with the growth credited. -/
def startBudget (record : Option ContractStorageBudget) (capacity : ℕ) : Ret ℕ :=
  match record with
  | none => .ok capacity
  | some record => do
    ensure (record.stateVersion = contractStorageBudgetVersionV1)
      (budgetFatal "unsupported budget state version")
    ensure (record.appliedCapacityBytes ≤ capacity)
      (budgetFatal "active capacity shrank below applied capacity")
    ensure (record.remainingBytes ≤ record.appliedCapacityBytes)
      (budgetFatal "remaining budget exceeds recorded capacity")
    ensure (record.remainingBytes + (capacity - record.appliedCapacityBytes) ≤ u128Max)
      (budgetFatal "capacity migration overflow")
    return record.remainingBytes + (capacity - record.appliedCapacityBytes)

def initBlockContractStorageBudget (s : BudgetState) (height : ℕ) :
    Ret (BudgetState × Option ContractStorageBlockSnapshot) :=
  if p.isDisabled then .ok (s, none)
  else
    match p.activeEntry height with
    | none => .error (budgetFatal "no active schedule entry")
    | some (_, rate) => do
      let capacity ← p.capacityAt height
      let start ← startBudget s.record capacity
      let startKey ← uint12Transient start
      let usedKey ← uint12Transient 0
      return ({ s with start := some startKey, used := some usedKey },
        some { remainingStart := start, usedDiscount := 0, capacity, rate,
               quota := p.blockQuota start })

def readBlockContractStorageSnapshot (s : BudgetState) (height : ℕ) :
    Ret (Option ContractStorageBlockSnapshot) :=
  if p.isDisabled then .ok none
  else
    match p.activeEntry height with
    | none => .error (budgetFatal "no active schedule entry")
    | some (_, rate) => do
      let capacity ← p.capacityAt height
      let start ← okOr s.start (budgetFatal "block budget snapshot missing while active")
      ensure (start ≤ capacity) (budgetFatal "block budget start exceeds capacity")
      let used ← okOr s.used (budgetFatal "block budget used key missing while active")
      ensure (used ≤ p.blockQuota start) (budgetFatal "block discount usage exceeds quota")
      return some { remainingStart := start, usedDiscount := used, capacity, rate,
                    quota := p.blockQuota start }

def consumeBlockContractStorageDiscount (s : BudgetState) (snapshot : ContractStorageBlockSnapshot)
    (chargeBytes : ℕ) : Ret (BudgetState × ContractStorageBlockSnapshot) := do
  ensure (chargeBytes ≤ snapshot.remainingQuota)
    (.fault "contract storage discount quota exhausted")
  ensure (snapshot.usedDiscount + chargeBytes ≤ u128Max)
    (budgetFatal "block discount usage overflow")
  let usedKey ← uint12Transient (snapshot.usedDiscount + chargeBytes)
  return ({ s with used := some usedKey },
    { snapshot with usedDiscount := snapshot.usedDiscount + chargeBytes })

/-- `ContractStorageSettlement`. -/
structure ContractStorageSettlement where
  bStart : ℕ
  discountUsed : ℕ
  bNext : ℕ
  capacity : ℕ
  rate : ℕ
  deriving DecidableEq

def settleBlockContractStorageBudget (s : BudgetState) (height : ℕ) :
    Ret (BudgetState × Option ContractStorageSettlement) := do
  match ← readBlockContractStorageSnapshot p s height with
  | none => return (s, none)
  | some snapshot => do
    ensure (snapshot.usedDiscount ≤ snapshot.remainingStart) (budgetFatal "budget underflow")
    let remaining := snapshot.remainingStart - snapshot.usedDiscount
    ensure (remaining + snapshot.rate ≤ u128Max) (budgetFatal "budget refill overflow")
    let bNext := min (remaining + snapshot.rate) snapshot.capacity
    ensure (bNext ≤ uint12Max) (budgetFatal "B_next overflows Uint12")
    ensure (snapshot.capacity ≤ uint12Max) (budgetFatal "capacity overflows Uint12")
    return ({ record := some { stateVersion := contractStorageBudgetVersionV1
                               remainingBytes := bNext
                               appliedCapacityBytes := snapshot.capacity }
              start := none, used := none },
      some { bStart := snapshot.remainingStart, discountUsed := snapshot.usedDiscount, bNext,
             capacity := snapshot.capacity, rate := snapshot.rate })

def verifyBlockContractStorageState (s : BudgetState) (height : ℕ) : Ret Unit := do
  ensure (s.start = none) (budgetFatal "transient budget start key leaked into settled state")
  ensure (s.used = none) (budgetFatal "transient budget used key leaked into settled state")
  if p.isDisabled then
    ensure (s.record = none) (budgetFatal "budget record exists while discount is disabled")
  else do
    let capacity ← p.capacityAt height
    let record ← okOr s.record (budgetFatal "budget record missing after settlement")
    ensure (record.stateVersion = contractStorageBudgetVersionV1)
      (budgetFatal "unsupported budget state version")
    ensure (record.appliedCapacityBytes = capacity)
      (budgetFatal "settled record capacity does not match active capacity")
    ensure (record.remainingBytes ≤ capacity) (budgetFatal "remaining budget exceeds capacity")

/-! ## Blocks -/

/-- A child is spawned on top, the top is committed or discarded, or the top consumes discount
bytes. -/
inductive LayerOp where
  | spawn
  | commit
  | discard
  | consume (chargeBytes : ℕ)

/-- A stack of layers: the top one and those below it, the block's own layer last. -/
structure BudgetLayers where
  top : BudgetState
  below : List BudgetState

/-- One operation. A consumption reads the snapshot and consumes. Where it fails the layer stays:
inside a block that is the quota error, and no fatal one that would end the block
(`InBlock.readSnapshot`, `InBlock.consume`). -/
def BudgetLayers.step (height : ℕ) (l : BudgetLayers) : LayerOp → BudgetLayers
  | .spawn => ⟨l.top, l.top :: l.below⟩
  | .commit =>
    match l.below with
    | [] => l
    | _ :: rest => ⟨l.top, rest⟩
  | .discard =>
    match l.below with
    | [] => l
    | parent :: rest => ⟨parent, rest⟩
  | .consume chargeBytes =>
    match readBlockContractStorageSnapshot p l.top height with
    | .ok (some snapshot) =>
      match consumeBlockContractStorageDiscount l.top snapshot chargeBytes with
      | .ok (top, _) => { l with top }
      | .error _ => l
    | _ => l

/-- The block's own layer after a sequence of operations; a layer left open is dropped. -/
def runLayers (height : ℕ) (s : BudgetState) (ops : List LayerOp) : BudgetState :=
  let l := ops.foldl (BudgetLayers.step p height) ⟨s, []⟩
  l.below.getLast?.getD l.top

/-- One block: initialise, run the transactions, settle, verify. -/
def applyBlock (s : BudgetState) (height : ℕ) (ops : List LayerOp) :
    Ret (BudgetState × Option ContractStorageSettlement) := do
  let (s, _) ← initBlockContractStorageBudget p s height
  let (s, settlement) ← settleBlockContractStorageBudget p (runLayers p height s ops) height
  verifyBlockContractStorageState p s height
  return (s, settlement)

/-- Blocks at consecutive heights, with their settlements. -/
def runBlocks : BudgetState → ℕ → List (List LayerOp) →
    Ret (BudgetState × List (Option ContractStorageSettlement))
  | s, _, [] => .ok (s, [])
  | s, height, ops :: blocks => do
    let (s, settlement) ← applyBlock p s height ops
    let (s, settlements) ← runBlocks s (height + 1) blocks
    return (s, settlement :: settlements)

end

/-! ## What validation gives -/

/-- An admitted schedule: strictly increasing heights and rates, capacities that fit. -/
structure ScheduleOk (p : ContractStorageFeeParams) : Prop where
  increasing : p.supplementSchedule.Pairwise (fun a b => a.1 < b.1 ∧ a.2 < b.2)
  capacity_le : ∀ e ∈ p.supplementSchedule, e.2 * p.targetCapacityBlocks ≤ uint12Max
  period_pos : p.supplementSchedule ≠ [] → 0 < p.targetCapacityBlocks

namespace ContractStorageFeeParams

variable {p : ContractStorageFeeParams}

theorem validateSchedule_ok : ∀ {prev : Option (ℕ × ℕ)} {entries : List (ℕ × ℕ)},
    p.validateSchedule prev entries = .ok () →
    entries.Pairwise (fun a b => a.1 < b.1 ∧ a.2 < b.2) ∧
      (∀ e ∈ entries, e.2 * p.targetCapacityBlocks ≤ uint12Max) ∧
      ∀ q, prev = some q → ∀ e ∈ entries, q.1 < e.1 ∧ q.2 < e.2
  | _, [], _ => ⟨List.Pairwise.nil, nofun, fun _ _ => nofun⟩
  | prev, (height, rate) :: rest, h => by
    obtain ⟨_, _, h⟩ := bind_eq_ok h
    obtain ⟨_, _, h⟩ := bind_eq_ok h
    obtain ⟨_, hprev, h⟩ := bind_eq_ok h
    obtain ⟨_, _, h⟩ := bind_eq_ok h
    obtain ⟨_, _, h⟩ := bind_eq_ok h
    obtain ⟨_, hcap, h⟩ := bind_eq_ok h
    obtain ⟨hpair, hcaps, hafter⟩ := validateSchedule_ok h
    have hhead := hafter (height, rate) rfl
    refine ⟨List.Pairwise.cons hhead hpair, ?_, ?_⟩
    · intro e he
      rcases mem_cons.mp he with rfl | he
      · exact of_ensure hcap
      · exact hcaps e he
    · rintro q rfl e he
      obtain ⟨_, hmono, _⟩ := bind_eq_ok hprev
      have hq := of_ensure hmono
      rcases mem_cons.mp he with rfl | he
      · exact hq
      · exact ⟨hq.1.trans (hhead e he).1, hq.2.trans (hhead e he).2⟩

theorem validate_ok {maxPeriods : ℕ} (h : p.validate maxPeriods = .ok ()) : ScheduleOk p := by
  rw [validate] at h
  split_ifs at h with hdis
  · have hnil : p.supplementSchedule = [] := isEmpty_iff.mp hdis
    exact ⟨hnil ▸ List.Pairwise.nil, by rw [hnil]; exact nofun, fun hne => absurd hnil hne⟩
  · obtain ⟨_, _, h⟩ := bind_eq_ok h
    obtain ⟨_, _, h⟩ := bind_eq_ok h
    obtain ⟨_, _, h⟩ := bind_eq_ok h
    obtain ⟨_, hpos, h⟩ := bind_eq_ok h
    obtain ⟨_, _, h⟩ := bind_eq_ok h
    obtain ⟨_, _, h⟩ := bind_eq_ok h
    obtain ⟨hpair, hcaps, _⟩ := validateSchedule_ok h
    exact ⟨hpair, hcaps, fun _ => Nat.pos_of_ne_zero (of_ensure hpos)⟩

theorem exists_activeEntry (hdis : p.isDisabled = false) (height : ℕ) :
    ∃ e ∈ p.supplementSchedule, p.activeEntry height = some e := by
  have hne : p.supplementSchedule ≠ [] := fun hnil => by
    rw [isDisabled, hnil] at hdis
    cases hdis
  rw [activeEntry, hdis, if_neg Bool.false_ne_true]
  cases hlast : (p.supplementSchedule.filter (fun e => e.1 ≤ height)).getLast? with
  | some e =>
    exact ⟨e, mem_of_mem_filter (mem_of_getLast? hlast), rfl⟩
  | none =>
    obtain ⟨e, rest, hcons⟩ := exists_cons_of_ne_nil hne
    exact ⟨e, by rw [hcons]; exact mem_cons_self, by rw [hcons]; rfl⟩

theorem rate_le_getLast {entries : List (ℕ × ℕ)}
    (hpair : entries.Pairwise (fun a b => a.1 < b.1 ∧ a.2 < b.2)) {e last : ℕ × ℕ}
    (he : e ∈ entries) (hlast : entries.getLast? = some last) : e.2 ≤ last.2 := by
  obtain ⟨init, rfl⟩ : ∃ init, entries = init ++ [last] := List.getLast?_eq_some_iff.mp hlast
  rcases mem_append.mp he with he | he
  · exact ((pairwise_append.mp hpair).2.2 e he last (mem_singleton.mpr rfl)).2.le
  · rw [mem_singleton.mp he]

/-- The active rate never falls. -/
theorem activeEntry_mono (ok : ScheduleOk p) {h₁ h₂ : ℕ} (hle : h₁ ≤ h₂) {e₁ e₂ : ℕ × ℕ}
    (he₁ : p.activeEntry h₁ = some e₁) (he₂ : p.activeEntry h₂ = some e₂) : e₁.2 ≤ e₂.2 := by
  have hdis : p.isDisabled = false := by
    by_contra hd
    rw [activeEntry, if_pos (by simpa using hd)] at he₁
    cases he₁
  rw [activeEntry, hdis, if_neg Bool.false_ne_true] at he₁ he₂
  have hpair₂ := ok.increasing.sublist
    (filter_sublist (l := p.supplementSchedule) (p := fun e => e.1 ≤ h₂))
  cases hlast₁ : (p.supplementSchedule.filter (fun e => e.1 ≤ h₁)).getLast? with
  | some e =>
    rw [hlast₁] at he₁
    cases he₁
    -- an entry active before is still a candidate, so the later one is after it
    have hmem₁ := mem_filter.mp (mem_of_getLast? hlast₁)
    have hmem₂ : e₁ ∈ p.supplementSchedule.filter (fun e => e.1 ≤ h₂) :=
      mem_filter.mpr ⟨hmem₁.1, by
        have := hmem₁.2
        simp only [decide_eq_true_eq] at this ⊢
        omega⟩
    cases hlast₂ : (p.supplementSchedule.filter (fun e => e.1 ≤ h₂)).getLast? with
    | none =>
      rw [List.getLast?_eq_none_iff] at hlast₂
      rw [hlast₂] at hmem₂
      cases hmem₂
    | some e' =>
      rw [hlast₂] at he₂
      cases he₂
      exact rate_le_getLast hpair₂ hmem₂ hlast₂
  | none =>
    rw [hlast₁, Option.none_or] at he₁
    -- before the first entry: the first one, which is below every other
    have hall : ∀ e ∈ p.supplementSchedule, e₁.2 ≤ e.2 := by
      intro e he
      obtain ⟨rest, hcons⟩ := List.head?_eq_some_iff.mp he₁
      rw [hcons] at he
      rcases mem_cons.mp he with rfl | he
      · exact le_rfl
      · have := ok.increasing
        rw [hcons] at this
        exact ((pairwise_cons.mp this).1 e he).2.le
    obtain ⟨e, hemem, hact⟩ := exists_activeEntry hdis h₂
    rw [activeEntry, hdis, if_neg Bool.false_ne_true, he₂] at hact
    cases hact
    exact hall e₂ hemem

end ContractStorageFeeParams

/-! ## Inside a block -/

section

variable {p : ContractStorageFeeParams}

theorem ScheduleOk.active (ok : ScheduleOk p) (hdis : p.isDisabled = false) (height : ℕ) :
    ∃ e, p.activeEntry height = some e ∧
      p.capacityAt height = .ok (e.2 * p.targetCapacityBlocks) ∧
      e.2 * p.targetCapacityBlocks ≤ uint12Max ∧ e.2 ≤ e.2 * p.targetCapacityBlocks := by
  obtain ⟨e, hmem, he⟩ := p.exists_activeEntry hdis height
  have hcap := ok.capacity_le e hmem
  have hmax : uint12Max ≤ u128Max := by decide
  refine ⟨e, he, ?_, hcap, ?_⟩
  · rw [capacityAt, he]
    dsimp only
    rw [ensure_of _ (hcap.trans hmax)]
    rfl
  · exact Nat.le_mul_of_pos_right _ (ok.period_pos (ne_nil_of_mem hmem))

/-- A layer inside a block that started with the budget `B`. -/
structure InBlock (p : ContractStorageFeeParams) (B : ℕ) (s : BudgetState) : Prop where
  start : s.start = some B
  used : ∃ d, s.used = some d ∧ d ≤ p.blockQuota B

variable {B height inUse : ℕ} {s : BudgetState} {e : ℕ × ℕ}

theorem InBlock.readSnapshot (ib : InBlock p B s)
    (ok : ScheduleOk p) (hdis : p.isDisabled = false)
    (he : p.activeEntry height = some e) (hB : B ≤ e.2 * p.targetCapacityBlocks) :
    ∃ d, s.used = some d ∧ d ≤ p.blockQuota B ∧
      readBlockContractStorageSnapshot p s height
        = .ok (some { remainingStart := B, usedDiscount := d,
                      capacity := e.2 * p.targetCapacityBlocks, rate := e.2,
                      quota := p.blockQuota B }) := by
  obtain ⟨d, hd, hle⟩ := ib.used
  obtain ⟨e', he', hcap, _⟩ := ok.active hdis height
  rw [he] at he'
  cases he'
  refine ⟨d, hd, hle, ?_⟩
  rw [readBlockContractStorageSnapshot, hdis, if_neg Bool.false_ne_true, he]
  dsimp only
  rw [hcap, ok_bind, ib.start, hd, okOr, ok_bind, ensure_of _ hB, ok_bind, okOr, ok_bind,
    ensure_of _ hle]
  rfl

/-- Inside a block a consumption fails for the quota only. -/
theorem InBlock.consume (ib : InBlock p B s) (snap : ContractStorageBlockSnapshot)
    (chargeBytes : ℕ) (hB : B ≤ uint12Max) (hquota : snap.quota = p.blockQuota B)
    (hused : snap.usedDiscount ≤ p.blockQuota B) :
    (∃ s' snap', consumeBlockContractStorageDiscount s snap chargeBytes = .ok (s', snap') ∧
      InBlock p B s') ∨
    consumeBlockContractStorageDiscount s snap chargeBytes
      = .error (.fault "contract storage discount quota exhausted") := by
  by_cases hle : chargeBytes ≤ snap.remainingQuota
  · have hsum : snap.usedDiscount + chargeBytes ≤ p.blockQuota B := by
      rw [ContractStorageBlockSnapshot.remainingQuota, hquota] at hle
      omega
    have hmax : snap.usedDiscount + chargeBytes ≤ uint12Max :=
      hsum.trans ((min_le_left _ _).trans hB)
    refine .inl ⟨{ s with used := some (snap.usedDiscount + chargeBytes) },
      { snap with usedDiscount := snap.usedDiscount + chargeBytes }, ?_, ib.start, _, rfl, hsum⟩
    rw [consumeBlockContractStorageDiscount, ensure_of _ hle, ok_bind,
      ensure_of _ (hmax.trans (by decide)), ok_bind, uint12Transient, ensure_of _ hmax]
    rfl
  · right
    rw [consumeBlockContractStorageDiscount, ensure, if_neg hle]
    rfl

/-- What a consumption keeps, every operation keeps in all layers. -/
theorem BudgetLayers.step_keeps {P : BudgetState → Prop} {l : BudgetLayers}
    (hconsume : ∀ n, P (l.step p height (.consume n)).top ∧
      (l.step p height (.consume n)).below = l.below)
    (op : LayerOp) (htop : P l.top) (hbelow : ∀ s ∈ l.below, P s) :
    P (l.step p height op).top ∧ ∀ s ∈ (l.step p height op).below, P s := by
  cases op with
  | spawn =>
    refine ⟨htop, fun s hs => ?_⟩
    rcases mem_cons.mp hs with rfl | hs
    · exact htop
    · exact hbelow s hs
  | commit =>
    rw [BudgetLayers.step]
    split
    · exact ⟨htop, hbelow⟩
    · next parent rest heq =>
      exact ⟨htop, fun s hs => hbelow s (heq ▸ mem_cons_of_mem _ hs)⟩
  | discard =>
    rw [BudgetLayers.step]
    split
    · exact ⟨htop, hbelow⟩
    · next parent rest heq =>
      exact ⟨hbelow parent (heq ▸ mem_cons_self),
        fun s hs => hbelow s (heq ▸ mem_cons_of_mem _ hs)⟩
  | consume n =>
    obtain ⟨htop', hsame⟩ := hconsume n
    exact ⟨htop', hsame ▸ hbelow⟩

theorem runLayers_keeps {P : BudgetState → Prop} (hconsume : ∀ (l : BudgetLayers) (n : ℕ), P l.top →
      P (l.step p height (.consume n)).top ∧ (l.step p height (.consume n)).below = l.below)
    (ops : List LayerOp) (hs : P s) : P (runLayers p height s ops) := by
  have hrun : ∀ (ops : List LayerOp) (l : BudgetLayers), P l.top → (∀ x ∈ l.below, P x) →
      P (ops.foldl (BudgetLayers.step p height) l).top ∧
        ∀ x ∈ (ops.foldl (BudgetLayers.step p height) l).below, P x := by
    intro ops
    induction ops with
    | nil => exact fun l htop hbelow => ⟨htop, hbelow⟩
    | cons op ops ih =>
      intro l htop hbelow
      obtain ⟨htop', hbelow'⟩ := BudgetLayers.step_keeps (hconsume l · htop) op htop hbelow
      exact ih _ htop' hbelow'
  obtain ⟨htop, hbelow⟩ := hrun ops ⟨s, []⟩ hs nofun
  rw [runLayers]
  cases hlast : (ops.foldl (BudgetLayers.step p height) ⟨s, []⟩).below.getLast? with
  | none => exact htop
  | some x => exact hbelow x (mem_of_getLast? hlast)

theorem runLayers_inBlock (ok : ScheduleOk p)
    (hdis : p.isDisabled = false) (he : p.activeEntry height = some e)
    (hB : B ≤ e.2 * p.targetCapacityBlocks) (ops : List LayerOp) (ib : InBlock p B s) :
    InBlock p B (runLayers p height s ops) := by
  refine runLayers_keeps (fun l n htop => ?_) ops ib
  obtain ⟨d, _, hd, hread⟩ := htop.readSnapshot ok hdis he hB
  obtain ⟨e', he', _, hcap, _⟩ := ok.active hdis height
  rw [he] at he'
  cases he'
  rw [BudgetLayers.step, hread]
  dsimp only
  rcases htop.consume ⟨B, d, _, e.2, p.blockQuota B⟩ n (hB.trans hcap) rfl hd with
    ⟨top, snap, hcons, htop'⟩ | hfull
  · rw [hcons]
    exact ⟨htop', rfl⟩
  · rw [hfull]
    exact ⟨htop, rfl⟩

/-! ## Whole blocks -/

/-- What a settlement says: the chain of inequalities and the refill. -/
structure SettlementOk (p : ContractStorageFeeParams) (height : ℕ)
    (st : ContractStorageSettlement) : Prop where
  used_le_quota : st.discountUsed ≤ p.blockQuota st.bStart
  quota_le_start : p.blockQuota st.bStart ≤ st.bStart
  start_le_capacity : st.bStart ≤ st.capacity
  next_eq : st.bNext = min st.capacity (st.bStart - st.discountUsed + st.rate)
  next_le_capacity : st.bNext ≤ st.capacity
  rate : ∃ h, p.activeEntry height = some (h, st.rate)
  capacity : st.capacity = st.rate * p.targetCapacityBlocks

/-- A state between blocks: no transient key, and a record (if any) of a capacity already reached.
-/
structure Ready (p : ContractStorageFeeParams) (height inUse : ℕ) (s : BudgetState) : Prop where
  start : s.start = none
  used : s.used = none
  record : (s.record = none ∧ inUse = 0) ∨ ∃ r, s.record = some r ∧
    r.stateVersion = contractStorageBudgetVersionV1 ∧ r.remainingBytes ≤ r.appliedCapacityBytes ∧
    inUse = r.appliedCapacityBytes - r.remainingBytes ∧
    ∀ e, p.activeEntry height = some e → r.appliedCapacityBytes ≤ e.2 * p.targetCapacityBlocks

theorem Ready.startBudget (ready : Ready p height inUse s) (he : p.activeEntry height = some e)
    (hcap : e.2 * p.targetCapacityBlocks ≤ uint12Max) :
    ∃ B, Hacash.startBudget s.record (e.2 * p.targetCapacityBlocks) = .ok B ∧
      B ≤ e.2 * p.targetCapacityBlocks ∧ e.2 * p.targetCapacityBlocks - B = inUse := by
  rcases ready.record with ⟨hnone, hused⟩ | ⟨r, hsome, hver, hrem, hused, hle⟩
  · refine ⟨_, by rw [hnone]; rfl, le_rfl, ?_⟩
    rw [hused, Nat.sub_self]
  · have hle := hle e he
    have hmax : uint12Max ≤ u128Max := by decide
    refine ⟨r.remainingBytes + (e.2 * p.targetCapacityBlocks - r.appliedCapacityBytes), ?_,
      by omega, by omega⟩
    rw [hsome, Hacash.startBudget, ensure_of _ hver, ensure_of _ hle, ensure_of _ hrem,
      ensure_of _ (by omega)]
    rfl

theorem Ready.initBlock (ready : Ready p height inUse s)
    (ok : ScheduleOk p) (hdis : p.isDisabled = false) (he : p.activeEntry height = some e) :
    ∃ B s' snap, initBlockContractStorageBudget p s height = .ok (s', snap) ∧
      InBlock p B s' ∧ B ≤ e.2 * p.targetCapacityBlocks ∧
      e.2 * p.targetCapacityBlocks - B = inUse := by
  obtain ⟨e', he', hcapAt, hcap, _⟩ := ok.active hdis height
  rw [he] at he'
  cases he'
  obtain ⟨B, hB, hBle, hinUse⟩ := ready.startBudget he hcap
  refine ⟨B, { s with start := some B, used := some 0 },
    some { remainingStart := B, usedDiscount := 0, capacity := e.2 * p.targetCapacityBlocks,
           rate := e.2, quota := p.blockQuota B }, ?_, ⟨rfl, 0, rfl, Nat.zero_le _⟩, hBle, hinUse⟩
  rw [initBlockContractStorageBudget, hdis, if_neg Bool.false_ne_true, he]
  dsimp only
  rw [hcapAt, ok_bind, hB, ok_bind, uint12Transient, ensure_of _ (hBle.trans hcap)]
  rfl

/-- Settlement of a layer inside its block. -/
theorem InBlock.settle (ib : InBlock p B s) (ok : ScheduleOk p) (hdis : p.isDisabled = false)
    (he : p.activeEntry height = some e) (hB : B ≤ e.2 * p.targetCapacityBlocks) :
    ∃ st, settleBlockContractStorageBudget p s height
        = .ok (⟨some ⟨contractStorageBudgetVersionV1, st.bNext, st.capacity⟩, none, none⟩,
            some st) ∧
      st.bStart = B ∧ s.used = some st.discountUsed ∧ SettlementOk p height st := by
  obtain ⟨e', he', _, hcap, hrate⟩ := ok.active hdis height
  rw [he] at he'
  cases he'
  obtain ⟨d, hused, hd, hread⟩ := ib.readSnapshot ok hdis he hB
  have hquota : p.blockQuota B ≤ B := min_le_left _ _
  have hmax : uint12Max + uint12Max ≤ u128Max := by decide
  refine ⟨{ bStart := B, discountUsed := d,
            bNext := min (B - d + e.2) (e.2 * p.targetCapacityBlocks),
            capacity := e.2 * p.targetCapacityBlocks, rate := e.2 }, ?_, rfl, hused,
    { used_le_quota := hd, quota_le_start := hquota, start_le_capacity := hB
      next_eq := min_comm _ _, next_le_capacity := min_le_right _ _
      rate := ⟨e.1, he⟩, capacity := rfl }⟩
  rw [settleBlockContractStorageBudget, hread, ok_bind]
  dsimp only
  rw [ensure_of _ (hd.trans hquota), ok_bind, ensure_of _ (by omega), ok_bind,
    ensure_of _ ((min_le_right _ _).trans hcap), ok_bind, ensure_of _ hcap]
  rfl

theorem SettlementOk.verify {st : ContractStorageSettlement}
    (hst : SettlementOk p height st) (ok : ScheduleOk p) (hdis : p.isDisabled = false) :
    verifyBlockContractStorageState p
      ⟨some ⟨contractStorageBudgetVersionV1, st.bNext, st.capacity⟩, none, none⟩ height
      = .ok () := by
  obtain ⟨h, he⟩ := hst.rate
  obtain ⟨e', he', hcapAt, _⟩ := ok.active hdis height
  rw [he] at he'
  cases he'
  rw [verifyBlockContractStorageState, ensure_of _ rfl, ok_bind, ensure_of _ rfl, ok_bind, hdis,
    if_neg Bool.false_ne_true, hcapAt, ok_bind, okOr, ok_bind]
  dsimp only
  rw [ensure_of _ rfl, ok_bind, ensure_of _ hst.capacity, ok_bind]
  exact ensure_of _ (hst.capacity ▸ hst.next_le_capacity)

/-- One block of an enabled schedule settles as it should and leaves a state that is ready. -/
theorem Ready.applyBlock (ready : Ready p height inUse s)
    (ok : ScheduleOk p) (hdis : p.isDisabled = false) (ops : List LayerOp) :
    ∃ s' st, Hacash.applyBlock p s height ops = .ok (s', some st) ∧ SettlementOk p height st ∧
      st.capacity - st.bStart = inUse ∧ Ready p (height + 1) (st.capacity - st.bNext) s' := by
  obtain ⟨e, he, _⟩ := ok.active hdis height
  obtain ⟨B, s1, snap, hinit, hib, hB, hinUse⟩ := ready.initBlock ok hdis he
  have hib' := runLayers_inBlock ok hdis he hB ops hib
  obtain ⟨st, hsettle, hstart, -, hst⟩ := hib'.settle ok hdis he hB
  have hcapacity : st.capacity = e.2 * p.targetCapacityBlocks := by
    obtain ⟨h, he'⟩ := hst.rate
    rw [he] at he'
    cases he'
    exact hst.capacity
  refine ⟨⟨some ⟨contractStorageBudgetVersionV1, st.bNext, st.capacity⟩, none, none⟩, st, ?_, hst,
    ?_, ⟨rfl, rfl, Or.inr ⟨_, rfl, rfl, hst.next_le_capacity, rfl, ?_⟩⟩⟩
  · rw [Hacash.applyBlock, hinit, ok_bind]
    dsimp only
    rw [hsettle, ok_bind]
    dsimp only
    rw [hst.verify ok hdis]
    rfl
  · rw [hstart, hcapacity]
    exact hinUse
  · intro e' he'
    change st.capacity ≤ _
    rw [hcapacity]
    exact Nat.mul_le_mul_right _ (activeEntry_mono ok (Nat.le_succ _) he he')

/-- The settlements of consecutive blocks, with `inUse` of the capacity in use before: each is as it
should be, and between two blocks `C - B` does not change. -/
def Chained (p : ContractStorageFeeParams) :
    ℕ → ℕ → List (Option ContractStorageSettlement) → Prop
  | _, _, [] => True
  | _, _, none :: _ => False
  | height, inUse, some st :: rest =>
    SettlementOk p height st ∧ st.capacity - st.bStart = inUse ∧
      Chained p (height + 1) (st.capacity - st.bNext) rest

theorem Ready.runBlocks (blocks : List (List LayerOp))
    (ready : Ready p height inUse s) (ok : ScheduleOk p) (hdis : p.isDisabled = false) :
    ∃ s' settlements, Hacash.runBlocks p s height blocks = .ok (s', settlements) ∧
      settlements.length = blocks.length ∧ Chained p height inUse settlements ∧
      s'.start = none ∧ s'.used = none := by
  induction blocks generalizing s height inUse with
  | nil => exact ⟨s, [], rfl, rfl, trivial, ready.start, ready.used⟩
  | cons ops blocks ih =>
    obtain ⟨s1, st, happly, hst, hinUse, hready⟩ := ready.applyBlock ok hdis ops
    obtain ⟨s', settlements, hrun, hlen, hchain, hstart, hused⟩ := ih hready
    refine ⟨s', some st :: settlements, ?_, by simp [hlen], ⟨hst, hinUse, hchain⟩, hstart, hused⟩
    rw [Hacash.runBlocks, happly, ok_bind]
    dsimp only
    rw [hrun]
    rfl

/-- A disabled schedule does nothing. -/
theorem runLayers_disabled (hdis : p.isDisabled = true) (height : ℕ) (s : BudgetState)
    (ops : List LayerOp) : runLayers p height s ops = s := by
  -- every layer is a copy of the block's
  refine runLayers_keeps (P := (· = s)) (fun l n htop => ?_) ops rfl
  rw [BudgetLayers.step, readBlockContractStorageSnapshot, if_pos hdis]
  exact ⟨htop, rfl⟩

theorem runBlocks_disabled (hdis : p.isDisabled = true) (blocks : List (List LayerOp))
    (height : ℕ) : runBlocks p .empty height blocks = .ok (.empty, blocks.map (fun _ => none)) := by
  induction blocks generalizing height with
  | nil => rfl
  | cons ops blocks ih =>
    have happly : applyBlock p .empty height ops = .ok (.empty, none) := by
      rw [applyBlock, initBlockContractStorageBudget, if_pos hdis, ok_bind]
      dsimp only
      rw [runLayers_disabled hdis, settleBlockContractStorageBudget,
        readBlockContractStorageSnapshot, if_pos hdis, ok_bind]
      have hverify : verifyBlockContractStorageState p .empty height = .ok () := by
        rw [verifyBlockContractStorageState, if_pos hdis]
        rfl
      show (do verifyBlockContractStorageState p .empty height; return _ : Ret _) = _
      rw [hverify]
      rfl
    rw [runBlocks, happly, ok_bind]
    dsimp only
    rw [ih]
    rfl

/-- The budget over a run of blocks from a state without a record. For every validated schedule the
run succeeds and leaves no transient key. With an enabled schedule every block settles with
`D ≤ K ≤ B_start ≤ C`, writes `min(C, B_start - D + R)`, and finds the used capacity as the block
before left it. -/
theorem contract_storage_budget {p : ContractStorageFeeParams} {maxPeriods : ℕ}
    (hvalid : p.validate maxPeriods = .ok ()) (height : ℕ) (blocks : List (List LayerOp)) :
    ∃ s settlements, runBlocks p .empty height blocks = .ok (s, settlements) ∧
      settlements.length = blocks.length ∧ s.start = none ∧ s.used = none ∧
      (p.isDisabled = false → Chained p height 0 settlements) ∧
      (p.isDisabled = true → s.record = none ∧ ∀ st ∈ settlements, st = none) := by
  have ok := validate_ok hvalid
  cases hdis : p.isDisabled with
  | true =>
    refine ⟨.empty, _, runBlocks_disabled hdis blocks height, by simp, rfl, rfl, nofun,
      fun _ => ⟨rfl, ?_⟩⟩
    intro st hst
    obtain ⟨_, _, rfl⟩ := mem_map.mp hst
    rfl
  | false =>
    have ready : Ready p height 0 .empty := ⟨rfl, rfl, Or.inl ⟨rfl, rfl⟩⟩
    obtain ⟨s, settlements, hrun, hlen, hchain, hstart, hused⟩ :=
      ready.runBlocks blocks ok hdis
    exact ⟨s, settlements, hrun, hlen, hstart, hused, fun _ => hchain, nofun⟩

/-- A schedule with one expansion. -/
def sampleStorageParams : ContractStorageFeeParams where
  ruleVersion := 1
  activationHeight := 0
  targetCapacityBlocks := 2
  curveSteps := 1000
  periodFloor := 10
  maxBlockDiscountBytes := 5000
  supplementSchedule := [(0, 1000), (2, 3000)]

/-- Over the expansion: a committed consumption, a discarded one and one beyond the quota. -/
def sampleStorageBlocks : List (List LayerOp) :=
  [[.spawn, .consume 1500, .commit], [.spawn, .consume 10, .discard],
    [.spawn, .consume 9000, .commit]]

theorem contract_storage_budget_sample :
    sampleStorageParams.validate 10000 = .ok () ∧
    ∃ s settlements, runBlocks sampleStorageParams .empty 0 sampleStorageBlocks
        = .ok (s, settlements) ∧ s.start = none ∧ s.used = none ∧
      Chained sampleStorageParams 0 0 settlements := by
  have hvalid : sampleStorageParams.validate 10000 = .ok () := by decide
  obtain ⟨s, settlements, hrun, _, hstart, hused, hchain, _⟩ :=
    contract_storage_budget hvalid 0 sampleStorageBlocks
  exact ⟨hvalid, s, settlements, hrun, hstart, hused, hchain rfl⟩

end

end Hacash
