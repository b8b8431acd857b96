import Hacash.Ledger.State

/-!
# Ledger operations (`base::ledger`, operate.rs)

HAC, satoshi, assets and diamond counts. For every operation one lemma says what a success did to
the balances, as a `CoreState.Rebalanced`.
-/

namespace Hacash

open CoreState

/-! ## Checks and totals (operate.rs:11–147) -/

def checkAmountIsPositive (amt : Amount) : Ret Unit :=
  ensure (amt.isPositive = true) (.fault "amount value is not positive")

def checkTransferRecipientAllowed (dst : Address) : Ret Unit :=
  ensure (¬ (dst.isPrivkeyUnknown = true ∧ dst ≠ blackholeAddr))
    (.fault "cannot transfer to system address (privkey unknown)")

def checkSupportedAddress (addr : Address) : Ret Unit :=
  ensure (addr.isSupported = true) (.fault "address version not supported")

/-- `Uint12::MAX`. -/
def uint12Max : ℕ := 2 ^ 96 - 1

/-- `total_add_u8`: a `Uint8` counter is a whole `u64`. -/
def totalAddU8 (cur add : ℕ) (name : String) : Ret ℕ := do
  ensure (cur + add ≤ u64Max) (.fault (name ++ " overflow"))
  return cur + add

def totalAddU12 (cur add : ℕ) (name : String) : Ret ℕ := do
  ensure (cur + add ≤ u128Max) (.fault (name ++ " overflow"))
  ensure (cur + add ≤ uint12Max) (.fault (name ++ " overflow"))
  return cur + add

def totalSubU8 (cur sub : ℕ) (name : String) : Ret ℕ := do
  ensure (sub ≤ cur) (.fault (name ++ " underflow"))
  return cur - sub

def totalSubU12 (cur sub : ℕ) (name : String) : Ret ℕ := do
  ensure (sub ≤ cur) (.fault (name ++ " underflow"))
  return cur - sub

def totalRecordBlackholeHac (s : CoreState) (amt : Amount) : Ret CoreState :=
  if amt.isPositive then do
    let v ← amt.to238U64
    let next ← totalAddU12 s.getBaseTotal.blackholeHacBurn238 v "blackhole_hac_burn_238"
    return s.setBaseTotal { s.getBaseTotal with blackholeHacBurn238 := next }
  else return s

def totalRecordBlackholeSat (s : CoreState) (sat : ℕ) : Ret CoreState :=
  if sat = 0 then return s
  else do
    let next ← totalAddU8 s.getBaseTotal.blackholeSatBurn sat "blackhole_sat_burn"
    return s.setBaseTotal { s.getBaseTotal with blackholeSatBurn := next }

def totalRecordBlackholeAsset (s : CoreState) : Ret CoreState := do
  let next ← totalAddU8 s.getBaseTotal.blackholeAssetBurnCount 1 "blackhole_asset_burn_count"
  return s.setBaseTotal { s.getBaseTotal with blackholeAssetBurnCount := next }

def totalRecordBlackholeHacd (s : CoreState) : Ret CoreState := do
  let next ← totalAddU8 s.getBaseTotal.blackholeHacdBurnCount 1 "blackhole_hacd_burn_count"
  return s.setBaseTotal { s.getBaseTotal with blackholeHacdBurnCount := next }

/-- `blackhole_engulf`, with the record that follows it where it engulfed. -/
def blackholeEngulf (s : CoreState) (addr : Address)
    (record : CoreState → Ret CoreState) : Ret CoreState :=
  if addr = blackholeAddr then
    record ((s.balanceSet addr .default).diamondOwnedDel addr)
  else return s

/-! ## HAC (operate.rs:161–253) -/

def doHacAdd (s : CoreState) (addr : Address) (amt : Amount) : Ret CoreState := do
  checkSupportedAddress addr
  let balance := s.balanceOf addr
  let newHac ← balance.hacash.addModeU128 amt
  newHac.checkStoreLong
  return s.balanceSet addr { balance with hacash := newHac }

def doHacSub (s : CoreState) (addr : Address) (amt : Amount) : Ret CoreState := do
  checkSupportedAddress addr
  let balance := s.balanceOf addr
  ensure (balance.hacash.lt amt = false) (.revert "address balance is insufficient")
  let newHac ← balance.hacash.subModeU128 amt
  newHac.checkStoreLong
  return s.balanceSet addr { balance with hacash := newHac }

def hacCheck (s : CoreState) (addr : Address) (amt : Amount) : Ret Amount := do
  checkAmountIsPositive amt
  checkSupportedAddress addr
  match s.balance addr with
  | some balance =>
    if balance.hacash.lt amt then revertf "address balance is insufficient"
    else return balance.hacash
  | none => revertf "address balance is insufficient"

def hacAdd (s : CoreState) (addr : Address) (amt : Amount) : Ret CoreState := do
  checkAmountIsPositive amt
  let s ← doHacAdd s addr amt
  blackholeEngulf s addr (fun s => totalRecordBlackholeHac s amt)

def hacSub (s : CoreState) (addr : Address) (amt : Amount) : Ret CoreState := do
  checkAmountIsPositive amt
  doHacSub s addr amt

/-- `hac_transfer`. A transfer to oneself moves nothing; from height 200000 on it needs the
balance. -/
def hacTransfer (s : CoreState) (height : ℕ) (src dst : Address) (amt : Amount) :
    Ret CoreState := do
  checkTransferRecipientAllowed dst
  if src = dst then do
    ensure (src.isPrivkey = true) (.fault "non-privkey address cannot transfer HAC to self")
    if 200000 ≤ height then do
      let _ ← hacCheck s src amt
      return s
    else return s
  else do
    checkAmountIsPositive amt
    let s ← doHacSub s src amt
    hacAdd s dst amt

/-! ## Satoshi (operate.rs:255–330) -/

def checkSatoshiNonzero (sat : ℕ) : Ret Unit := do
  ensure (sat ≠ 0) (.fault "satoshi amount cannot be empty")
  ensure (sat ≤ satoshiMax) (.fault "satoshi value exceeds max")

/-- `SatoshiAuto::from_satoshi` into a balance. -/
def Balance.setSatoshi (b : Balance) (sat : ℕ) : Ret Balance :=
  if h : sat ≤ satoshiMax then .ok { b with satoshi := sat, satoshi_le := h }
  else errf "satoshi value exceeds max"

/-- `sat_add`, with the new satoshi of the address. -/
def satAdd (s : CoreState) (addr : Address) (sat : ℕ) : Ret (CoreState × ℕ) := do
  checkSatoshiNonzero sat
  checkSupportedAddress addr
  let balance := s.balanceOf addr
  ensure (balance.satoshi + sat ≤ u64Max) (.fault "satoshi add overflow")
  let balance' ← balance.setSatoshi (balance.satoshi + sat)
  let s ← blackholeEngulf (s.balanceSet addr balance') addr
    (fun s => totalRecordBlackholeSat s sat)
  return (s, balance.satoshi + sat)

/-- `sat_sub`, with the new satoshi of the address. -/
def satSub (s : CoreState) (addr : Address) (sat : ℕ) : Ret (CoreState × ℕ) := do
  checkSatoshiNonzero sat
  checkSupportedAddress addr
  let balance := s.balanceOf addr
  ensure (sat ≤ balance.satoshi) (.revert "address satoshi is insufficient")
  let balance' ← balance.setSatoshi (balance.satoshi - sat)
  return (s.balanceSet addr balance', balance.satoshi - sat)

/-! ## Assets (operate.rs:332–400) -/

def checkAssetNonzero (asset : AssetAmt) : Ret Unit :=
  ensure (asset.amount.uint ≠ 0) (.fault "asset amount cannot be empty")

/-- `asset_add`, with the new amount of the address. -/
def assetAdd (s : CoreState) (addr : Address) (asset : AssetAmt) :
    Ret (CoreState × AssetAmt) := do
  checkAssetNonzero asset
  checkSupportedAddress addr
  let balance := s.balanceOf addr
  let old ← balance.assetMust asset.serial
  let next ← old.checkedAdd asset
  let balance' ← balance.assetSet next
  let s ← blackholeEngulf (s.balanceSet addr balance') addr totalRecordBlackholeAsset
  return (s, next)

/-- `asset_sub`, with the new amount of the address. -/
def assetSub (s : CoreState) (addr : Address) (asset : AssetAmt) :
    Ret (CoreState × AssetAmt) := do
  checkAssetNonzero asset
  checkSupportedAddress addr
  let balance := s.balanceOf addr
  let old ← balance.assetMust asset.serial
  ensure (asset.amount.uint ≤ old.amount.uint) (.revert "address asset is insufficient")
  let next ← old.checkedSub asset
  let balance' ← balance.assetSet next
  return (s.balanceSet addr balance', next)

/-! ## What a success did -/

/-- Only the totals differ. -/
def OnlyTotals (s s' : CoreState) : Prop := ∃ t, s' = { s with baseTotal := t }

variable {s s' : CoreState} {amt : Amount} {sat : ℕ} {addr : Address}

theorem totalRecordBlackholeHac_ok
    (h : totalRecordBlackholeHac s amt = .ok s') : OnlyTotals s s' := by
  rw [totalRecordBlackholeHac] at h
  split_ifs at h
  · obtain ⟨v, _, h⟩ := bind_eq_ok h
    obtain ⟨next, _, h⟩ := bind_eq_ok h
    cases h
    exact ⟨_, rfl⟩
  · cases h
    exact ⟨_, rfl⟩

theorem totalRecordBlackholeSat_ok
    (h : totalRecordBlackholeSat s sat = .ok s') : OnlyTotals s s' := by
  rw [totalRecordBlackholeSat] at h
  split_ifs at h
  · cases h
    exact ⟨_, rfl⟩
  · obtain ⟨next, _, h⟩ := bind_eq_ok h
    cases h
    exact ⟨_, rfl⟩

theorem totalRecordBlackholeAsset_ok
    (h : totalRecordBlackholeAsset s = .ok s') : OnlyTotals s s' := by
  obtain ⟨next, _, h⟩ := bind_eq_ok h
  cases h
  exact ⟨_, rfl⟩

theorem totalRecordBlackholeHacd_ok
    (h : totalRecordBlackholeHacd s = .ok s') : OnlyTotals s s' := by
  obtain ⟨next, _, h⟩ := bind_eq_ok h
  cases h
  exact ⟨_, rfl⟩

/-- What engulfing leaves: the balance as it was, or nothing at the blackhole. -/
def engulfed (addr : Address) (b : Balance) : Balance :=
  if addr = blackholeAddr then .default else b

theorem blackholeEngulf_ok {record : CoreState → Ret CoreState} {b : Balance}
    (hrecord : ∀ {s s' : CoreState}, record s = .ok s' → OnlyTotals s s')
    (h : blackholeEngulf (s.balanceSet addr b) addr record = .ok s') :
    Rebalanced s s' addr (engulfed addr b) := by
  rw [blackholeEngulf] at h
  rw [engulfed]
  split_ifs at h ⊢ with haddr
  · obtain ⟨t, rfl⟩ := hrecord h
    have h1 := (rebalanced_balanceSet s addr b).trans
      (rebalanced_balanceSet (s.balanceSet addr b) addr .default)
    exact ⟨h1.balanceOf, rfl, rfl, rfl, rfl, rfl⟩
  · cases h
    exact rebalanced_balanceSet s addr b

theorem doHacSub_ok (h : doHacSub s addr amt = .ok s') :
    ∃ new, (s.balanceOf addr).hacash.subModeU128 amt = .ok new ∧
      Rebalanced s s' addr { s.balanceOf addr with hacash := new } := by
  obtain ⟨_, _, h⟩ := bind_eq_ok h
  obtain ⟨_, _, h⟩ := bind_eq_ok h
  obtain ⟨new, hnew, h⟩ := bind_eq_ok h
  obtain ⟨_, _, h⟩ := bind_eq_ok h
  cases h
  exact ⟨new, hnew, rebalanced_balanceSet _ _ _⟩

theorem hacSub_ok (h : hacSub s addr amt = .ok s') :
    0 < amt.value ∧ ∃ new, (s.balanceOf addr).hacash.subModeU128 amt = .ok new ∧
      Rebalanced s s' addr { s.balanceOf addr with hacash := new } := by
  obtain ⟨_, hpos, h⟩ := bind_eq_ok h
  exact ⟨(Amount.isPositive_iff amt).mp (of_ensure hpos), doHacSub_ok h⟩

theorem hacAdd_ok (h : hacAdd s addr amt = .ok s') :
    0 < amt.value ∧ ∃ new, (s.balanceOf addr).hacash.addModeU128 amt = .ok new ∧
      Rebalanced s s' addr (engulfed addr { s.balanceOf addr with hacash := new }) := by
  obtain ⟨_, hpos, h⟩ := bind_eq_ok h
  obtain ⟨s1, hadd, h⟩ := bind_eq_ok h
  obtain ⟨_, _, hadd⟩ := bind_eq_ok hadd
  obtain ⟨new, hnew, hadd⟩ := bind_eq_ok hadd
  obtain ⟨_, _, hadd⟩ := bind_eq_ok hadd
  cases hadd
  exact ⟨(Amount.isPositive_iff amt).mp (of_ensure hpos), new, hnew,
    blackholeEngulf_ok totalRecordBlackholeHac_ok h⟩

theorem hacTransfer_ok {height : ℕ} {src dst : Address}
    (h : hacTransfer s height src dst amt = .ok s') :
    (src = dst ∧ s' = s) ∨
      (src ≠ dst ∧ ∃ s1, hacSub s src amt = .ok s1 ∧ hacAdd s1 dst amt = .ok s') := by
  obtain ⟨_, _, h⟩ := bind_eq_ok h
  by_cases heq : src = dst
  · rw [if_pos heq] at h
    obtain ⟨_, _, h⟩ := bind_eq_ok h
    refine Or.inl ⟨heq, ?_⟩
    split_ifs at h
    · obtain ⟨_, _, h⟩ := bind_eq_ok h
      cases h
      rfl
    · cases h
      rfl
  · rw [if_neg heq] at h
    obtain ⟨u, hpos, h⟩ := bind_eq_ok h
    obtain ⟨s1, hsub, h⟩ := bind_eq_ok h
    refine Or.inr ⟨heq, s1, ?_, h⟩
    rw [hacSub, hpos]
    exact hsub

theorem setSatoshi_ok {b c : Balance} (h : b.setSatoshi sat = .ok c) :
    c.satoshi = sat ∧ c.hacash = b.hacash ∧ c.diamond = b.diamond ∧ c.assets = b.assets := by
  rw [Balance.setSatoshi] at h
  split_ifs at h
  · cases h
    exact ⟨rfl, rfl, rfl, rfl⟩
  · cases h

theorem satAdd_ok {n : ℕ} (h : satAdd s addr sat = .ok (s', n)) :
    ∃ b, (s.balanceOf addr).setSatoshi ((s.balanceOf addr).satoshi + sat) = .ok b ∧
      Rebalanced s s' addr (engulfed addr b) := by
  obtain ⟨_, _, h⟩ := bind_eq_ok h
  obtain ⟨_, _, h⟩ := bind_eq_ok h
  obtain ⟨_, _, h⟩ := bind_eq_ok h
  obtain ⟨b, hb, h⟩ := bind_eq_ok h
  obtain ⟨s1, hs1, h⟩ := bind_eq_ok h
  cases h
  exact ⟨b, hb, blackholeEngulf_ok totalRecordBlackholeSat_ok hs1⟩

theorem satSub_ok {n : ℕ} (h : satSub s addr sat = .ok (s', n)) : sat ≤ (s.balanceOf addr).satoshi ∧
    ∃ b, (s.balanceOf addr).setSatoshi ((s.balanceOf addr).satoshi - sat) = .ok b ∧
      Rebalanced s s' addr b := by
  obtain ⟨_, _, h⟩ := bind_eq_ok h
  obtain ⟨_, _, h⟩ := bind_eq_ok h
  obtain ⟨_, hle, h⟩ := bind_eq_ok h
  obtain ⟨b, hb, h⟩ := bind_eq_ok h
  cases h
  exact ⟨of_ensure hle, b, hb, rebalanced_balanceSet _ _ _⟩

theorem assetAdd_ok {asset n : AssetAmt} (h : assetAdd s addr asset = .ok (s', n)) :
    ∃ b, (s.balanceOf addr).assetSet n = .ok b ∧ n.serial = asset.serial ∧
      n.amount.uint = (s.balanceOf addr).assetAmount asset.serial + asset.amount.uint ∧
      Rebalanced s s' addr (engulfed addr b) := by
  obtain ⟨_, _, h⟩ := bind_eq_ok h
  obtain ⟨_, _, h⟩ := bind_eq_ok h
  obtain ⟨old, hold, h⟩ := bind_eq_ok h
  obtain ⟨next, hnext, h⟩ := bind_eq_ok h
  obtain ⟨b, hb, h⟩ := bind_eq_ok h
  obtain ⟨s1, hs1, h⟩ := bind_eq_ok h
  cases h
  obtain ⟨hser, hser', hamt⟩ := AssetAmt.checkedAdd_ok hnext
  rw [(Balance.assetMust_ok hold).2] at hamt
  exact ⟨b, hb, hser'.trans hser, hamt, blackholeEngulf_ok totalRecordBlackholeAsset_ok hs1⟩

theorem assetSub_ok {asset n : AssetAmt} (h : assetSub s addr asset = .ok (s', n)) :
    ∃ b, (s.balanceOf addr).assetSet n = .ok b ∧ n.serial = asset.serial ∧
      n.amount.uint + asset.amount.uint = (s.balanceOf addr).assetAmount asset.serial ∧
      Rebalanced s s' addr b := by
  obtain ⟨_, _, h⟩ := bind_eq_ok h
  obtain ⟨_, _, h⟩ := bind_eq_ok h
  obtain ⟨old, hold, h⟩ := bind_eq_ok h
  obtain ⟨_, _, h⟩ := bind_eq_ok h
  obtain ⟨next, hnext, h⟩ := bind_eq_ok h
  obtain ⟨b, hb, h⟩ := bind_eq_ok h
  cases h
  obtain ⟨hser, hser', hamt⟩ := AssetAmt.checkedSub_ok hnext
  rw [(Balance.assetMust_ok hold).2] at hamt
  exact ⟨b, hb, hser'.trans hser, hamt, rebalanced_balanceSet _ _ _⟩

end Hacash
