import Hacash.Ledger.Diamond

/-!
# Minting a diamond (`mint_core::exec`, `x16rs`)

The body of a `HacdMint` action; the hash functions of mining are parameters. `diamondMint_ok` says
what a strict mint wrote.
-/

namespace Hacash

open CoreState Function

/-! ## Mining (x16rs/lib.rs) -/

/-- The hash functions of `x16rs`. -/
structure X16rs where
  calculateHash : List UInt8 → Hash
  x16rsHash : (rounds : ℕ) → Hash → Hash

/-- `DIAMOND_HASH_BASE_CHARS`: the digit zero and the letters of a name. -/
def diamondHashBaseChars : List UInt8 := 48 :: diamondNameValidChars

/-- The loop of `diamond_hash`, two bytes at a time. -/
def diamondHashLoop : (baseIdx : ℕ) → List UInt8 → List UInt8
  | baseIdx, a :: b :: rest =>
    let idx := baseIdx * a.toNat * b.toNat % 17
    diamondHashBaseChars.getD idx 0 :: diamondHashLoop (if idx = 0 then 13 else idx) rest
  | _, _ => []

def diamondHash (bshash : Hash) : List UInt8 := diamondHashLoop 13 bshash.bytes

def mineDiamondHashRepeat (number : ℕ) : ℕ := number / 8192 + 1

def X16rs.mineDiamond (x : X16rs) (number : ℕ) (prevHash : Hash) (nonce : Fixed 8)
    (address : Address) (customMessage : List UInt8) : Hash × Hash × List UInt8 :=
  let seed := x.calculateHash (prevHash.bytes ++ nonce.bytes ++ address.bytes ++ customMessage)
  let result := x.x16rsHash (mineDiamondHashRepeat number) seed
  (seed, result, diamondHash result)

/-- `check_diamond_hash_result`: ten zeros, then the name. -/
def checkDiamondHashResult (stuff : List UInt8) : Option DiamondName :=
  if h : stuff.length = 16 then
    if (stuff.take 10).all (fun a => a == 48) = true ∧
        (stuff.drop 10).all (fun a => a != 48 && diamondHashBaseChars.contains a) = true then
      some ⟨stuff.drop 10, by rw [List.length_drop, h]⟩
    else none
  else none

def modiffbits : List UInt8 :=
  [128, 132, 136, 140, 144, 148, 152, 156, 160, 164, 168, 172, 176, 180, 184, 188, 192, 196,
    200, 204, 208, 212, 216, 220, 224, 228, 232, 236, 240, 244, 248, 252]

/-- The second loop of `check_diamond_difficulty`. -/
def checkX16rsDifficulty : (remainingDiff : ℕ) → List UInt8 → Bool
  | _, [] => false
  | remainingDiff, a :: rest =>
    if remainingDiff < 255 then decide (a.toNat + remainingDiff ≤ 255)
    else if a ≠ 0 then false
    else checkX16rsDifficulty (remainingDiff - 255) rest

def checkDiamondDifficulty (number : ℕ) (sha3hx x16rshx : Hash) : Bool :=
  let requiredLeading := number / 42000
  let maxByte := 255 - min (number / 65536) 255
  ((sha3hx.bytes.zip modiffbits).zipIdx.all fun ((a, modiff), i) =>
    !(decide (i < requiredLeading) && decide (modiff ≤ a)) && decide (a.toNat ≤ maxByte)) &&
    checkX16rsDifficulty (number / 3277) x16rshx.bytes

/-! ## The action (diamond.rs) -/

/-- `DiamondRules`, as far as a mint reads them. -/
structure DiamondRules where
  customMessageAfter : ℕ
  burn90PercentAfter : ℕ
  averageBidBurnAfter : ℕ
  visualGeneBlockHashAfter : ℕ
  visualGeneBidFeeAfter : ℕ

/-- `HacdMintData`. -/
structure HacdMintData where
  diamond : DiamondName
  number : Uint 3
  prevHash : Hash
  nonce : Fixed 8
  address : Address
  customMessage : Hash

/-- What a mint reads of its context. -/
structure MintEnv where
  fastSync : Bool
  consensusFlags : ℕ
  height : ℕ
  hash : Hash
  txType : ℕ
  fee : Amount
  feeGot : Amount
  diamondFormFlag : ℕ
  txType2 : ℕ
  rules : DiamondRules

/-- `consensus_flags & diamond_form_flag != 0`. -/
def MintEnv.diamondForm (env : MintEnv) : Bool :=
  decide (env.consensusFlags &&& env.diamondFormFlag ≠ 0)

/-- `latest_diamond()?.unwrap_or_default().number`. -/
def CoreState.latestNumber (s : CoreState) : ℕ := (s.latestDiamond.map DiamondSmelt.number).getD 0

/-- `latest_diamond()?.unwrap_or_default().born_hash`. -/
def CoreState.latestBornHash (s : CoreState) : Hash :=
  (s.latestDiamond.map DiamondSmelt.bornHash).getD (.fill 0)

namespace HacdMint

/-- `check_transfer_recipient_allowed` of diamond.rs. -/
def checkTransferRecipientAllowed (dst : Address) : Ret Unit :=
  ensure (¬ (dst.isPrivkeyUnknown = true ∧ dst ≠ blackholeAddr))
    (.fault "cannot transfer to system address (privakey unknown)")

def checkDiamondMintTxType (env : MintEnv) : Ret Unit :=
  ensure (env.txType = env.txType2) (.fault "HacdMint can only be executed in tx type 2")

/-- The checks of `diamond_mint` on the action, left out in fast sync. -/
def checkMintAction (env : MintEnv) (act : HacdMintData) : Ret Unit :=
  if env.fastSync then .ok ()
  else do
    ensure (act.address.isPrivkey = true) (.fault "diamond mint address must be PRIVAKEY type")
    checkTransferRecipientAllowed act.address
    checkDiamondMintTxType env

def diamondMintLegacyBidBurn (env : MintEnv) : Ret Amount := do
  if env.fastSync then .ok () else checkDiamondMintTxType env
  env.fee.subModeU128 env.feeGot

/-- `tx_bid_burn_238`. -/
def txBidBurn238 (env : MintEnv) (act : HacdMintData) : Ret (Option ℕ) :=
  if env.rules.burn90PercentAfter < act.number.uint then do
    let burn ← diamondMintLegacyBidBurn env
    let burn238 ← burn.to238U64
    return some burn238
  else .ok none

def customMessage (env : MintEnv) (act : HacdMintData) : List UInt8 :=
  if env.rules.customMessageAfter < act.number.uint then act.customMessage.bytes else []

/-- The checks of `diamond_mint` against the state, left out in fast sync. -/
def checkMintState (env : MintEnv) (act : HacdMintData) (mined : Hash × Hash × List UInt8)
    (s : CoreState) : Ret Unit :=
  if env.fastSync then .ok ()
  else do
    ensure (¬ (env.hash ≠ .fill 0 ∧ env.height % 5 ≠ 0))
      (.fault "diamond must be in a block height that is divisible by 5")
    ensure (act.number.uint = s.latestNumber + 1) (.fault "diamond number expected but got")
    ensure (¬ (1 < act.number.uint ∧ s.latestBornHash ≠ act.prevHash))
      (.fault "diamond prev hash expected but got")
    ensure (checkDiamondDifficulty act.number.uint mined.1 mined.2.1 = true)
      (.fault "diamond difficulty does not match")
    let dianame ← okOr (checkDiamondHashResult mined.2.2)
      (.fault "diamond hash result is not a valid diamond name")
    ensure (act.diamond = dianame) (.fault "diamond name expected but got")
    ensure (s.diamond act.diamond = none) (.fault "diamond already exists")

/-- `calculate_diamond_average_bid_burn`. A division by zero is a panic. -/
def calculateDiamondAverageBidBurn (number burn238 : ℕ) (rules : DiamondRules) : Ret ℕ :=
  if number ≤ rules.averageBidBurnAfter then .ok 10
  else do
    let bsnum := (number + 2 ^ 32 - rules.burn90PercentAfter) % 2 ^ 32
    ensure (bsnum ≠ 0) (.abort "attempt to divide by zero")
    let avgbid := burn238 / 10 ^ 10 / bsnum + 1
    ensure (avgbid ≤ 65535) (.fault "average bid burn overflow u16")
    return avgbid

def calculateDiamondLifeGene (x : X16rs) (env : MintEnv) (number : ℕ) (diamhash : Hash) : Hash :=
  if env.rules.visualGeneBlockHashAfter < number then
    let bidFee := if env.rules.visualGeneBidFeeAfter < number then env.fee.encode else []
    x.calculateHash (diamhash.bytes ++ env.hash.bytes ++ bidFee)
  else diamhash

/-- The four records of a new diamond. -/
def record (s : CoreState) (smelt : DiamondSmelt) : CoreState :=
  { s with
    latestDiamond := some smelt
    diamondSmelt := update s.diamondSmelt smelt.diamond (some smelt)
    diamond := update s.diamond smelt.diamond
      (some ⟨diamondStatusNormal, smelt.minerAddress⟩)
    diamondName := update s.diamondName smelt.number (some smelt.diamond) }

/-- The buffer of the owner, where the diamond form is on. -/
def pushOwned (env : MintEnv) (act : HacdMintData) (s : CoreState) : Ret CoreState :=
  if env.diamondForm then diamondOwnedPushOne s act.address act.diamond else .ok s

/-- `add_hacd_bid_burn`, with the new accumulator. Nothing is written for a zero. -/
def addHacdBidBurn (s : CoreState) (burn238 : ℕ) : Ret (CoreState × ℕ) :=
  if burn238 = 0 then .ok (s, s.hacdBidBurn238.getD 0)
  else do
    let acc ← totalAddU12 (s.hacdBidBurn238.getD 0) burn238 "hacd_bid_burn"
    return ({ s with hacdBidBurn238 := some acc }, acc)

def burnAcc (s : CoreState) : Option ℕ → Ret (CoreState × ℕ)
  | some burn => addHacdBidBurn s burn
  | none => .ok (s, s.hacdBidBurn238.getD 0)

/-- The counters of `with_mint_total`. -/
def recordTotal (s : CoreState) (burn238 : ℕ) : Ret CoreState := do
  let total := s.mintTotal.getD {}
  ensure (total.mintedDiamond + 1 ≤ diamondNumberMax) (.fault "Uint3 value exceeds max")
  return { s with
    mintTotal := some
      { total with mintedDiamond := total.mintedDiamond + 1, hacdBidBurn238 := burn238 } }

end HacdMint

open HacdMint

def diamondMint (x : X16rs) (env : MintEnv) (act : HacdMintData) (s : CoreState) :
    Ret CoreState := do
  checkMintAction env act
  let burn ← txBidBurn238 env act
  let mined := x.mineDiamond act.number.uint act.prevHash act.nonce act.address
    (customMessage env act)
  checkMintState env act mined s
  let average ← calculateDiamondAverageBidBurn act.number.uint
    (s.hacdBidBurn238.getD 0 + burn.getD 0) env.rules
  let s := record s {
    diamond := act.diamond
    number := act.number.uint
    bornHeight := env.height
    bornHash := env.hash
    prevHash := act.prevHash
    minerAddress := act.address
    bidFee := env.fee
    nonce := act.nonce
    averageBidBurn := average
    lifeGene := calculateDiamondLifeGene x env act.number.uint mined.2.1 }
  let s ← pushOwned env act s
  let (s, _) ← hacdAdd s act.address 1
  let (s, acc) ← burnAcc s burn
  recordTotal s acc

/-! ## What a success did -/

section

variable {x : X16rs} {env : MintEnv} {act : HacdMintData} {s s' : CoreState}

theorem checkMintState_ok {mined : Hash × Hash × List UInt8} {u : Unit}
    (hstrict : env.fastSync = false) (h : checkMintState env act mined s = .ok u) :
    act.number.uint = s.latestNumber + 1 ∧ s.diamond act.diamond = none := by
  rw [checkMintState, hstrict, if_neg Bool.false_ne_true] at h
  replace h := ensure_drop h
  obtain ⟨hnumber, h⟩ := ensure_bind_iff.mp h
  replace h := ensure_drop h
  replace h := ensure_drop h
  obtain ⟨_, _, h⟩ := bind_eq_ok h
  replace h := ensure_drop h
  exact ⟨hnumber, of_ensure h⟩

theorem pushOwned_ok (h : pushOwned env act s = .ok s') :
    s' = { s with diamondOwned := s'.diamondOwned } ∧
      (env.diamondForm = true → ∃ form, (s.ownedForm act.address).pushOne act.diamond = .ok form ∧
        s'.ownedForm = update s.ownedForm act.address form) ∧
      (env.diamondForm = false → s'.ownedForm = s.ownedForm) := by
  rw [pushOwned] at h
  by_cases hform : env.diamondForm = true
  · rw [if_pos hform] at h
    obtain ⟨_, _, h⟩ := bind_eq_ok h
    obtain ⟨form, hpush, h⟩ := bind_eq_ok h
    cases h
    refine ⟨rfl, fun _ => ⟨form, hpush, ownedForm_diamondOwnedSet _ _ _⟩, fun hoff => ?_⟩
    rw [hform] at hoff
    cases hoff
  · rw [if_neg hform] at h
    cases h
    exact ⟨rfl, fun hon => absurd hon hform, fun _ => rfl⟩

theorem burnAcc_ok {burn : Option ℕ} {acc : ℕ} (h : burnAcc s burn = .ok (s', acc)) :
    s' = { s with hacdBidBurn238 := s'.hacdBidBurn238 } := by
  cases burn with
  | none => cases h; rfl
  | some burn238 =>
    rw [burnAcc, addHacdBidBurn] at h
    by_cases hzero : burn238 = 0
    · rw [if_pos hzero] at h
      cases h
      rfl
    · rw [if_neg hzero] at h
      obtain ⟨_, _, h⟩ := bind_eq_ok h
      cases h
      rfl

theorem recordTotal_ok {acc : ℕ} (h : recordTotal s acc = .ok s') :
    s' = { s with mintTotal := s'.mintTotal } := by
  replace h := ensure_drop h
  cases h
  rfl

/-- **What a strict mint did**, if the owner is not the blackhole. -/
structure Minted (env : MintEnv) (act : HacdMintData) (s s' : CoreState) : Prop where
  number : act.number.uint = s.latestNumber + 1
  fresh : s.diamond act.diamond = none
  latest : s'.latestNumber = act.number.uint
  diamond : s'.diamond = update s.diamond act.diamond
    (some ⟨diamondStatusNormal, act.address⟩)
  diamondName : s'.diamondName = update s.diamondName act.number.uint (some act.diamond)
  form_on : env.diamondForm = true → ∃ form,
    (s.ownedForm act.address).pushOne act.diamond = .ok form ∧
      s'.ownedForm = update s.ownedForm act.address form
  form_off : env.diamondForm = false → s'.ownedForm = s.ownedForm
  count : ∀ a, (s'.balanceOf a).diamond =
    if a = act.address then (s.balanceOf a).diamond + 1 else (s.balanceOf a).diamond

theorem diamondMint_ok (h : diamondMint x env act s = .ok s') (hstrict : env.fastSync = false)
    (hhole : act.address ≠ blackholeAddr) : Minted env act s s' := by
  obtain ⟨_, _, h⟩ := bind_eq_ok h
  obtain ⟨burn, _, h⟩ := bind_eq_ok h
  obtain ⟨_, hcheck, h⟩ := bind_eq_ok h
  obtain ⟨average, _, h⟩ := bind_eq_ok h
  obtain ⟨s₁, hs₁, h⟩ := bind_eq_ok h
  obtain ⟨⟨s₂, n⟩, hs₂, h⟩ := bind_eq_ok h
  obtain ⟨⟨s₃, acc⟩, hs₃, h⟩ := bind_eq_ok h
  obtain ⟨hnumber, hfresh⟩ := checkMintState_ok hstrict hcheck
  obtain ⟨hframe₁, hon, hoff⟩ := pushOwned_ok hs₁
  obtain ⟨⟨b, hb, hre⟩, hown⟩ := hacdAdd_ok hs₂
  rw [engulfed, if_neg hhole] at hre
  -- the totals written last are not read by anything stated here
  have hend : s' = { s₂ with hacdBidBurn238 := s'.hacdBidBurn238, mintTotal := s'.mintTotal } := by
    rw [recordTotal_ok h, burnAcc_ok hs₃]
  have hforms : s'.ownedForm = s₁.ownedForm := by
    rw [hend]
    funext a
    rw [ownedForm, ownedForm, hown hhole]
  refine ⟨hnumber, hfresh, ?_, ?_, ?_, ?_, ?_, fun a => ?_⟩
  · rw [latestNumber, hend, hre.latestDiamond, hframe₁]
    rfl
  · rw [hend, hre.diamond, hframe₁]
    rfl
  · rw [hend, hre.diamondName, hframe₁]
    rfl
  · intro hform
    obtain ⟨form, hpush, hset⟩ := hon hform
    exact ⟨form, hpush, hforms.trans hset⟩
  · intro hform
    exact hforms.trans (hoff hform)
  · have hbal : s'.balanceOf = s₂.balanceOf := by rw [hend]; rfl
    have hbal₁ : s₁.balanceOf = s.balanceOf := by rw [hframe₁]; rfl
    rw [hbal, (balanceOf_setDiamond hb hre a).1, hbal₁]
    by_cases ha : a = act.address
    · rw [if_pos ha, if_pos ha, ha]
    · rw [if_neg ha, if_neg ha]

end

end Hacash
