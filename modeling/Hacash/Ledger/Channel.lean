import Hacash.Ledger.Conserve
import Hacash.Ledger.Interest

/-!
# Payment channels (`mint_core::exec::channel`)

Opening locks HAC of two addresses, closing pays both out with interest, and two counters follow.
**Key result**: `channel_accounting`.
-/

namespace Hacash

open Function Amount

open List

open CoreState Hacash.Lib

/-! ## The actions (channel.rs) -/

/-- `AddrHac`. -/
structure AddrHac where
  address : Address
  amount : Amount
  deriving DecidableEq

/-- `Balance::hac`. -/
def Balance.hac (amt : Amount) : Balance := { Balance.default with hacash := amt }

/-- `check_channel_id`. -/
def checkChannelId (id : ChannelId) : Ret Unit :=
  ensure (¬ (id.bytes.headD 0 = 0 ∨ id.bytes.getLastD 0 = 0))
    (.fault "channel check key format failed")

/-- What a side locks is taken from its balance. -/
def lockHac (s : CoreState) (bill : AddrHac) : Ret CoreState :=
  if bill.amount.isZero = false then hacSub s bill.address bill.amount else .ok s

/-- The version of the record: one more than that of a channel to be used again. -/
def nextReuseVersion (s : CoreState) (id : ChannelId) (left right : Address) : Ret ℕ :=
  match s.channel id with
  | none => .ok 1
  | some chan => do
    ensure ((left = chan.leftBill.address ∧ right = chan.rightBill.address) ∧
        chan.status = .agreementClosed)
      (.fault "channel is opening or cannot be reused")
    ensure (chan.reuseVersion + 1 ≤ 2 ^ 32 - 1) (.fault "channel reuse_version overflow")
    return chan.reuseVersion + 1

/-- The record of an open channel. -/
def openRecord (height version : ℕ) (left right : AddrHac) : ChannelSto where
  status := .opening
  reuseVersion := version
  openHeight := height
  closeHeight := 0
  arbitrationLockBlock := 5000
  interestAttribution := 0
  leftBill := ⟨left.address, .hac left.amount⟩
  rightBill := ⟨right.address, .hac right.amount⟩
  ifDistribution := none

theorem openRecord_status (height version : ℕ) (left right : AddrHac) :
    (openRecord height version left right).status = .opening := rfl

/-- The totals of an opening. -/
def recordOpen (s : CoreState) (lockTotal238 : ℕ) : Ret CoreState := do
  let total := s.mintTotal.getD {}
  let opening ← totalAddU8 total.openingChannel 1 "opening_channel"
  let deposit ← totalAddU12 total.channelDeposit238 lockTotal238 "channel_deposit_238"
  let opened ← totalAddU8 total.channelOpenTotal 1 "channel_open_total"
  return { s with mintTotal := some { total with
    openingChannel := opening, channelDeposit238 := deposit, channelOpenTotal := opened } }

/-- `channel_open`. -/
def channelOpen (height : ℕ) (id : ChannelId) (left right : AddrHac) (s : CoreState) :
    Ret CoreState := do
  checkChannelId id
  ensure (left.address.isPrivkey = true ∧ right.address.isPrivkey = true)
    (.fault "channel address must be PRIVAKEY type")
  ensure (left.address ≠ right.address) (.fault "left address cannot be equal to right address")
  ensure (left.amount.size ≤ 6) (.fault "left amount bytes too long")
  ensure (right.amount.size ≤ 6) (.fault "right amount bytes too long")
  ensure (¬ (left.amount.isNegative = true ∨ right.amount.isNegative = true ∨
      (left.amount.isZero = true ∧ right.amount.isZero = true)))
    (.fault "left or right amount must be positive, or both are empty")
  let s ← lockHac s left
  let s ← lockHac s right
  let lockTotal ← left.amount.addModeU64 right.amount
  let lockTotal238 ← lockTotal.to238U64
  let version ← nextReuseVersion s id left.address right.address
  let record := openRecord height version left right
  recordOpen { s with channel := update s.channel id (some record) } lockTotal238

/-- What a side gets is added to its balance. -/
def payHac (s : CoreState) (addr : Address) (amt : Amount) : Ret CoreState :=
  if amt.isPositive then hacAdd s addr amt else .ok s

/-- What a side gets of the satoshi. -/
def paySat (s : CoreState) (addr : Address) (sat : ℕ) : Ret CoreState :=
  if 0 < sat then do
    let (s, _) ← satAdd s addr sat
    return s
  else .ok s

/-- What a close adds to and takes from the totals. -/
structure CloseTotals where
  interestAdd238 : ℕ := 0
  depositSub238 : ℕ := 0
  closedHacVolumeAdd238 : ℕ := 0

/-- The payout of the HAC with interest. -/
def closeHac (height : ℕ) (chan : ChannelSto) (leftAmt rightAmt lockedHac : Amount)
    (lockedHac238 : ℕ) (s : CoreState) : Ret (CoreState × CloseTotals) :=
  if lockedHac.isPositive then do
    let (newLeft, newRight) ← calculateInterestOfHeight height chan.openHeight
      chan.interestAttribution leftAmt rightAmt
    let newTotal ← newLeft.addModeU64 newRight
    ensure (newTotal.lt lockedHac = false) (.fault "interest calculation failed")
    let interest ← newTotal.subModeU64 lockedHac
    let interest238 ← interest.to238U64
    let s ← payHac s chan.leftBill.address newLeft
    let s ← payHac s chan.rightBill.address newRight
    return (s, ⟨interest238, lockedHac238, lockedHac238⟩)
  else .ok (s, {})

/-- The payout of the satoshi, with what is taken from the total. -/
def closeSat (chan : ChannelSto) (leftBls rightBls : Balance) (lockedSat : ℕ) (s : CoreState) :
    Ret (CoreState × ℕ) :=
  if 0 < lockedSat then do
    let s ← paySat s chan.leftBill.address leftBls.satoshi
    let s ← paySat s chan.rightBill.address rightBls.satoshi
    return (s, lockedSat)
  else .ok (s, 0)

/-- The record of a closed channel. -/
def closeRecord (height : ℕ) (chan : ChannelSto) (leftBls rightBls : Balance)
    (finalClosed : Bool) : ChannelSto :=
  { chan with
    status := if finalClosed then .finalArbitrationClosed else .agreementClosed
    closeHeight := height
    ifDistribution := some
      ⟨{ Balance.default with hacash := leftBls.hacash, satoshi := leftBls.satoshi,
                              satoshi_le := leftBls.satoshi_le },
        { Balance.default with hacash := rightBls.hacash, satoshi := rightBls.satoshi,
                               satoshi_le := rightBls.satoshi_le }⟩ }

/-- The totals of a close. -/
def recordClose (s : CoreState) (add : CloseTotals) (depositSatSub : ℕ) : Ret CoreState := do
  let total := s.mintTotal.getD {}
  let opening ← totalSubU8 total.openingChannel 1 "opening_channel"
  let closed ← totalAddU8 total.channelCloseTotal 1 "channel_close_total"
  let interest ← totalAddU8 total.channelInterest238 add.interestAdd238 "channel_interest_238"
  let deposit ← totalSubU12 total.channelDeposit238 add.depositSub238 "channel_deposit_238"
  let volume ← totalAddU12 total.channelClosedHacVolume238 add.closedHacVolumeAdd238
    "channel_closed_hac_volume_238"
  let sat ← totalSubU8 total.channelDepositSat depositSatSub "channel_deposit_sat"
  return { s with mintTotal := some { total with
    openingChannel := opening, channelCloseTotal := closed, channelInterest238 := interest,
    channelDeposit238 := deposit, channelClosedHacVolume238 := volume,
    channelDepositSat := sat } }

/-- `close_channel_with_distribution`. -/
def closeChannelWithDistribution (height : ℕ) (id : ChannelId) (chan : ChannelSto)
    (leftBls rightBls : Balance) (finalClosed : Bool) (s : CoreState) : Ret CoreState := do
  ensure (chan.status = .opening) (.fault "channel is not open")
  ensure (¬ (leftBls.hacash.isNegative = true ∨ rightBls.hacash.isNegative = true))
    (.fault "channel distribution amount cannot be negative")
  let lockedHac ← chan.leftBill.balance.hacash.addModeU64 chan.rightBill.balance.hacash
  let distHac ← leftBls.hacash.addModeU64 rightBls.hacash
  ensure (distHac = lockedHac) (.fault "HAC distribution amount must match lock-in")
  let lockedHac238 ← lockedHac.to238U64
  let lockedSat := chan.leftBill.balance.satoshi + chan.rightBill.balance.satoshi
  ensure (lockedSat ≤ u64Max) (.fault "channel satoshi overflow")
  let distSat := leftBls.satoshi + rightBls.satoshi
  ensure (distSat ≤ u64Max) (.fault "channel satoshi overflow")
  ensure (distSat = lockedSat) (.fault "BTC distribution amount must match lock-in")
  let (s, add) ← closeHac height chan leftBls.hacash rightBls.hacash lockedHac lockedHac238 s
  let (s, satSub) ← closeSat chan leftBls rightBls lockedSat s
  let record := closeRecord height chan leftBls rightBls finalClosed
  recordClose { s with channel := update s.channel id (some record) } add satSub

/-- `channel_close`; `checkSign` is the signature check of the transaction. -/
def channelClose (height : ℕ) (checkSign : Address → Ret Unit) (id : ChannelId)
    (s : CoreState) : Ret CoreState := do
  checkChannelId id
  let chan ← okOr (s.channel id) (.fault "channel not found")
  ensure (chan.leftBill.address.isPrivkey = true ∧ chan.rightBill.address.isPrivkey = true)
    (.fault "channel address must be PRIVAKEY type")
  checkSign chan.leftBill.address
  checkSign chan.rightBill.address
  closeChannelWithDistribution height id chan chan.leftBill.balance chan.rightBill.balance false s

/-! ## Locked amounts and the counters -/

namespace ChannelSto

/-- The deposit of a record as `channel_open` and `channel_close` count it. -/
def deposit238 (chan : ChannelSto) : ℕ :=
  match chan.leftBill.balance.hacash.addModeU64 chan.rightBill.balance.hacash
      >>= to238U64 with
  | .ok v => v
  | .error _ => 0

/-- The HAC that a record holds: both sides, as long as the channel is open. -/
def locked (chan : ChannelSto) : ℤ :=
  if chan.status = .opening then
    chan.leftBill.balance.hacash.value + chan.rightBill.balance.hacash.value
  else 0

/-- The interest of a payout. -/
def interest (height : ℕ) (chan : ChannelSto) : ℤ :=
  match calculateInterestOfHeight height chan.openHeight chan.interestAttribution
      chan.leftBill.balance.hacash chan.rightBill.balance.hacash with
  | .ok (newLeft, newRight) => newLeft.value + newRight.value -
      (chan.leftBill.balance.hacash.value + chan.rightBill.balance.hacash.value)
  | .error _ => 0

/-- A record as `channel_open` writes it. -/
structure Opened (chan : ChannelSto) : Prop where
  attribution : chan.interestAttribution = 0
  satoshi : chan.leftBill.balance.satoshi = 0 ∧ chan.rightBill.balance.satoshi = 0
  left_hole : chan.leftBill.address = blackholeAddr → chan.leftBill.balance.hacash.isZero = true
  right_hole : chan.rightBill.address = blackholeAddr →
    chan.rightBill.balance.hacash.isZero = true
  locked : ∃ l v, chan.leftBill.balance.hacash.addModeU64 chan.rightBill.balance.hacash = .ok l ∧
    0 < l.value ∧ l.to238U64 = .ok v ∧ chan.deposit238 = v

end ChannelSto

open ChannelSto

namespace CoreState

/-- A channel is in opening status. -/
def isOpening (s : CoreState) (id : ChannelId) : Bool :=
  (s.channel id).any fun chan => decide (chan.status = .opening)

/-- The number of channels in opening status. -/
def openingCount (s : CoreState) : ℕ := (Finset.univ.filter fun id => s.isOpening id = true).card

/-- The sum of the deposits of the channels in opening status. -/
def depositTotal (s : CoreState) : ℕ :=
  ∑ id ∈ Finset.univ.filter (fun id => s.isOpening id = true),
    ((s.channel id).map deposit238).getD 0

/-- The HAC locked in channels. -/
def lockedTotal (s : CoreState) : ℤ := ∑ id, ((s.channel id).map locked).getD 0

/-- The counters of `MintTotal`. -/
def mintTotals (s : CoreState) : MintTotal := s.mintTotal.getD {}

end CoreState

/-- **The counters are what the records say.** -/
structure ChannelBooks (s : CoreState) : Prop where
  blackhole : BlackholeEmpty s
  opening : s.mintTotals.openingChannel = s.openingCount
  deposit : s.mintTotals.channelDeposit238 = s.depositTotal
  records : ∀ id chan, s.channel id = some chan → chan.status = .opening → chan.Opened

/-! ### One record replaced -/

section

variable {s s' : CoreState} {id : ChannelId} {chan : ChannelSto}

/-- A number that a record counts for while it is open. -/
def openWeight (f : ChannelSto → ℕ) (record : Option ChannelSto) : ℕ :=
  if (record.any fun chan => decide (chan.status = .opening)) = true then (record.map f).getD 0
  else 0

theorem openWeight_some (f : ChannelSto → ℕ) (chan : ChannelSto) :
    openWeight f (some chan) = if chan.status = .opening then f chan else 0 := by
  simp [openWeight]

/-- Open channels, counted one by one. -/
theorem openingCount_eq (s : CoreState) :
    s.openingCount = ∑ id, openWeight (fun _ => 1) (s.channel id) := by
  rw [openingCount, Finset.card_filter]
  refine Finset.sum_congr rfl fun id _ => ?_
  rw [openWeight, isOpening]
  cases s.channel id with
  | none | some chan => rfl

/-- Deposits of the open channels, summed one by one. -/
theorem depositTotal_eq (s : CoreState) :
    s.depositTotal = ∑ id, openWeight deposit238 (s.channel id) :=
  Finset.sum_filter _ _

/-- A sum over the open channels when one record is replaced. -/
theorem sum_openWeight (f : ChannelSto → ℕ)
    (h : s'.channel = update s.channel id (some chan)) :
    ∑ i, openWeight f (s'.channel i) + openWeight f (s.channel id)
      = ∑ i, openWeight f (s.channel i) + if chan.status = .opening then f chan else 0 := by
  rw [h, sum_update, openWeight_some]

/-- One record is replaced. -/
theorem lockedTotal_update (h : s'.channel = update s.channel id (some chan)) :
    s'.lockedTotal + ((s.channel id).map locked).getD 0 = s.lockedTotal + chan.locked := by
  rw [lockedTotal, lockedTotal, h]
  exact sum_update (fun record : Option ChannelSto => (record.map locked).getD 0) _ _ _

end

/-! ## What the actions did -/

/-- HAC moved by `d` in sum, and nothing about channels. -/
structure HacMoved (s s' : CoreState) (d : ℤ) : Prop where
  total : s'.hacTotal = s.hacTotal + d
  blackhole : BlackholeEmpty s'
  channel : s'.channel = s.channel
  mintTotal : s'.mintTotal = s.mintTotal

variable {s s' : CoreState} {cur next height : ℕ} {name : String} {id : ChannelId}

/-- Movements add up. -/
theorem HacMoved.trans {s'' : CoreState} {d d' : ℤ} (h : HacMoved s s' d)
    (h' : HacMoved s' s'' d') : HacMoved s s'' (d + d') where
  total := by rw [h'.total, h.total]; ring
  blackhole := h'.blackhole
  channel := h'.channel.trans h.channel
  mintTotal := h'.mintTotal.trans h.mintTotal

theorem HacMoved.refl (hs : BlackholeEmpty s) : HacMoved s s 0 :=
  ⟨by ring, hs, rfl, rfl⟩

/-- What is locked is taken from the balances, and the blackhole locks nothing. -/
theorem lockHac_ok {bill : AddrHac} (hs : BlackholeEmpty s)
    (h : lockHac s bill = .ok s') : HacMoved s s' (-bill.amount.value) ∧
      (bill.address = blackholeAddr → bill.amount.isZero = true) := by
  rw [lockHac] at h
  by_cases hzero : bill.amount.isZero = false
  · rw [if_pos hzero] at h
    obtain ⟨hne, hs'⟩ := hacSub_blackholeEmpty h hs
    obtain ⟨-, new, -, hre⟩ := hacSub_ok h
    refine ⟨⟨?_, hs', hre.channel, hre.mintTotal⟩, fun haddr => absurd haddr hne⟩
    rw [hacSub_total h]
    ring
  · rw [if_neg hzero] at h
    cases h
    have hzero' : bill.amount.isZero = true := by simpa using hzero
    rw [value_of_isZero hzero', neg_zero]
    exact ⟨.refl hs, fun _ => hzero'⟩

/-- What is paid out is added to the balances, unless it is paid to the blackhole. -/
theorem payHac_ok {addr : Address} {amt : Amount} (hs : BlackholeEmpty s)
    (hnonneg : 0 ≤ amt.value) (hhole : addr = blackholeAddr → amt.value = 0)
    (h : payHac s addr amt = .ok s') : HacMoved s s' amt.value := by
  rw [payHac] at h
  by_cases hpos : amt.isPositive = true
  · rw [if_pos hpos] at h
    have hvalue := (isPositive_iff amt).mp hpos
    have hne : addr ≠ blackholeAddr := fun haddr => by
      have := hhole haddr
      omega
    obtain ⟨htotal, hs'⟩ := hacAdd_total h hs
    obtain ⟨-, new, -, hre⟩ := hacAdd_ok h
    rw [if_neg hne] at htotal
    exact ⟨htotal, hs', hre.channel, hre.mintTotal⟩
  · rw [if_neg hpos] at h
    cases h
    have hvalue : ¬ 0 < amt.value := fun h => hpos ((isPositive_iff amt).mpr h)
    have hzero : amt.value = 0 := by omega
    rw [hzero]
    exact .refl hs

/-- A counter that does not overflow. -/
theorem totalAddU8_ok {add : ℕ} (h : totalAddU8 cur add name = .ok next) : next = cur + add := by
  replace h := ensure_drop h
  cases h
  rfl

theorem totalAddU12_ok {add : ℕ} (h : totalAddU12 cur add name = .ok next) : next = cur + add := by
  replace h := ensure_drop h
  replace h := ensure_drop h
  cases h
  rfl

theorem totalSubU8_ok {sub : ℕ} (h : totalSubU8 cur sub name = .ok next) : next + sub = cur := by
  obtain ⟨hle, h⟩ := ensure_bind_iff.mp h
  cases h
  omega

theorem totalSubU12_ok {sub : ℕ} (h : totalSubU12 cur sub name = .ok next) : next + sub = cur := by
  obtain ⟨hle, h⟩ := ensure_bind_iff.mp h
  cases h
  omega

/-- **What an opening did.** -/
structure ChannelOpened (height : ℕ) (id : ChannelId) (left right : AddrHac) (version : ℕ)
    (s s' : CoreState) : Prop where
  channel : s'.channel = update s.channel id (some (openRecord height version left right))
  reused : ∀ chan, s.channel id = some chan → chan.status = .agreementClosed ∧
    left.address = chan.leftBill.address ∧ right.address = chan.rightBill.address ∧
    version = chan.reuseVersion + 1
  opened : (openRecord height version left right).Opened
  hac : s'.hacTotal = s.hacTotal - (left.amount.value + right.amount.value)
  blackhole : BlackholeEmpty s'
  opening : s'.mintTotals.openingChannel = s.mintTotals.openingChannel + 1
  deposit : s'.mintTotals.channelDeposit238
    = s.mintTotals.channelDeposit238 + (openRecord height version left right).deposit238

/-- An id is used again by the same parties, after a close in agreement. -/
theorem nextReuseVersion_ok {left right : Address} {version : ℕ}
    (h : nextReuseVersion s id left right = .ok version) (chan : ChannelSto)
    (hchan : s.channel id = some chan) : chan.status = .agreementClosed ∧
      left = chan.leftBill.address ∧ right = chan.rightBill.address ∧
      version = chan.reuseVersion + 1 := by
  rw [nextReuseVersion, hchan] at h
  obtain ⟨⟨⟨hleft, hright⟩, hstatus⟩, h⟩ := ensure_bind_iff.mp h
  replace h := ensure_drop h
  cases h
  exact ⟨hstatus, hleft, hright, rfl⟩

/-- What the counters become at an opening. -/
theorem recordOpen_ok {lock238 : ℕ} (h : recordOpen s lock238 = .ok s') :
    s' = { s with mintTotal := s'.mintTotal } ∧
      s'.mintTotals.openingChannel = s.mintTotals.openingChannel + 1 ∧
      s'.mintTotals.channelDeposit238 = s.mintTotals.channelDeposit238 + lock238 := by
  obtain ⟨opening, hopening, h⟩ := bind_eq_ok h
  obtain ⟨deposit, hdeposit, h⟩ := bind_eq_ok h
  obtain ⟨_, _, h⟩ := bind_eq_ok h
  cases h
  exact ⟨rfl, totalAddU8_ok hopening, totalAddU12_ok hdeposit⟩

/-- The value of a sum of two amounts that are not both zero. -/
theorem addModeU64_pos {a b l : Amount} (h : a.addModeU64 b = .ok l)
    (hne : ¬ (a.isZero = true ∧ b.isZero = true)) : 0 < l.value := by
  obtain ⟨ha, hb, hvalue⟩ := addModeU64_value h
  have hpos : ∀ x : Amount, 0 ≤ x.value → x.isZero = false → 0 < x.value := by
    intro x hx hzero
    have hmagnitude := magnitude_pos hzero
    have hnot : x.isNegative = false := by
      by_contra hneg
      have := (isNegative_iff x).mp (by simpa using hneg)
      omega
    rw [value_of_not_isNegative hnot]
    exact_mod_cast hmagnitude
  by_cases hzero : a.isZero = true
  · have := hpos b hb (by simpa using fun hb => hne ⟨hzero, hb⟩)
    omega
  · have := hpos a ha (by simpa using hzero)
    omega

/-- What an opening has checked and done. -/
theorem channelOpen_ok {left right : AddrHac}
    (hs : BlackholeEmpty s) (h : channelOpen height id left right s = .ok s') :
    ∃ version, ChannelOpened height id left right version s s' := by
  obtain ⟨_, _, h⟩ := bind_eq_ok h
  replace h := ensure_drop h
  replace h := ensure_drop h
  replace h := ensure_drop h
  replace h := ensure_drop h
  obtain ⟨hamounts, h⟩ := ensure_bind_iff.mp h
  obtain ⟨s₁, hleft, h⟩ := bind_eq_ok h
  obtain ⟨s₂, hright, h⟩ := bind_eq_ok h
  obtain ⟨l, hl, h⟩ := bind_eq_ok h
  obtain ⟨v, hv, h⟩ := bind_eq_ok h
  obtain ⟨version, hversion, h⟩ := bind_eq_ok h
  obtain ⟨hmoved₁, hhole₁⟩ := lockHac_ok hs hleft
  obtain ⟨hmoved₂, hhole₂⟩ := lockHac_ok hmoved₁.blackhole hright
  have hmoved := hmoved₁.trans hmoved₂
  obtain ⟨hframe, hopening, hdeposit⟩ := recordOpen_ok h
  have hdep : (openRecord height version left right).deposit238 = v := by
    show (match left.amount.addModeU64 right.amount >>= to238U64 with
      | .ok v => v | .error _ => 0) = v
    rw [hl, ok_bind, hv]
  have htotals : ∀ records, mintTotals { s₂ with channel := records } = s.mintTotals :=
    fun _ => by rw [mintTotals, mintTotals, ← hmoved.mintTotal]
  have hbal : s'.balanceOf = s₂.balanceOf := by rw [hframe]; rfl
  refine ⟨version, ?_, ?_, ?_, ?_, ?_, ?_, ?_⟩
  · rw [hframe, ← hmoved.channel]
  · rw [← hmoved.channel]
    exact nextReuseVersion_ok hversion
  · refine ⟨rfl, ⟨rfl, rfl⟩, hhole₁, hhole₂, l, v, hl, ?_, hv, hdep⟩
    exact addModeU64_pos hl fun hzero => hamounts (Or.inr (Or.inr hzero))
  · have htotal : s'.hacTotal = s₂.hacTotal := by rw [hacTotal, hacTotal, total, total, hbal]
    rw [htotal, hmoved.total]
    ring
  · rw [BlackholeEmpty, hbal]
    exact hmoved.blackhole
  · rw [hopening, htotals]
  · rw [hdeposit, htotals, hdep]

/-- **What a close did** to an open channel. -/
structure ChannelClosed (height : ℕ) (id : ChannelId) (chan : ChannelSto) (s s' : CoreState) :
    Prop where
  found : s.channel id = some chan
  status : chan.status = .opening
  channel : s'.channel = update s.channel id (some (closeRecord height chan
    chan.leftBill.balance chan.rightBill.balance false))
  interest : 0 ≤ chan.interest height
  hac : s'.hacTotal = s.hacTotal + chan.locked + chan.interest height
  blackhole : BlackholeEmpty s'
  opening : s'.mintTotals.openingChannel + 1 = s.mintTotals.openingChannel
  deposit : s'.mintTotals.channelDeposit238 + chan.deposit238 = s.mintTotals.channelDeposit238

/-- What the counters become at a close. -/
theorem recordClose_ok {add : CloseTotals} {satSub : ℕ} (h : recordClose s add satSub = .ok s') :
    s' = { s with mintTotal := s'.mintTotal } ∧
      s'.mintTotals.openingChannel + 1 = s.mintTotals.openingChannel ∧
      s'.mintTotals.channelDeposit238 + add.depositSub238 = s.mintTotals.channelDeposit238 := by
  obtain ⟨opening, hopening, h⟩ := bind_eq_ok h
  obtain ⟨_, _, h⟩ := bind_eq_ok h
  obtain ⟨_, _, h⟩ := bind_eq_ok h
  obtain ⟨deposit, hdeposit, h⟩ := bind_eq_ok h
  obtain ⟨_, _, h⟩ := bind_eq_ok h
  obtain ⟨_, _, h⟩ := bind_eq_ok h
  cases h
  exact ⟨rfl, totalSubU8_ok hopening, totalSubU12_ok hdeposit⟩

/-- The payout of an open channel. -/
theorem closeHac_ok {chan : ChannelSto} {l : Amount} {v : ℕ}
    {add : CloseTotals} (hs : BlackholeEmpty s) (hchan : chan.Opened)
    (hl : chan.leftBill.balance.hacash.addModeU64 chan.rightBill.balance.hacash = .ok l)
    (hpos : 0 < l.value) (h : closeHac height chan chan.leftBill.balance.hacash
      chan.rightBill.balance.hacash l v s = .ok (s', add)) :
    0 ≤ chan.interest height ∧ add.depositSub238 = v ∧
      HacMoved s s' (chan.leftBill.balance.hacash.value + chan.rightBill.balance.hacash.value +
        chan.interest height) := by
  rw [closeHac, if_pos ((isPositive_iff l).mpr hpos)] at h
  obtain ⟨⟨newLeft, newRight⟩, hnew, h⟩ := bind_eq_ok h
  obtain ⟨_, _, h⟩ := bind_eq_ok h
  obtain ⟨_, _, h⟩ := bind_eq_ok h
  obtain ⟨_, _, h⟩ := bind_eq_ok h
  obtain ⟨_, _, h⟩ := bind_eq_ok h
  obtain ⟨s₁, hs₁, h⟩ := bind_eq_ok h
  obtain ⟨s₂, hs₂, h⟩ := bind_eq_ok h
  cases h
  have hinterest : chan.interest height = newLeft.value + newRight.value -
      (chan.leftBill.balance.hacash.value + chan.rightBill.balance.hacash.value) := by
    rw [interest, hnew]
  rw [hchan.attribution] at hnew
  obtain ⟨hle₁, hle₂, hzero₁, hzero₂⟩ := calculateInterestOfHeight_value hnew
  obtain ⟨hnonneg₁, hnonneg₂, -⟩ := addModeU64_value hl
  -- the blackhole locked nothing, so it gets nothing
  have hhole₁ : chan.leftBill.address = blackholeAddr → newLeft.value = 0 := fun haddr => by
    rw [hzero₁ (hchan.left_hole haddr), value_of_isZero (hchan.left_hole haddr)]
  have hhole₂ : chan.rightBill.address = blackholeAddr → newRight.value = 0 := fun haddr => by
    rw [hzero₂ (hchan.right_hole haddr), value_of_isZero (hchan.right_hole haddr)]
  have hmoved₁ := payHac_ok hs (by omega) hhole₁ hs₁
  have hmoved₂ := payHac_ok hmoved₁.blackhole (by omega) hhole₂ hs₂
  refine ⟨by omega, rfl, ?_⟩
  have hmoved := hmoved₁.trans hmoved₂
  rw [hinterest]
  convert hmoved using 1
  ring

/-- What a close has checked and done. -/
theorem channelClose_ok {checkSign : Address → Ret Unit} (hs : ChannelBooks s)
    (h : channelClose height checkSign id s = .ok s') :
    ∃ chan, ChannelClosed height id chan s s' := by
  obtain ⟨_, _, h⟩ := bind_eq_ok h
  obtain ⟨chan, hchan, h⟩ := bind_eq_ok h
  replace h := ensure_drop h
  obtain ⟨_, _, h⟩ := bind_eq_ok h
  obtain ⟨_, _, h⟩ := bind_eq_ok h
  obtain ⟨hstatus, h⟩ := ensure_bind_iff.mp h
  replace h := ensure_drop h
  obtain ⟨l, hl, h⟩ := bind_eq_ok h
  obtain ⟨_, _, h⟩ := bind_eq_ok h
  replace h := ensure_drop h
  obtain ⟨v, hv, h⟩ := bind_eq_ok h
  replace h := ensure_drop h
  replace h := ensure_drop h
  replace h := ensure_drop h
  obtain ⟨⟨s₁, add⟩, hs₁, h⟩ := bind_eq_ok h
  obtain ⟨⟨s₂, satSub⟩, hs₂, hrecord⟩ := bind_eq_ok h
  have hfound := okOr_eq_ok hchan
  have hopened := hs.records id chan hfound hstatus
  obtain ⟨l', v', hl', hpos, hv', hdep⟩ := hopened.locked
  obtain rfl : l' = l := by rw [hl] at hl'; cases hl'; rfl
  obtain rfl : v' = v := by rw [hv] at hv'; cases hv'; rfl
  obtain ⟨hinterest, hsub, hmoved⟩ := closeHac_ok hs.blackhole hopened hl hpos hs₁
  -- no satoshi is locked
  obtain ⟨rfl, -⟩ : s₂ = s₁ ∧ satSub = 0 := by
    rw [closeSat, hopened.satoshi.1, hopened.satoshi.2, if_neg (by omega)] at hs₂
    cases hs₂
    exact ⟨rfl, rfl⟩
  obtain ⟨hframe, hopening, hdeposit⟩ := recordClose_ok hrecord
  have htotals : ∀ records, mintTotals { s₂ with channel := records } = s.mintTotals :=
    fun _ => by rw [mintTotals, mintTotals, ← hmoved.mintTotal]
  have hbal : s'.balanceOf = s₂.balanceOf := by rw [hframe]; rfl
  refine ⟨chan, hfound, hstatus, ?_, hinterest, ?_, ?_, ?_, ?_⟩
  · rw [hframe, ← hmoved.channel]
  · have htotal : s'.hacTotal = s₂.hacTotal := by rw [hacTotal, hacTotal, total, total, hbal]
    rw [htotal, hmoved.total, locked, if_pos hstatus]
    ring
  · rw [BlackholeEmpty, hbal]
    exact hmoved.blackhole
  · rw [hopening, htotals]
  · rw [hdep, ← hsub, hdeposit, htotals]

/-! ## Runs -/

/-- An execution that touches HAC or channels. -/
inductive ChannelOp where
  | open (height : ℕ) (id : ChannelId) (left right : AddrHac)
  | close (height : ℕ) (checkSign : Address → Ret Unit) (id : ChannelId)
  | transfer (height : ℕ) (src dst : Address) (amt : Amount)

/-- The change of the state. -/
def ChannelOp.exec (s : CoreState) : ChannelOp → Ret CoreState
  | .open height id left right => channelOpen height id left right s
  | .close height checkSign id => channelClose height checkSign id s
  | .transfer height src dst amt => hacTransfer s height src dst amt

/-- What is noted: openings and payouts with the version of the record, interest, and burned HAC. -/
inductive ChannelEvent where
  | opened (id : ChannelId) (version : ℕ)
  | paid (id : ChannelId) (version : ℕ) (interest : ℤ)
  | moved (burned : ℤ)

namespace ChannelEvent

/-- The interest of a payout. -/
def interest : ChannelEvent → ℤ
  | .paid _ _ interest => interest
  | _ => 0

/-- What was sent to the blackhole. -/
def burned : ChannelEvent → ℤ
  | .moved burned => burned
  | _ => 0

/-- One for the opening of an id with a version. -/
def openings (id : ChannelId) (version : ℕ) : ChannelEvent → ℕ
  | .opened i v => if i = id ∧ v = version then 1 else 0
  | _ => 0

/-- One for the payout of an id with a version. -/
def payouts (id : ChannelId) (version : ℕ) : ChannelEvent → ℕ
  | .paid i v _ => if i = id ∧ v = version then 1 else 0
  | _ => 0

end ChannelEvent

open ChannelEvent

/-- The version of a record. -/
def CoreState.versionOf (s : CoreState) (id : ChannelId) : ℕ :=
  ((s.channel id).map reuseVersion).getD 0

/-- What is noted of an execution from `s` to `s'`. -/
def ChannelOp.event (s s' : CoreState) : ChannelOp → ChannelEvent
  | .open _ id _ _ => .opened id (s'.versionOf id)
  | .close height _ id =>
    .paid id (s.versionOf id) (((s.channel id).map (interest height)).getD 0)
  | .transfer height src dst amt => .moved (HacOp.transfer height src dst amt).burned

/-- Executions that all succeed, with what is noted of them. -/
def runChannelOps (s : CoreState) : List ChannelOp → Ret (CoreState × List ChannelEvent)
  | [] => .ok (s, [])
  | op :: ops => do
    let s' ← op.exec s
    let (s'', events) ← runChannelOps s' ops
    return (s'', op.event s s' :: events)

/-- One for an id that is open with a version. -/
def CoreState.live (s : CoreState) (id : ChannelId) (version : ℕ) : ℕ :=
  openWeight (fun chan => if chan.reuseVersion = version then 1 else 0) (s.channel id)

/-- A record of the same two addresses, of a version no lower. -/
def ChannelSto.Later (chan chan' : ChannelSto) : Prop :=
  chan.reuseVersion ≤ chan'.reuseVersion ∧
    chan'.leftBill.address = chan.leftBill.address ∧
    chan'.rightBill.address = chan.rightBill.address

/-- **What one execution keeps.** -/
structure ChannelStep (s s' : CoreState) (e : ChannelEvent) : Prop where
  books : ChannelBooks s'
  hac : s'.hacTotal + s'.lockedTotal = s.hacTotal + s.lockedTotal + e.interest - e.burned
  interest : 0 ≤ e.interest
  live : ∀ id v, s.live id v + e.openings id v = e.payouts id v + s'.live id v
  later : ∀ id chan, s.channel id = some chan → ∃ chan', s'.channel id = some chan' ∧
    chan.Later chan' ∧ ∀ v ≤ chan.reuseVersion, e.openings id v = 0
  opening : ∀ id v, e.openings id v = 0 ∨ (e.openings id v = 1 ∧
    ∃ chan, s'.channel id = some chan ∧ chan.reuseVersion = v)

section

variable {s s' : CoreState} {id : ChannelId}

theorem live_eq_of_channel {i : ChannelId} (h : s'.channel i = s.channel i) (v : ℕ) :
    s'.live i v = s.live i v := by
  rw [live, live, h]

/-- A record that is not open has no weight. -/
theorem openWeight_of_closed {f : ChannelSto → ℕ} {record : Option ChannelSto}
    (h : ∀ chan, record = some chan → chan.status = .agreementClosed) :
    openWeight f record = 0 := by
  cases record with
  | none => rfl
  | some chan =>
    rw [openWeight_some, h chan rfl]
    rfl

section

variable (hs : ChannelBooks s)
include hs

/-- An opening keeps the books. -/
theorem ChannelOpened.books {height version : ℕ} {left right : AddrHac}
    (h : ChannelOpened height id left right version s s') : ChannelBooks s' := by
  have hclosed : ∀ f, openWeight f (s.channel id) = 0 := fun f =>
    openWeight_of_closed fun chan hchan => (h.reused chan hchan).1
  have hcount := sum_openWeight (fun _ => 1) h.channel
  have hdeposit := sum_openWeight deposit238 h.channel
  rw [hclosed, ← openingCount_eq, ← openingCount_eq, if_pos (openRecord_status ..)] at hcount
  rw [hclosed, ← depositTotal_eq, ← depositTotal_eq, if_pos (openRecord_status ..)] at hdeposit
  refine ⟨h.blackhole, ?_, ?_, fun i chan hchan hstatus => ?_⟩
  · rw [h.opening, hs.opening]
    omega
  · rw [h.deposit, hs.deposit]
    omega
  · rw [h.channel] at hchan
    by_cases hi : i = id
    · rw [hi, update_self] at hchan
      cases hchan
      exact h.opened
    · rw [update_of_ne hi] at hchan
      exact hs.records i chan hchan hstatus

/-- A close keeps the books. -/
theorem ChannelClosed.books {height : ℕ} {chan : ChannelSto}
    (h : ChannelClosed height id chan s s') : ChannelBooks s' := by
  have hcount := sum_openWeight (fun _ => 1) h.channel
  have hdeposit := sum_openWeight deposit238 h.channel
  rw [h.found, openWeight_some, if_pos h.status, ← openingCount_eq, ← openingCount_eq,
    if_neg (by nofun)] at hcount
  rw [h.found, openWeight_some, if_pos h.status, ← depositTotal_eq, ← depositTotal_eq,
    if_neg (by nofun)] at hdeposit
  have hopening' := h.opening
  have hdeposit' := h.deposit
  rw [hs.opening] at hopening'
  rw [hs.deposit] at hdeposit'
  refine ⟨h.blackhole, by omega, by omega, fun i chan hchan hstatus => ?_⟩
  rw [h.channel] at hchan
  by_cases hi : i = id
  · rw [hi, update_self] at hchan
    cases hchan
    cases hstatus
  · rw [update_of_ne hi] at hchan
    exact hs.records i chan hchan hstatus

/-- An opening adds one live use of its id. -/
theorem ChannelOpened.step {height version : ℕ} {left right : AddrHac}
    (h : ChannelOpened height id left right version s s') :
    ChannelStep s s' (.opened id (s'.versionOf id)) := by
  have hversion : s'.versionOf id = version := by
    rw [versionOf, h.channel, update_self]
    rfl
  have hlocked := lockedTotal_update h.channel
  have hold : ((s.channel id).map locked).getD 0 = 0 := by
    cases hchan : s.channel id with
    | none => rfl
    | some chan =>
      show chan.locked = 0
      rw [locked, (h.reused chan hchan).1, if_neg (by nofun)]
  have hnew : (openRecord height version left right).locked
      = left.amount.value + right.amount.value := if_pos rfl
  rw [hversion]
  refine ⟨h.books hs, ?_, le_rfl, fun i v => ?_, fun i chan hchan => ?_, fun i v => ?_⟩
  · rw [hold, hnew] at hlocked
    rw [h.hac]
    show _ = _ + (0 : ℤ) - 0
    linarith
  · show s.live i v + (if id = i ∧ version = v then 1 else 0) = 0 + s'.live i v
    by_cases hi : i = id
    · subst hi
      have hclosed : s.live i v = 0 :=
        openWeight_of_closed fun chan hchan => (h.reused chan hchan).1
      rw [hclosed, live, h.channel, update_self, openWeight_some,
        if_pos (openRecord_status ..), zero_add, zero_add]
      show _ = if version = v then 1 else 0
      by_cases hv : version = v
      · rw [if_pos ⟨rfl, hv⟩, if_pos hv]
      · rw [if_neg fun hc => hv hc.2, if_neg hv]
    · rw [if_neg fun hc => hi hc.1.symm, zero_add, add_zero]
      exact (live_eq_of_channel (by rw [h.channel, update_of_ne hi]) v).symm
  · by_cases hi : i = id
    · subst hi
      obtain ⟨-, hleft, hright, hnext⟩ := h.reused chan hchan
      refine ⟨openRecord height version left right, by rw [h.channel, update_self],
        ⟨?_, hleft, hright⟩, fun v hv => if_neg ?_⟩
      · show chan.reuseVersion ≤ version
        omega
      · rintro ⟨-, rfl⟩
        omega
    · exact ⟨chan, by rw [h.channel, update_of_ne hi, hchan], ⟨le_rfl, rfl, rfl⟩,
        fun v _ => if_neg fun hc => hi hc.1.symm⟩
  · by_cases hc : id = i ∧ version = v
    · obtain ⟨rfl, rfl⟩ := hc
      exact Or.inr ⟨if_pos ⟨rfl, rfl⟩, _, by rw [h.channel, update_self], rfl⟩
    · exact Or.inl (if_neg hc)

/-- A close pays out the live use of its id. -/
theorem ChannelClosed.step {height : ℕ} {chan : ChannelSto}
    (h : ChannelClosed height id chan s s') :
    ChannelStep s s' (.paid id (s.versionOf id)
      (((s.channel id).map (ChannelSto.interest height)).getD 0)) := by
  have hversion : s.versionOf id = chan.reuseVersion := by
    rw [versionOf, h.found]
    rfl
  have hinterest : ((s.channel id).map (ChannelSto.interest height)).getD 0
      = chan.interest height := by rw [h.found]; rfl
  have hlocked := lockedTotal_update h.channel
  rw [hversion, hinterest]
  refine ⟨h.books hs, ?_, h.interest, fun i v => ?_, fun i old hold => ?_, fun i v => ?_⟩
  · have hnew : (closeRecord height chan chan.leftBill.balance chan.rightBill.balance
        false).locked = 0 := if_neg (by nofun)
    rw [h.found, hnew] at hlocked
    have hlocked : s'.lockedTotal + chan.locked = s.lockedTotal + 0 := hlocked
    rw [h.hac]
    show _ = _ + chan.interest height - 0
    linarith
  · show s.live i v + 0 = (if id = i ∧ chan.reuseVersion = v then 1 else 0) + s'.live i v
    by_cases hi : i = id
    · subst hi
      have hclosed : s'.live i v = 0 := by
        rw [live, h.channel, update_self]
        exact openWeight_of_closed fun record hrecord => by cases hrecord; rfl
      rw [hclosed, live, h.found, openWeight_some, if_pos h.status, add_zero, add_zero]
      simp
    · rw [if_neg fun hc => hi hc.1.symm, zero_add, add_zero]
      exact (live_eq_of_channel (by rw [h.channel, update_of_ne hi]) v).symm
  · by_cases hi : i = id
    · subst hi
      rw [h.found] at hold
      cases hold
      refine ⟨closeRecord height chan chan.leftBill.balance chan.rightBill.balance false, ?_,
        ⟨le_rfl, rfl, rfl⟩, fun _ _ => rfl⟩
      rw [h.channel, update_self]
    · exact ⟨old, by rw [h.channel, update_of_ne hi, hold], ⟨le_rfl, rfl, rfl⟩,
        fun _ _ => rfl⟩
  · exact Or.inl rfl

end

/-- A transfer leaves the channels alone. -/
theorem hacTransfer_channels {height : ℕ} {src dst : Address} {amt : Amount}
    (h : hacTransfer s height src dst amt = .ok s') :
    s'.channel = s.channel ∧ s'.mintTotal = s.mintTotal := by
  rcases hacTransfer_ok h with ⟨-, rfl⟩ | ⟨-, s₁, hsub, hadd⟩
  · exact ⟨rfl, rfl⟩
  · obtain ⟨-, _, -, hre⟩ := hacSub_ok hsub
    obtain ⟨-, _, -, hre'⟩ := hacAdd_ok hadd
    exact ⟨hre'.channel.trans hre.channel, hre'.mintTotal.trans hre.mintTotal⟩

/-- One execution. -/
theorem ChannelOp.step {op : ChannelOp} (hs : ChannelBooks s) (h : op.exec s = .ok s') :
    ChannelStep s s' (op.event s s') := by
  cases op with
  | «open» height id left right =>
    obtain ⟨version, hopened⟩ := channelOpen_ok hs.blackhole h
    exact hopened.step hs
  | close height checkSign id =>
    obtain ⟨chan, hclosed⟩ := channelClose_ok hs h
    exact hclosed.step hs
  | transfer height src dst amt =>
    obtain ⟨hchannel, htotals⟩ := hacTransfer_channels h
    obtain ⟨htotal, hhole⟩ := @HacOp.total s s' (.transfer height src dst amt) h hs.blackhole
    have hlocked : s'.lockedTotal = s.lockedTotal := by rw [lockedTotal, lockedTotal, hchannel]
    refine ⟨⟨hhole, ?_, ?_, ?_⟩, ?_, le_rfl, fun i v => ?_, fun i chan hchan => ?_, fun i v => ?_⟩
    · rw [mintTotals, htotals, openingCount_eq, hchannel, ← openingCount_eq]
      exact hs.opening
    · rw [mintTotals, htotals, depositTotal_eq, hchannel, ← depositTotal_eq]
      exact hs.deposit
    · rw [hchannel]
      exact hs.records
    · rw [htotal, hlocked]
      show _ = _ + 0 - (HacOp.transfer height src dst amt).burned
      have hnet : (HacOp.transfer height src dst amt).net
          = 0 - 0 - (HacOp.transfer height src dst amt).burned := rfl
      rw [hnet]
      ring
    · show s.live i v + 0 = 0 + s'.live i v
      rw [add_zero, zero_add]
      exact (live_eq_of_channel (by rw [hchannel]) v).symm
    · exact ⟨chan, by rw [hchannel, hchan], ⟨le_rfl, rfl, rfl⟩, fun _ _ => rfl⟩
    · exact Or.inl rfl

end

/-- What a run of executions keeps. -/
structure ChannelRun (s s' : CoreState) (events : List ChannelEvent) : Prop where
  books : ChannelBooks s'
  hac : s'.hacTotal + s'.lockedTotal = s.hacTotal + s.lockedTotal +
    (events.map ChannelEvent.interest).sum - (events.map ChannelEvent.burned).sum
  interest : ∀ e ∈ events, 0 ≤ e.interest
  live : ∀ id v, s.live id v + (events.map (ChannelEvent.openings id v)).sum
    = (events.map (ChannelEvent.payouts id v)).sum + s'.live id v
  later : ∀ id chan, s.channel id = some chan → ∃ chan', s'.channel id = some chan' ∧
    chan.Later chan' ∧
    ∀ v ≤ chan.reuseVersion, (events.map (openings id v)).sum = 0
  once : ∀ id v, (events.map (openings id v)).sum ≤ 1

variable {s s' : CoreState} {events : List ChannelEvent} {id : ChannelId}

/-- The step lemma, along a run. -/
theorem runChannelOps_ok {ops : List ChannelOp}
    (hs : ChannelBooks s) (h : runChannelOps s ops = .ok (s', events)) :
    ChannelRun s s' events := by
  induction ops generalizing s events with
  | nil =>
    cases h
    exact ⟨hs, by simp, nofun, fun _ _ => by simp,
      fun _ chan hchan => ⟨chan, hchan, ⟨le_rfl, rfl, rfl⟩, fun _ _ => rfl⟩, fun _ _ => by simp⟩
  | cons op ops ih =>
    obtain ⟨mid, hmid, h⟩ := bind_eq_ok h
    obtain ⟨⟨s'', rest⟩, hrest, h⟩ := bind_eq_ok h
    cases h
    have hstep := op.step hs hmid
    have hrun := ih hstep.books hrest
    refine ⟨hrun.books, ?_, ?_, fun id v => ?_, fun id chan hchan => ?_, fun id v => ?_⟩
    · rw [map_cons, map_cons, sum_cons, sum_cons, hrun.hac, hstep.hac]
      ring
    · intro e he
      rcases mem_cons.mp he with rfl | he
      · exact hstep.interest
      · exact hrun.interest e he
    · rw [map_cons, map_cons, sum_cons, sum_cons]
      have hone := hstep.live id v
      have hall := hrun.live id v
      omega
    · obtain ⟨chan₁, hchan₁, hlater₁, hzero₁⟩ := hstep.later id chan hchan
      obtain ⟨chan₂, hchan₂, hlater₂, hzero₂⟩ := hrun.later id chan₁ hchan₁
      refine ⟨chan₂, hchan₂, ⟨hlater₁.1.trans hlater₂.1, hlater₂.2.1.trans hlater₁.2.1,
        hlater₂.2.2.trans hlater₁.2.2⟩, fun v hv => ?_⟩
      rw [map_cons, sum_cons, hzero₁ v hv, hzero₂ v (hv.trans hlater₁.1)]
    · rw [map_cons, sum_cons]
      rcases hstep.opening id v with hzero | ⟨hone, chan, hchan, rfl⟩
      · rw [hzero, zero_add]
        exact hrun.once id v
      · -- once opened, the record has the version already
        obtain ⟨_, _, _, hnone⟩ := hrun.later id chan hchan
        rw [hone, hnone _ le_rfl]

/-- A run in two parts. -/
theorem runChannelOps_append {a b : List ChannelOp}
    (h : runChannelOps s (a ++ b) = .ok (s', events)) :
    ∃ mid before after, runChannelOps s a = .ok (mid, before) ∧
      runChannelOps mid b = .ok (s', after) := by
  induction a generalizing s events with
  | nil => exact ⟨s, [], events, rfl, h⟩
  | cons op a ih =>
    obtain ⟨s₁, hs₁, h⟩ := bind_eq_ok h
    obtain ⟨⟨s₂, rest⟩, hrest, h⟩ := bind_eq_ok h
    cases h
    obtain ⟨mid, before, after, hbefore, hafter⟩ := ih hrest
    refine ⟨mid, op.event s s₁ :: before, after, ?_, hafter⟩
    rw [runChannelOps, hs₁, ok_bind, hbefore]
    rfl

/-- An open channel stays as it is until it is closed. -/
theorem runChannelOps_unclosed {ops : List ChannelOp} {chan : ChannelSto} (hs : ChannelBooks s)
    (hchan : s.channel id = some chan) (hstatus : chan.status = .opening)
    (hops : ∀ height checkSign, .close height checkSign id ∉ ops)
    (h : runChannelOps s ops = .ok (s', events)) : s'.channel id = some chan := by
  induction ops generalizing s events with
  | nil =>
    cases h
    exact hchan
  | cons op ops ih =>
    obtain ⟨mid, hmid, h⟩ := bind_eq_ok h
    obtain ⟨⟨s'', rest⟩, hrest, h⟩ := bind_eq_ok h
    cases h
    refine ih (op.step hs hmid).books ?_
      (fun height checkSign hmem => hops height checkSign (mem_cons_of_mem _ hmem)) hrest
    cases op with
    | «open» height i left right =>
      obtain ⟨version, hopened⟩ := channelOpen_ok hs.blackhole hmid
      have hi : id ≠ i := by
        rintro rfl
        have hclosed := (hopened.reused chan hchan).1
        rw [hstatus] at hclosed
        cases hclosed
      rw [hopened.channel, update_of_ne hi, hchan]
    | close height checkSign i =>
      obtain ⟨old, hclosed⟩ := channelClose_ok hs hmid
      have hi : id ≠ i := by
        rintro rfl
        exact hops height checkSign mem_cons_self
      rw [hclosed.channel, update_of_ne hi, hchan]
    | transfer height src dst amt =>
      rw [(hacTransfer_channels hmid).1, hchan]

/-- **The accounts of channels over a run.** -/
structure ChannelAccounts (s : CoreState) (ops : List ChannelOp) (s' : CoreState)
    (events : List ChannelEvent) : Prop where
  /-- All HAC, locked or not, moves by the interest paid and by what the blackhole got. -/
  hac : s'.hacTotal + s'.lockedTotal = s.hacTotal + s.lockedTotal +
    (events.map ChannelEvent.interest).sum - (events.map ChannelEvent.burned).sum
  interest : ∀ e ∈ events, 0 ≤ e.interest
  /-- The counters are the number and the deposits of the open channels. -/
  opening : s'.mintTotals.openingChannel = s'.openingCount
  deposit : s'.mintTotals.channelDeposit238 = s'.depositTotal
  /-- A close of an open channel takes no more from the counters than they have. -/
  underflow : ∀ id chan, s'.channel id = some chan → chan.status = .opening →
    1 ≤ s'.mintTotals.openingChannel ∧ chan.deposit238 ≤ s'.mintTotals.channelDeposit238
  /-- A version of a channel is opened once at most, and is then paid out once or open. -/
  once : ∀ id v, s.live id v + (events.map (openings id v)).sum ≤ 1 ∧
    s.live id v + (events.map (openings id v)).sum
      = (events.map (payouts id v)).sum + s'.live id v
  /-- An id with a record is opened only by its two addresses after an agreement close. -/
  reused : ∀ before after height id left right,
    ops = before ++ ChannelOp.open height id left right :: after →
    ∃ mid seen, runChannelOps s before = .ok (mid, seen) ∧ ∀ chan, mid.channel id = some chan →
      chan.status = .agreementClosed ∧ left.address = chan.leftBill.address ∧
        right.address = chan.rightBill.address
  /-- Between two openings of an id there is a close, and the addresses are the same. -/
  reopened : ∀ before between after height height' id left right left' right',
    ops = before ++ ChannelOp.open height id left right ::
      (between ++ ChannelOp.open height' id left' right' :: after) →
    (∃ closeHeight checkSign, ChannelOp.close closeHeight checkSign id ∈ between) ∧
      left'.address = left.address ∧ right'.address = right.address

/-- The counters cover every open channel. -/
theorem ChannelBooks.covers (hs : ChannelBooks s)
    {chan : ChannelSto} (hchan : s.channel id = some chan) (hstatus : chan.status = .opening) :
    1 ≤ s.mintTotals.openingChannel ∧ chan.deposit238 ≤ s.mintTotals.channelDeposit238 := by
  have hle : ∀ f : ChannelSto → ℕ, f chan ≤ ∑ i, openWeight f (s.channel i) := by
    intro f
    have hsingle := Finset.single_le_sum (fun i _ => Nat.zero_le (openWeight f (s.channel i)))
      (Finset.mem_univ id)
    rw [hchan, openWeight_some, if_pos hstatus] at hsingle
    exact hsingle
  rw [hs.opening, hs.deposit, openingCount_eq, depositTotal_eq]
  exact ⟨hle fun _ => 1, hle deposit238⟩

/-- An opening in a run, with the states around it. -/
theorem runChannelOps_open {before after : List ChannelOp} {height : ℕ}
    {left right : AddrHac} (hs : ChannelBooks s)
    (h : runChannelOps s (before ++ .open height id left right :: after) = .ok (s', events)) :
    ∃ mid seen mid' rest version, runChannelOps s before = .ok (mid, seen) ∧ ChannelBooks mid' ∧
      ChannelOpened height id left right version mid mid' ∧
      runChannelOps mid' after = .ok (s', rest) := by
  obtain ⟨mid, seen, rest, hseen, h⟩ := runChannelOps_append h
  have hmid := (runChannelOps_ok hs hseen).books
  obtain ⟨mid', hmid', h⟩ := bind_eq_ok h
  obtain ⟨⟨s'', rest'⟩, hrest, h⟩ := bind_eq_ok h
  cases h
  obtain ⟨version, hopened⟩ := channelOpen_ok hmid.blackhole hmid'
  exact ⟨mid, seen, mid', rest', version, hseen, hopened.books hmid, hopened, hrest⟩

/-- **The books of the channels are right** after every run of openings, closes and transfers. -/
theorem channel_accounting {s s' : CoreState} {ops : List ChannelOp} {events : List ChannelEvent}
    (hs : ChannelBooks s) (h : runChannelOps s ops = .ok (s', events)) :
    ChannelAccounts s ops s' events := by
  have hrun := runChannelOps_ok hs h
  refine ⟨hrun.hac, hrun.interest, hrun.books.opening, hrun.books.deposit,
    fun id chan => hrun.books.covers, fun id v => ⟨?_, hrun.live id v⟩, ?_, ?_⟩
  · -- a version that is open at the start is not opened again
    have honce := hrun.once id v
    by_cases hlive : s.live id v = 0
    · omega
    · cases hchan : s.channel id with
      | none =>
        rw [live, hchan] at hlive
        exact absurd rfl hlive
      | some chan =>
        have hweight : s.live id v ≤ 1 := by
          rw [live, hchan, openWeight_some]
          split_ifs <;> omega
        have hversion : chan.reuseVersion = v := by
          by_contra hne
          rw [live, hchan, openWeight_some, if_neg hne] at hlive
          exact hlive (ite_self 0)
        obtain ⟨-, -, -, hnone⟩ := hrun.later id chan hchan
        have := hnone v hversion.ge
        omega
  · rintro before after height id left right rfl
    obtain ⟨mid, seen, mid', rest, version, hseen, -, hopened, -⟩ := runChannelOps_open hs h
    refine ⟨mid, seen, hseen, fun chan hchan => ?_⟩
    obtain ⟨hstatus, hleft, hright, -⟩ := hopened.reused chan hchan
    exact ⟨hstatus, hleft, hright⟩
  · rintro before between after height height' id left right left' right' rfl
    obtain ⟨_, _, mid', rest, version, -, hmid', hopened, hrest⟩ := runChannelOps_open hs h
    obtain ⟨mid₂, seen₂, _, _, _, hseen₂, -, hopened₂, -⟩ := runChannelOps_open hmid' hrest
    have hrecord : mid'.channel id = some (openRecord height version left right) := by
      rw [hopened.channel, update_self]
    refine ⟨?_, ?_⟩
    · by_contra hnone
      have hstill := runChannelOps_unclosed hmid' hrecord rfl
        (fun closeHeight checkSign hmem => hnone ⟨closeHeight, checkSign, hmem⟩) hseen₂
      cases (hopened₂.reused _ hstill).1
    · obtain ⟨chan, hchan, hlater, -⟩ := (runChannelOps_ok hmid' hseen₂).later id _ hrecord
      obtain ⟨-, hleft, hright, -⟩ := hopened₂.reused chan hchan
      exact ⟨hleft.trans hlater.2.1, hright.trans hlater.2.2⟩

/-! ### A channel used twice -/

/-- The books of a ledger without channels. -/
theorem channelBooks_of_none (hnone : ∀ id, s.channel id = none)
    (htotal : s.mintTotal = none) (hhole : BlackholeEmpty s) : ChannelBooks s where
  blackhole := hhole
  opening := by
    rw [openingCount_eq, mintTotals, htotal, Finset.sum_eq_zero]
    · rfl
    · intro id _
      rw [hnone]
      rfl
  deposit := by
    rw [depositTotal_eq, mintTotals, htotal, Finset.sum_eq_zero]
    · rfl
    · intro id _
      rw [hnone]
      rfl
  records id chan hchan := by
    rw [hnone] at hchan
    cases hchan

/-- Two addresses and an id. -/
def payerAddr (n : UInt8) : Address := .privkey n

/-- An id of a channel. -/
def payId : ChannelId := ⟨List.replicate 16 1, by decide⟩

/-- A ledger where two addresses have ten coins each. -/
def payState : CoreState :=
  { empty with
    balance := fun a => if a = payerAddr 1 ∨ a = payerAddr 2 then some (.hac (.coinU128 10 248))
      else none }

/-- A state without channels has its books in order. -/
theorem payState_books : ChannelBooks payState := by
  refine channelBooks_of_none (fun _ => rfl) rfl ?_
  show (payState.balanceOf blackholeAddr).hacash.value = 0
  decide

theorem payTransfer_burned :
    (HacOp.transfer 1 (payerAddr 1) blackholeAddr (.coinU128 1 248)).burned = 10 ^ 248 :=
  rfl

/-- A channel is opened, closed with interest and opened again. -/
def payOps : List ChannelOp :=
  [.open 0 payId ⟨payerAddr 1, .coinU128 2 248⟩ ⟨payerAddr 2, .coinU128 1 248⟩,
    .transfer 1 (payerAddr 1) (payerAddr 2) (.coinU128 1 248),
    .close 20000 (fun _ => .ok ()) payId,
    .open 20001 payId ⟨payerAddr 1, .coinU128 1 248⟩ ⟨payerAddr 2, .zero⟩]

/-- A channel is opened, and closed with interest. -/
theorem channel_accounting_sample : ∃ s' events,
    runChannelOps payState payOps = .ok (s', events) ∧
      ChannelAccounts payState payOps s' events := by
  have hok : (runChannelOps payState payOps).isOk = true := by decide +kernel
  obtain ⟨⟨s', events⟩, h⟩ := exists_of_isOk hok
  exact ⟨s', events, h, channel_accounting payState_books h⟩

/-- **A transfer to the blackhole** takes from the sum though no interest is paid. -/
theorem transfer_to_blackhole : ChannelBooks payState ∧ ∃ s' events,
    runChannelOps payState [.transfer 1 (payerAddr 1) blackholeAddr (.coinU128 1 248)]
        = .ok (s', events) ∧
      (events.map ChannelEvent.interest).sum = 0 ∧
      s'.hacTotal + s'.lockedTotal < payState.hacTotal + payState.lockedTotal := by
  have hok :
      (hacTransfer payState 1 (payerAddr 1) blackholeAddr (.coinU128 1 248)).isOk = true := by
    decide +kernel
  obtain ⟨s', h⟩ := exists_of_isOk hok
  have hstep := (ChannelOp.transfer 1 (payerAddr 1) blackholeAddr (.coinU128 1 248)).step
    payState_books h
  refine ⟨payState_books, s', [.moved (10 ^ 248)], ?_, rfl, ?_⟩
  · show ((hacTransfer payState 1 (payerAddr 1) blackholeAddr (.coinU128 1 248)) >>= _) = _
    rw [h, ok_bind]
    show Except.ok (s', [moved _]) = _
    rw [payTransfer_burned]
  · have hhac := hstep.hac
    change _ = _ + 0 - (HacOp.transfer 1 (payerAddr 1) blackholeAddr (.coinU128 1 248)).burned
      at hhac
    rw [payTransfer_burned] at hhac
    have hpos : (0 : ℤ) < 10 ^ 248 := by positivity
    linarith

end Hacash
