import Hacash.Field.Wire
import Hacash.Lib.Window

/-!
# The ledger state (`base::ledger`, state.rs, total.rs)

`CoreState` is the typed view of a state layer, one map per key prefix. `Rebalanced.total` says how
an operation moves a sum over all balances.
-/

namespace Hacash

open Lib Function

/-! ## Diamonds (diamond.rs, diamond_sto.rs) -/

/-- A six-byte diamond name. -/
structure DiamondName where
  bytes : List UInt8
  size : bytes.length = 6
  deriving DecidableEq

/-- `DIAMOND_NAME_VALID_CHARS`: the letters `WTYUIAHXVMEKBSZN`. -/
def diamondNameValidChars : List UInt8 :=
  [87, 84, 89, 85, 73, 65, 72, 88, 86, 77, 69, 75, 66, 83, 90, 78]

def DiamondName.isValid (name : DiamondName) : Bool :=
  name.bytes.all (fun x => diamondNameValidChars.contains x)

def diamondStatusNormal : ℕ := 1

/-- `DiamondSto`: status and owner of a diamond. -/
structure DiamondSto where
  status : ℕ
  address : Address
  deriving DecidableEq

/-- `DiamondSmelt`: the record of a mint. -/
structure DiamondSmelt where
  diamond : DiamondName
  number : ℕ
  bornHeight : ℕ
  bornHash : Hash
  prevHash : Hash
  minerAddress : Address
  bidFee : Amount
  nonce : Fixed 8
  averageBidBurn : ℕ
  lifeGene : Hash
  deriving DecidableEq

/-- `DiamondOwnedForm`: the names an address owns, as one byte buffer. -/
structure DiamondOwnedForm where
  names : List UInt8
  deriving DecidableEq

/-! ## Channels (channel.rs) -/

/-- `ChannelId`. -/
abbrev ChannelId : Type := Fixed 16

/-- The status of a channel (`CHANNEL_STATUS_…`). -/
inductive ChannelStatus where
  | opening
  | challenging
  | agreementClosed
  | finalArbitrationClosed
  deriving DecidableEq

/-- `AddrBalance`. -/
structure AddrBalance where
  address : Address
  balance : Balance
  deriving DecidableEq

/-- `ClosedDistributionData`. -/
structure ClosedDistributionData where
  leftBill : Balance
  rightBill : Balance
  deriving DecidableEq

/-- `ChannelSto`. The data of a challenge is left out: nothing here opens one. -/
structure ChannelSto where
  status : ChannelStatus
  reuseVersion : ℕ
  openHeight : ℕ
  closeHeight : ℕ
  arbitrationLockBlock : ℕ
  interestAttribution : ℕ
  leftBill : AddrBalance
  rightBill : AddrBalance
  ifDistribution : Option ClosedDistributionData
  deriving DecidableEq

/-! ## Totals (total.rs) -/

/-- The counters of `BaseTotal` that the modelled operations record into. -/
structure BaseTotal where
  astVmGasBurn238 : ℕ := 0
  blackholeHacBurn238 : ℕ := 0
  blackholeSatBurn : ℕ := 0
  blackholeAssetBurnCount : ℕ := 0
  blackholeHacdBurnCount : ℕ := 0
  deriving DecidableEq

/-- The counters of `MintTotal` that mints and channels record into. -/
structure MintTotal where
  mintedDiamond : ℕ := 0
  hacdBidBurn238 : ℕ := 0
  openingChannel : ℕ := 0
  channelDeposit238 : ℕ := 0
  channelDepositSat : ℕ := 0
  channelInterest238 : ℕ := 0
  channelOpenTotal : ℕ := 0
  channelCloseTotal : ℕ := 0
  channelClosedHacVolume238 : ℕ := 0
  deriving DecidableEq

/-! ## State -/

/-- The typed state: a map for each key prefix. -/
structure CoreState where
  baseTotal : Option BaseTotal
  latestDiamond : Option DiamondSmelt
  balance : Address → Option Balance
  diamond : DiamondName → Option DiamondSto
  diamondName : ℕ → Option DiamondName
  diamondSmelt : DiamondName → Option DiamondSmelt
  diamondOwned : Address → Option DiamondOwnedForm
  asset : Fold64 → Bool
  mintTotal : Option MintTotal
  hacdBidBurn238 : Option ℕ
  channel : ChannelId → Option ChannelSto

namespace CoreState

/-- A state with nothing stored. -/
def empty : CoreState where
  baseTotal := none
  latestDiamond := none
  balance _ := none
  diamond _ := none
  diamondName _ := none
  diamondSmelt _ := none
  diamondOwned _ := none
  asset _ := false
  mintTotal := none
  hacdBidBurn238 := none
  channel _ := none

def getBaseTotal (s : CoreState) : BaseTotal := s.baseTotal.getD {}

def setBaseTotal (s : CoreState) (t : BaseTotal) : CoreState := { s with baseTotal := some t }

/-- `balance(addr)?.unwrap_or_default()`. -/
def balanceOf (s : CoreState) (addr : Address) : Balance := (s.balance addr).getD .default

def balanceSet (s : CoreState) (addr : Address) (b : Balance) : CoreState :=
  { s with balance := update s.balance addr (some b) }

def diamondSet (s : CoreState) (name : DiamondName) (d : DiamondSto) : CoreState :=
  { s with diamond := update s.diamond name (some d) }

def diamondOwnedSet (s : CoreState) (addr : Address) (f : DiamondOwnedForm) : CoreState :=
  { s with diamondOwned := update s.diamondOwned addr (some f) }

def diamondOwnedDel (s : CoreState) (addr : Address) : CoreState :=
  { s with diamondOwned := update s.diamondOwned addr none }

/-- The sum over all addresses of a quantity of their balances. -/
def total (f : Balance → ℤ) (s : CoreState) : ℤ := ∑ a, f (s.balanceOf a)

/-- `s'` is `s` with the balance of `addr` replaced by `b`, as far as balances, the diamond
records, the channels and their totals go. -/
structure Rebalanced (s s' : CoreState) (addr : Address) (b : Balance) : Prop where
  balanceOf : s'.balanceOf = update s.balanceOf addr b
  diamond : s'.diamond = s.diamond
  diamondName : s'.diamondName = s.diamondName
  latestDiamond : s'.latestDiamond = s.latestDiamond
  mintTotal : s'.mintTotal = s.mintTotal
  channel : s'.channel = s.channel

variable {s s' : CoreState} {addr : Address} {b : Balance}

/-- Two changes of one balance. -/
theorem Rebalanced.trans {s'' : CoreState} {b' : Balance}
    (h : Rebalanced s s' addr b) (h' : Rebalanced s' s'' addr b') : Rebalanced s s'' addr b' where
  balanceOf := by rw [h'.balanceOf, h.balanceOf, update_idem]
  diamond := h'.diamond.trans h.diamond
  diamondName := h'.diamondName.trans h.diamondName
  latestDiamond := h'.latestDiamond.trans h.latestDiamond
  mintTotal := h'.mintTotal.trans h.mintTotal
  channel := h'.channel.trans h.channel

theorem Rebalanced.total {s s' : CoreState} {addr : Address} {b : Balance}
    (h : Rebalanced s s' addr b) (f : Balance → ℤ) :
    s'.total f = s.total f + f b - f (s.balanceOf addr) := by
  have hsum := sum_update f s.balanceOf addr b
  rw [← h.balanceOf] at hsum
  rw [CoreState.total, CoreState.total]
  omega

theorem Rebalanced.self (h : Rebalanced s s' addr b) : s'.balanceOf addr = b := by
  rw [h.balanceOf, update_self]

theorem Rebalanced.of_ne {other : Address} (h : Rebalanced s s' addr b) (hne : other ≠ addr) :
    s'.balanceOf other = s.balanceOf other := by
  rw [h.balanceOf, update_of_ne hne]

theorem balanceOf_balanceSet (s : CoreState) (addr : Address) (b : Balance) :
    (s.balanceSet addr b).balanceOf = update s.balanceOf addr b := by
  funext other
  by_cases h : other = addr
  · simp [h, balanceOf, balanceSet]
  · simp [h, balanceOf, balanceSet]

theorem rebalanced_balanceSet (s : CoreState) (addr : Address) (b : Balance) :
    Rebalanced s (s.balanceSet addr b) addr b :=
  ⟨balanceOf_balanceSet s addr b, rfl, rfl, rfl, rfl, rfl⟩

end CoreState

end Hacash
