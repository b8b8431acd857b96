import Hacash.Codec.Signers
import Hacash.Exec.Action
import Hacash.Ledger.Diamond

/-!
# TEX: cells, conditions and the settlement (`protocol::exec`, tex.rs; `base::ledger`, tex.rs)

Pay cells take value from an address, get cells give it, condition cells compare, and
`do_settlement` checks that the two agree. **Key result**: `zhu_conditions_agree_iff`.
-/

namespace Hacash

open CoreState Hacash.Lib Amount List

def settlementAddr : Address := ⟨replicate 20 0 ++ [1], rfl⟩

theorem settlementAddr_ne_blackhole : settlementAddr ≠ blackholeAddr := by decide

/-! ## The ledger of a transaction (base/ledger/tex.rs) -/

/-- `TexEntry`. -/
structure TexEntry where
  addr : Address
  assetSerial : ℕ
  delta : ℤ

/-- `TexLedger`. The names of diamonds are kept as hashes. -/
structure TexLedger where
  zhu : ℤ := 0
  sat : ℤ := 0
  dia : ℤ := 0
  diamonds : List Hash := []
  diatrs : List (Address × ℕ) := []
  entries : List TexEntry := []
  assetChecked : List ℕ := []

/-- `diamond_name_as_hash`: the name, then zeros. -/
def diamondNameAsHash (name : DiamondName) : Hash :=
  ⟨name.bytes ++ replicate 26 0, by simp [name.size]⟩

def first6 (hash : Hash) : DiamondName := ⟨hash.bytes.take 6, by simp [hash.size]⟩

@[simp] theorem first6_diamondNameAsHash (name : DiamondName) :
    first6 (diamondNameAsHash name) = name := by
  apply DiamondOwnedForm.bytes_inj
  show (name.bytes ++ replicate 26 0).take 6 = name.bytes
  rw [← name.size, take_left]

/-- A checked operation on a signed integer of the given width. -/
def checkedSigned (bits : ℕ) (x : ℤ) (msg : String) : Ret ℤ := do
  ensure (-2 ^ (bits - 1) ≤ x ∧ x < 2 ^ (bits - 1)) (.fault msg)
  return x

theorem checkedSigned_ok {bits : ℕ} {x y : ℤ} {msg : String}
    (h : checkedSigned bits x msg = .ok y) : y = x := by
  obtain ⟨_, h⟩ := ensure_bind_iff.mp h
  cases h
  rfl

namespace TexLedger

def recordDiamondPay (tex : TexLedger) (names : List DiamondName) (maxDiamonds : ℕ) :
    Ret TexLedger := do
  let newdia ← checkedSigned 32 (tex.dia + names.length) "cell state diamond record overflow"
  ensure (tex.diamonds.length + names.length ≤ maxDiamonds)
    (.fault "tex diamond pay exceeds diamonds")
  return { tex with diamonds := tex.diamonds ++ names.map diamondNameAsHash, dia := newdia }

def recordDiamondGet (tex : TexLedger) (addr : Address) (count maxDiamonds : ℕ) :
    Ret TexLedger := do
  ensure (count ≠ 0) (.fault "tex diamond_get count cannot be zero")
  ensure (count ≤ maxDiamonds) (.fault "Tex state diamond trs num cannot exceed")
  let diares ← checkedSigned 32 (tex.dia - count) "cell state diamond overflow"
  return { tex with dia := diares, diatrs := tex.diatrs ++ [(addr, count)] }

def recordAssetDelta (tex : TexLedger) (addr : Address) (assetSerial : ℕ) (delta : ℤ) :
    Ret TexLedger := do
  ensure (assetSerial ≠ 0) (.fault "tex asset serial cannot be zero")
  return { tex with entries := tex.entries ++ [⟨addr, assetSerial, delta⟩] }

/-- `record_asset_pay`: of the default address. -/
def recordAssetPay (tex : TexLedger) (asset : AssetAmt) : Ret TexLedger :=
  tex.recordAssetDelta (.fill 0) asset.serial.uint asset.amount.uint

def recordAssetGet (tex : TexLedger) (addr : Address) (asset : AssetAmt) : Ret TexLedger :=
  tex.recordAssetDelta addr asset.serial.uint (-asset.amount.uint)

def markAssetChecked (tex : TexLedger) (serial : Fold64) : TexLedger :=
  { tex with assetChecked := tex.assetChecked.insert serial.uint }

/-- What the entries add up to for one serial. -/
def assetDelta (tex : TexLedger) (serial : ℕ) : ℤ :=
  ((tex.entries.filter (·.assetSerial = serial)).map TexEntry.delta).sum

end TexLedger

/-! ## Cells (codec/action/tex.rs) -/

/-- `TexCell`. -/
inductive TexCell where
  | zhuPay (haczhu : Fold64)
  | zhuGet (haczhu : Fold64)
  | satPay (satnum : Fold64)
  | satGet (satnum : Fold64)
  | diaPay (diamonds : List DiamondName)
  | diaGet (dianum : Uint 3)
  | assetPay (asset : AssetAmt)
  | assetGet (asset : AssetAmt)
  | condZhuAtMost (haczhu : Fold64)
  | condZhuAtLeast (haczhu : Fold64)
  | condZhuEq (haczhu : Fold64)
  | condSatAtMost (satoshi : Fold64)
  | condSatAtLeast (satoshi : Fold64)
  | condSatEq (satoshi : Fold64)
  | condDiaAtMost (diamond : Fold64)
  | condDiaAtLeast (diamond : Fold64)
  | condDiaEq (diamond : Fold64)
  | condAssetAtMost (asset : AssetAmt)
  | condAssetAtLeast (asset : AssetAmt)
  | condAssetEq (asset : AssetAmt)
  | condHeightAtMost (height : Uint 5)
  | condHeightAtLeast (height : Uint 5)
  | condChainIdEq (chainid : Uint 4)

open TexCell

/-- `TexCell::encode_to`: the number of the variant, then its field. -/
def TexCell.encode : TexCell → List UInt8
  | .zhuPay haczhu => 1 :: haczhu.encode
  | .zhuGet haczhu => 2 :: haczhu.encode
  | .satPay satnum => 3 :: satnum.encode
  | .satGet satnum => 4 :: satnum.encode
  | .diaPay diamonds => 5 :: encodeListW 1 DiamondName.bytes diamonds
  | .diaGet dianum => 6 :: dianum.encode
  | .assetPay asset => 7 :: asset.encode
  | .assetGet asset => 8 :: asset.encode
  | .condZhuAtMost haczhu => 11 :: haczhu.encode
  | .condZhuAtLeast haczhu => 12 :: haczhu.encode
  | .condZhuEq haczhu => 13 :: haczhu.encode
  | .condSatAtMost satoshi => 14 :: satoshi.encode
  | .condSatAtLeast satoshi => 15 :: satoshi.encode
  | .condSatEq satoshi => 16 :: satoshi.encode
  | .condDiaAtMost diamond => 17 :: diamond.encode
  | .condDiaAtLeast diamond => 18 :: diamond.encode
  | .condDiaEq diamond => 19 :: diamond.encode
  | .condAssetAtMost asset => 20 :: asset.encode
  | .condAssetAtLeast asset => 21 :: asset.encode
  | .condAssetEq asset => 22 :: asset.encode
  | .condHeightAtMost height => 23 :: height.encode
  | .condHeightAtLeast height => 24 :: height.encode
  | .condChainIdEq chainid => 25 :: chainid.encode

/-- `TexCellExecute`. -/
structure TexCellExecute where
  addr : Address
  cells : List TexCell
  sign : Sign

/-- `get_sign_stuff`: what the address signs. -/
def TexCellExecute.getSignStuff (cr : Crypto) (act : TexCellExecute) : Hash :=
  cr.calculateHash (act.addr.bytes ++ encodeListW 1 TexCell.encode act.cells)

/-! ## Execution (exec/action/tex.rs, exec/apply.rs) -/

/-- What cells and the settlement read of their context and of the protocol's parameters. -/
structure TexEnv where
  execFrom : ExecFrom
  fastSync : Bool
  consensusFlags : ℕ
  height : ℕ
  chainId : ℕ
  diamondFormFlag : ℕ
  texDiamondPayMax : ℕ
  texDiamondGetMaxPerTx : ℕ

/-- What they write: the state and the ledger of the transaction. -/
structure TexCtx where
  state : CoreState
  tex : TexLedger

def TexEnv.diamondForm (env : TexEnv) : Bool :=
  decide (env.consensusFlags &&& env.diamondFormFlag ≠ 0)

/-- `DiamondMove`. -/
inductive DiamondMove where
  | user
  | texEscrow
  deriving DecidableEq

def checkDiamondMove (src dst : Address) : DiamondMove → Ret Unit
  | .user => ensure (dst.isPrivkeyUnknown = false)
      (.fault "cannot transfer diamond to system address")
  | .texEscrow => do
    ensure (settlementAddr.isPrivkey = true)
      (.fault "tex settlement address must be PRIVAKEY type")
    ensure (settlementAddr.isPrivkeyUnknown = true)
      (.fault "tex settlement address must be a system address (value < u32::MAX)")
    ensure (¬ (src ≠ settlementAddr ∧ dst ≠ settlementAddr))
      (.fault "tex diamond move must involve the settlement address")

def diamondsTransfer (env : TexEnv) (s : CoreState) (src dst : Address)
    (diamonds : List DiamondName) (mode : DiamondMove) : Ret CoreState := do
  checkDiamondMove src dst mode
  hacdTransfer s src dst diamonds env.diamondForm

/-- `tex_check_asset_serial`: an asset that was seen once is not looked up again. -/
def texCheckAssetSerial (c : TexCtx) (serial : Fold64) : Ret TexCtx := do
  ensure (serial.uint ≠ 0) (.fault "tex asset serial cannot be zero")
  if serial.uint ∈ c.tex.assetChecked then return c
  else do
    ensure (c.state.asset serial = true) (.fault "tex asset does not exist")
    return { c with tex := c.tex.markAssetChecked serial }

def Amount.zhu (v : ℕ) : Amount := .coinU128 v unitZhu

theorem Amount.zhu_value {v : ℕ} (hv : v < 2 ^ 128) :
    (zhu v).value = (v * 10 ^ 240 : ℕ) := coinU128_value hv (by decide)

namespace TexCell

/-- The most zhu of a cell. -/
def zhuMax : ℕ := 10000000000000000

/-- `ZhuPay`. -/
def execZhuPay (c : TexCtx) (taradr : Address) (zhu : ℕ) : Ret TexCtx := do
  ensure (zhu ≤ zhuMax) (.fault "cell zhu too large")
  let state ← hacSub c.state taradr (.zhu zhu)
  let zhures ← checkedSigned 64 (c.tex.zhu + zhu) "cell state coin zhu overflow"
  return ⟨state, { c.tex with zhu := zhures }⟩

/-- `ZhuGet`. -/
def execZhuGet (c : TexCtx) (taradr : Address) (zhu : ℕ) : Ret TexCtx := do
  ensure (zhu ≤ zhuMax) (.fault "cell zhu too large")
  let state ← hacAdd c.state taradr (.zhu zhu)
  let zhures ← checkedSigned 64 (c.tex.zhu - zhu) "cell state coin zhu overflow"
  return ⟨state, { c.tex with zhu := zhures }⟩

/-- `SatPay`. -/
def execSatPay (c : TexCtx) (taradr : Address) (n : ℕ) : Ret TexCtx := do
  let (state, _) ← satSub c.state taradr n
  ensure (n < 2 ^ 63) (.fault "cell sat too large")
  let satres ← checkedSigned 64 (c.tex.sat + n) "cell state coin sat overflow"
  return ⟨state, { c.tex with sat := satres }⟩

/-- `SatGet`. -/
def execSatGet (c : TexCtx) (taradr : Address) (n : ℕ) : Ret TexCtx := do
  let (state, _) ← satAdd c.state taradr n
  ensure (n < 2 ^ 63) (.fault "cell sat too large")
  let satres ← checkedSigned 64 (c.tex.sat - n) "cell state coin sat overflow"
  return ⟨state, { c.tex with sat := satres }⟩

/-- `DiaPay`. -/
def execDiaPay (env : TexEnv) (c : TexCtx) (taradr : Address) (diamonds : List DiamondName) :
    Ret TexCtx := do
  let state ← diamondsTransfer env c.state taradr settlementAddr diamonds .texEscrow
  let tex ← c.tex.recordDiamondPay diamonds env.texDiamondPayMax
  return ⟨state, tex⟩

/-- `DiaGet`. -/
def execDiaGet (env : TexEnv) (c : TexCtx) (taradr : Address) (dianum : ℕ) : Ret TexCtx := do
  ensure (dianum ≠ 0) (.fault "cell diamond get: number cannot be zero")
  let tex ← c.tex.recordDiamondGet taradr dianum env.texDiamondGetMaxPerTx
  return { c with tex := tex }

/-- `AssetPay`. -/
def execAssetPay (c : TexCtx) (taradr : Address) (asset : AssetAmt) : Ret TexCtx := do
  let c ← texCheckAssetSerial c asset.serial
  let (state, _) ← assetSub c.state taradr asset
  let tex ← c.tex.recordAssetPay asset
  return ⟨state, tex⟩

/-- `AssetGet`. -/
def execAssetGet (c : TexCtx) (taradr : Address) (asset : AssetAmt) : Ret TexCtx := do
  let c ← texCheckAssetSerial c asset.serial
  let (state, _) ← assetAdd c.state taradr asset
  let tex ← c.tex.recordAssetGet taradr asset
  return ⟨state, tex⟩

/-- A condition: the context stays. -/
def condition (c : TexCtx) (p : Bool) (msg : String) : Ret TexCtx := do
  ensure (p = true) (.fault msg)
  return c

/-- A condition on an asset: the serial is checked, and the address may hold none of it. -/
def assetCondition (c : TexCtx) (taradr : Address) (asset : AssetAmt) (cmp : ℕ → ℕ → Bool) :
    Ret TexCtx := do
  let c ← texCheckAssetSerial c asset.serial
  let ast ← (c.state.balanceOf taradr).assetMust asset.serial
  condition c (cmp asset.amount.uint ast.amount.uint) "cell condition asset check failed"

def execute (env : TexEnv) (c : TexCtx) (taradr : Address) : TexCell → Ret TexCtx
  | .zhuPay haczhu => execZhuPay c taradr haczhu.uint
  | .zhuGet haczhu => execZhuGet c taradr haczhu.uint
  | .satPay satnum => execSatPay c taradr satnum.uint
  | .satGet satnum => execSatGet c taradr satnum.uint
  | .diaPay diamonds => execDiaPay env c taradr diamonds
  | .diaGet dianum => execDiaGet env c taradr dianum.uint
  | .assetPay asset => execAssetPay c taradr asset
  | .assetGet asset => execAssetGet c taradr asset
  | .condZhuAtMost haczhu =>
    condition c (cmp (.zhu haczhu.uint) (c.state.balanceOf taradr).hacash).isGE
      "cell condition zhu check failed"
  | .condZhuAtLeast haczhu =>
    condition c (cmp (.zhu haczhu.uint) (c.state.balanceOf taradr).hacash).isLE
      "cell condition zhu check failed"
  | .condZhuEq haczhu =>
    -- `==` is derived: it compares the fields
    condition c (decide (.zhu haczhu.uint = (c.state.balanceOf taradr).hacash))
      "cell condition zhu check failed"
  | .condSatAtMost satoshi =>
    condition c (satoshi.uint ≥ (c.state.balanceOf taradr).satoshi)
      "cell condition sat check failed"
  | .condSatAtLeast satoshi =>
    condition c (satoshi.uint ≤ (c.state.balanceOf taradr).satoshi)
      "cell condition sat check failed"
  | .condSatEq satoshi =>
    condition c (satoshi.uint = (c.state.balanceOf taradr).satoshi)
      "cell condition sat check failed"
  | .condDiaAtMost diamond =>
    condition c (diamond.uint ≥ (c.state.balanceOf taradr).diamond)
      "cell condition dia check failed"
  | .condDiaAtLeast diamond =>
    condition c (diamond.uint ≤ (c.state.balanceOf taradr).diamond)
      "cell condition dia check failed"
  | .condDiaEq diamond =>
    condition c (diamond.uint = (c.state.balanceOf taradr).diamond)
      "cell condition dia check failed"
  | .condAssetAtMost asset => assetCondition c taradr asset (fun bound held => bound ≥ held)
  | .condAssetAtLeast asset => assetCondition c taradr asset (fun bound held => bound ≤ held)
  | .condAssetEq asset => assetCondition c taradr asset (fun bound held => bound = held)
  | .condHeightAtMost height =>
    condition c (height.uint ≥ env.height) "cell condition check failed"
  | .condHeightAtLeast height =>
    condition c (height.uint ≤ env.height) "cell condition check failed"
  | .condChainIdEq chainid =>
    condition c (env.chainId = chainid.uint) "cell condition chain id check failed"

end TexCell

/-- `verify_signature`. -/
def Crypto.verifiesFor (cr : Crypto) (hash : Hash) (addr : Address) (sign : Sign) : Bool :=
  decide (cr.getAddressByPublicKey sign.publickey = addr) &&
    cr.verifySignature hash sign.publickey sign.signature

/-- The execute body of `TexCellExecute`. -/
def TexCellExecute.execute (cr : Crypto) (env : TexEnv) (c : TexCtx) (act : TexCellExecute) :
    Ret TexCtx := do
  ensure (env.execFrom = .top) (.fault "TexCellExecute can only run in TOP context")
  ensure (act.addr.isPrivkey = true) (.fault "address must be PRIVAKEY type")
  ensure (cr.verifiesFor (act.getSignStuff cr) act.addr act.sign = true)
    (.fault "address signature verification failed in tex cell action")
  act.cells.foldlM (fun c cell => cell.execute env c act.addr) c

/-! ## Settlement (exec/tex.rs) -/

/-- One turn of the loop that adds up the entries of an asset. -/
def addEntry (assets : ℕ → ℤ) (entry : TexEntry) : Ret (ℕ → ℤ) := do
  let next ← checkedSigned 128 (assets entry.assetSerial + entry.delta)
    "asset settlement overflow"
  return Function.update assets entry.assetSerial next

/-- The checks that nothing is left over. -/
def checkResiduals (tex : TexLedger) : Ret Unit := do
  ensure (¬ (tex.zhu ≠ 0 ∨ tex.sat ≠ 0 ∨ tex.dia ≠ 0)) (.fault "coin settlement check failed")
  let assets ← tex.entries.foldlM addEntry (fun _ => 0)
  -- the map holds the serials of the entries
  ensure (∀ entry ∈ tex.entries, assets entry.assetSerial = 0)
    (.fault "asset settlement check failed")

/-- `take_head_diamonds`: the names taken, and the diamonds that are left. -/
def takeHeadDiamonds (diamonds : List Hash) (count : ℕ) :
    Ret (List DiamondName × List Hash) := do
  ensure (count ≠ 0) (.fault "diamond get count cannot be zero")
  ensure (count ≤ diamonds.length) (.fault "diamonds settlement check failed")
  let names := (diamonds.take count).map first6
  -- `DiamondNameListMax200::from` checks once, `check` again
  ensure (names.length ≤ 255) (.fault "Uint1 value exceeds max")
  let _ ← checkDiamondNames names
  let _ ← checkDiamondNames names
  return (names, diamonds.drop count)

/-- The loop over `diatrs`: what goes to whom, and the diamonds that are left. -/
def splitDiamonds : List Hash → List (Address × ℕ) →
    Ret (List (Address × List DiamondName) × List Hash)
  | diamonds, [] => .ok ([], diamonds)
  | diamonds, (addr, count) :: diatrs => do
    let (list, rest) ← takeHeadDiamonds diamonds count
    let (diamondTrs, rest) ← splitDiamonds rest diatrs
    return ((addr, list) :: diamondTrs, rest)

/-- One turn of the loop that hands the diamonds out. -/
def handOut (env : TexEnv) (s : CoreState) (trs : Address × List DiamondName) :
    Ret CoreState :=
  diamondsTransfer env s settlementAddr trs.1 trs.2 .texEscrow

def doSettlement (env : TexEnv) (c : TexCtx) : Ret TexCtx := do
  ensure (env.execFrom = .top) (.fault "do_settlement only allowed in TOP context")
  if env.fastSync then pure () else checkResiduals c.tex
  let (diamondTrs, rest) ← splitDiamonds c.tex.diamonds c.tex.diatrs
  ensure (¬ (env.fastSync = false ∧ rest ≠ [])) (.fault "diamonds settlement check failed")
  let state ← diamondTrs.foldlM (handOut env) c.state
  return ⟨state, { c.tex with diamonds := rest }⟩

/-! ## Conditions on HAC -/

namespace TexCell

/-- The cell executes. -/
def Passes (env : TexEnv) (c : TexCtx) (taradr : Address) (cell : TexCell) : Prop :=
  ∃ c', cell.execute env c taradr = .ok c'

theorem condition_passes_iff {c : TexCtx} {p : Bool} {msg : String} :
    (∃ c', condition c p msg = .ok c') ↔ p = true := by
  constructor
  · rintro ⟨c', h⟩
    exact (ensure_bind_iff.mp h).1
  · intro hp
    exact ⟨c, ensure_bind_iff.mpr ⟨hp, rfl⟩⟩

theorem zhu_value (z : Fold64) : (Amount.zhu z.uint).value = (z.uint * 10 ^ 240 : ℕ) := by
  refine Amount.zhu_value (lt_of_le_of_lt z.le ?_)
  norm_num [fold64Max]

section

variable {env : TexEnv} {c : TexCtx} {taradr : Address} {z : Fold64}

theorem passes_condZhuAtMost_iff : Passes env c taradr (.condZhuAtMost z) ↔
    (c.state.balanceOf taradr).hacash.value ≤ (zhu z.uint).value := by
  refine condition_passes_iff.trans ?_
  rw [cmp_eq, Ordering.isGE_iff_ne_lt, compare_lt_iff_lt, not_lt]

theorem passes_condZhuAtLeast_iff : Passes env c taradr (.condZhuAtLeast z) ↔
    (zhu z.uint).value ≤ (c.state.balanceOf taradr).hacash.value := by
  refine condition_passes_iff.trans ?_
  rw [cmp_eq, Ordering.isLE_iff_ne_gt, compare_gt_iff_gt, not_lt]

theorem passes_condZhuEq_iff : Passes env c taradr (.condZhuEq z) ↔
    .zhu z.uint = (c.state.balanceOf taradr).hacash :=
  condition_passes_iff.trans decide_eq_true_iff

variable (env c taradr z) in
/-- Equality passes exactly if both bounds do. -/
def ZhuAgree : Prop :=
  Passes env c taradr (.condZhuEq z) ↔
    Passes env c taradr (.condZhuAtMost z) ∧ Passes env c taradr (.condZhuAtLeast z)

theorem zhuAgree_iff : ZhuAgree env c taradr z ↔
    ((c.state.balanceOf taradr).hacash.value = (zhu z.uint).value →
      (c.state.balanceOf taradr).hacash.Normal) := by
  rw [ZhuAgree, passes_condZhuEq_iff, passes_condZhuAtMost_iff, passes_condZhuAtLeast_iff]
  constructor
  · intro hagree hval
    rw [← hagree.mpr ⟨hval.le, hval.ge⟩]
    exact coinU128_normal _ _
  · intro hnormal
    constructor
    · intro heq
      rw [heq]
      exact ⟨le_rfl, le_rfl⟩
    · rintro ⟨hle, hge⟩
      have hval := le_antisymm hle hge
      refine Amount.Normal.eq (coinU128_normal _ _) (hnormal hval) ?_ hval.symm
      show 0 ≤ (zhu z.uint).value
      rw [zhu_value]
      positivity

end

end TexCell

/-- Every balance is in normal form. -/
def AllNormal (s : CoreState) : Prop := ∀ a, (s.balanceOf a).hacash.Normal

/-- The amount of an operation. -/
def HacOp.amt : HacOp → Amount
  | .transfer _ _ _ amt => amt
  | .add _ amt => amt
  | .sub _ amt => amt

variable {s s' : CoreState} {addr : Address}

theorem AllNormal.rebalanced {b : Balance}
    (hs : AllNormal s) (hre : Rebalanced s s' addr b) (hb : b.hacash.Normal) : AllNormal s' := by
  intro a
  by_cases ha : a = addr
  · rw [ha, hre.self]
    exact hb
  · rw [hre.of_ne ha]
    exact hs a

theorem AllNormal.hacSub {amt : Amount}
    (hs : AllNormal s) (hamt : amt.Normal) (h : hacSub s addr amt = .ok s') : AllNormal s' := by
  obtain ⟨-, new, hnew, hre⟩ := hacSub_ok h
  exact hs.rebalanced hre (computeUnsigned_normal (hs addr) hamt hnew)

theorem AllNormal.hacAdd {amt : Amount}
    (hs : AllNormal s) (hamt : amt.Normal) (h : hacAdd s addr amt = .ok s') : AllNormal s' := by
  obtain ⟨-, new, hnew, hre⟩ := hacAdd_ok h
  refine hs.rebalanced hre ?_
  rw [engulfed]
  split_ifs
  · exact Or.inl rfl
  · exact computeUnsigned_normal (hs addr) hamt hnew

theorem AllNormal.run {ops : List HacOp} (hs : AllNormal s)
    (hops : ∀ op ∈ ops, op.amt.Normal) (h : runHacOps s ops = .ok s') : AllNormal s' := by
  induction ops generalizing s with
  | nil =>
    cases h
    exact hs
  | cons op ops ih =>
    obtain ⟨s₁, hop, h⟩ := bind_eq_ok h
    have hamt := hops op mem_cons_self
    refine ih ?_ (fun o ho => hops o (mem_cons_of_mem _ ho)) h
    cases op with
    | transfer height src dst amt =>
      rcases hacTransfer_ok hop with ⟨-, rfl⟩ | ⟨-, s₂, hsub, hadd⟩
      · exact hs
      · exact (hs.hacSub hamt hsub).hacAdd hamt hadd
    | add addr amt => exact hs.hacAdd hamt hop
    | sub addr amt => exact hs.hacSub hamt hop

/-- **When the conditions on HAC agree.** `CondZhuEq` passes exactly if both bounds pass, iff the
balance is in normal form or is not that number of zhu; so they agree on states reached from
normal balances by normal amounts. -/
theorem zhu_conditions_agree_iff (env : TexEnv) (c : TexCtx) (taradr : Address) (z : Fold64) :
    (TexCell.ZhuAgree env c taradr z ↔
      ((c.state.balanceOf taradr).hacash.value = (z.uint * 10 ^ 240 : ℕ) →
        (c.state.balanceOf taradr).hacash.Normal)) ∧
    ∀ (s : CoreState) (ops : List HacOp), AllNormal s → (∀ op ∈ ops, op.amt.Normal) →
      runHacOps s ops = .ok c.state → TexCell.ZhuAgree env c taradr z := by
  constructor
  · rw [TexCell.zhuAgree_iff, TexCell.zhu_value]
  · intro s ops hs hops h
    rw [TexCell.zhuAgree_iff]
    intro _
    exact hs.run hops h taradr

theorem zhu_conditions_agree_sample : ∃ s', AllNormal .empty ∧
    (∀ op ∈ sampleHacOps, op.amt.Normal) ∧ runHacOps .empty sampleHacOps = .ok s' ∧
    ∀ (env : TexEnv) (tex : TexLedger) (taradr : Address) (z : Fold64),
      TexCell.ZhuAgree env ⟨s', tex⟩ taradr z := by
  obtain ⟨s', h⟩ : ∃ s', runHacOps .empty sampleHacOps = .ok s' :=
    exists_of_isOk (by decide +kernel)
  have hs : AllNormal .empty := fun _ => Or.inl rfl
  have hops : ∀ op ∈ sampleHacOps, op.amt.Normal := by decide +kernel
  refine ⟨s', hs, hops, h, fun env tex taradr z => ?_⟩
  exact (zhu_conditions_agree_iff env ⟨s', tex⟩ taradr z).2 .empty sampleHacOps hs hops h

/-- One HAC is credited to a user, who sends `amt` to a second that holds nothing. -/
def creditThenSend (amt : Amount) : List HacOp :=
  [.add (userAddr 1) (.coinU128 1 248), .transfer 300000 (userAddr 1) (userAddr 2) amt]

/-- The bytes `239, 1, 10` are the amount `10:239`, one zhu. A balance that holds it as it came is
at most and at least one zhu, and `CondZhuEq` says that it is not one zhu. -/
theorem condZhuEq_misses_unnormalised : ∃ amt s', decode [239, 1, 10] = .ok (amt, 3) ∧
    runHacOps .empty (creditThenSend amt) = .ok s' ∧
    ∀ (env : TexEnv) (tex : TexLedger),
      TexCell.Passes env ⟨s', tex⟩ (userAddr 2) (.condZhuAtMost ⟨1, by decide⟩) ∧
      TexCell.Passes env ⟨s', tex⟩ (userAddr 2) (.condZhuAtLeast ⟨1, by decide⟩) ∧
      ¬ TexCell.Passes env ⟨s', tex⟩ (userAddr 2) (.condZhuEq ⟨1, by decide⟩) := by
  obtain ⟨amt, hdecode, hunit⟩ : ∃ amt, decode [239, 1, 10] = .ok (amt, 3) ∧
      amt = { unit := 239, dist := 1, byte := [10], unit_lt := by decide, dist_byte := rfl,
              byte_le := by decide, head_ne := by decide, zero_unit := nofun } := ⟨_, rfl, rfl⟩
  have heval : (runHacOps .empty (creditThenSend amt)).toOption.map
      (fun s => (s.balanceOf (userAddr 2)).hacash) = some amt := by
    rw [hunit]
    decide +kernel
  obtain ⟨s', hs', hheld⟩ := Option.map_eq_some_iff.mp heval
  have hrun : runHacOps .empty (creditThenSend amt) = .ok s' := by
    cases h : runHacOps .empty (creditThenSend amt) with
    | error e =>
      rw [h] at hs'
      cases hs'
    | ok s =>
      rw [h] at hs'
      cases hs'
      rfl
  refine ⟨amt, s', hdecode, hrun, fun env tex => ?_⟩
  rw [passes_condZhuAtMost_iff, passes_condZhuAtLeast_iff,
    passes_condZhuEq_iff]
  show (s'.balanceOf (userAddr 2)).hacash.value ≤ (zhu 1).value ∧
    (zhu 1).value ≤ (s'.balanceOf (userAddr 2)).hacash.value ∧
    ¬ zhu 1 = (s'.balanceOf (userAddr 2)).hacash
  rw [hheld, hunit]
  decide +kernel

end Hacash
