import Hacash.Ledger.Tex

/-!
# The TEX settlement conserves what was paid

What all addresses hold plus what was paid and not yet got stays the same. **Key result**:
`tex_settlement_conserves`, if no key has the blackhole as its address.
-/

namespace Hacash

open List Prod Amount

open CoreState Hacash.Lib

/-! ## The potential -/

/-- What cells move besides diamonds. -/
inductive Coin where
  | hac
  | sat
  | asset (serial : Fold64)

namespace Coin

/-- What a balance holds of it; HAC in units of `10 ^ -248`. -/
def held : Coin → Balance → ℤ
  | hac, b => b.hacash.value
  | sat, b => b.satoshi
  | asset serial, b => b.assetAmount serial

/-- What the ledger records of it: paid less got. -/
def recorded : Coin → TexLedger → ℤ
  | hac, tex => tex.zhu * 10 ^ 240
  | sat, tex => tex.sat
  | asset serial, tex => tex.assetDelta serial.uint

/-- What all addresses and the ledger hold together. -/
def sum (coin : Coin) (c : TexCtx) : ℤ := c.state.total coin.held + coin.recorded c.tex

end Coin

/-- What cells did: they kept the potential, and added what they paid and asked for at the ends of
the two queues. -/
structure TexMoved (c c' : TexCtx) (paid : List DiamondName) (asked : List (Address × ℕ)) :
    Prop where
  sum : ∀ coin : Coin, coin.sum c' = coin.sum c
  diamonds : c'.tex.diamonds = c.tex.diamonds ++ paid.map diamondNameAsHash
  diatrs : c'.tex.diatrs = c.tex.diatrs ++ asked

namespace TexMoved

theorem refl (c : TexCtx) : TexMoved c c [] [] where
  sum _ := rfl
  diamonds := by simp
  diatrs := by simp

theorem trans {c c' c'' : TexCtx} {paid paid' : List DiamondName}
    {asked asked' : List (Address × ℕ)} (h : TexMoved c c' paid asked)
    (h' : TexMoved c' c'' paid' asked') : TexMoved c c'' (paid ++ paid') (asked ++ asked') where
  sum coin := (h'.sum coin).trans (h.sum coin)
  diamonds := by rw [h'.diamonds, h.diamonds, map_append, append_assoc]
  diatrs := by rw [h'.diatrs, h.diatrs, append_assoc]

end TexMoved

open TexMoved

/-! ## One cell -/

/-- The diamonds a cell pays. -/
def TexCell.paid : TexCell → List DiamondName
  | .diaPay diamonds => diamonds
  | _ => []

/-- The request a cell makes. -/
def TexCell.asked (addr : Address) : TexCell → List (Address × ℕ)
  | .diaGet dianum => [(addr, dianum.uint)]
  | _ => []

section

variable {c c' : TexCtx} {s : CoreState} {addr : Address} {b : Balance}

/-- A step that replaces one balance keeps the potential if the ledger records the opposite gain. -/
theorem TexMoved.of_rebalanced (hre : Rebalanced c.state c'.state addr b)
    (hdiamonds : c'.tex.diamonds = c.tex.diamonds) (hdiatrs : c'.tex.diatrs = c.tex.diatrs)
    (hgain : ∀ coin : Coin, coin.held b + coin.recorded c'.tex
      = coin.held (c.state.balanceOf addr) + coin.recorded c.tex) : TexMoved c c' [] [] where
  sum coin := by
    have htotal := hre.total coin.held
    have := hgain coin
    rw [Coin.sum, Coin.sum]
    omega
  diamonds := by simpa using hdiamonds
  diatrs := by simpa using hdiatrs

theorem TexMoved.of_hac {new : Amount} {zhures : ℤ}
    (hre : Rebalanced c.state s addr { c.state.balanceOf addr with hacash := new })
    (hgain : new.value + zhures * 10 ^ 240
      = (c.state.balanceOf addr).hacash.value + c.tex.zhu * 10 ^ 240) :
    TexMoved c ⟨s, { c.tex with zhu := zhures }⟩ [] [] := by
  refine of_rebalanced hre rfl rfl ?_
  rintro (_ | _ | serial)
  · exact hgain
  · rfl
  · rfl

variable {n zhu : ℕ} {asset : AssetAmt} {env : TexEnv} {names : List DiamondName}

theorem TexMoved.of_sat {satres : ℤ} (hb : (c.state.balanceOf addr).setSatoshi n = .ok b)
    (hre : Rebalanced c.state s addr b)
    (hgain : (n : ℤ) + satres = (c.state.balanceOf addr).satoshi + c.tex.sat) :
    TexMoved c ⟨s, { c.tex with sat := satres }⟩ [] [] := by
  obtain ⟨hnew, hhac, -, hassets⟩ := setSatoshi_ok hb
  refine of_rebalanced hre rfl rfl ?_
  rintro (_ | _ | serial)
  · show b.hacash.value + _ = (c.state.balanceOf addr).hacash.value + _
    rw [hhac]
    rfl
  · show (b.satoshi : ℤ) + satres = _
    rw [hnew]
    exact hgain
  · show (assetsAmount serial b.assets : ℤ) + _ = assetsAmount serial _ + _
    rw [hassets]
    rfl

theorem assetDelta_append (tex : TexLedger) (entry : TexEntry) (serial : ℕ) :
    ({ tex with entries := tex.entries ++ [entry] } : TexLedger).assetDelta serial
      = tex.assetDelta serial + if entry.assetSerial = serial then entry.delta else 0 := by
  rw [TexLedger.assetDelta, TexLedger.assetDelta, filter_append, map_append,
    sum_append]
  by_cases h : entry.assetSerial = serial
  · simp [h]
  · simp [h]

theorem TexMoved.of_asset {next : AssetAmt} {who : Address} {delta : ℤ}
    (hb : (c.state.balanceOf addr).assetSet next = .ok b) (hre : Rebalanced c.state s addr b)
    (hgain : (next.amount.uint : ℤ) + delta = (c.state.balanceOf addr).assetAmount next.serial) :
    TexMoved c ⟨s, { c.tex with entries := c.tex.entries ++ [⟨who, next.serial.uint, delta⟩] }⟩
      [] [] := by
  obtain ⟨hhac, hsat, -, hamount⟩ := Balance.assetSet_ok hb
  refine of_rebalanced hre rfl rfl ?_
  rintro (_ | _ | serial)
  · show b.hacash.value + _ = (c.state.balanceOf addr).hacash.value + _
    rw [hhac]
    rfl
  · show (b.satoshi : ℤ) + _ = (c.state.balanceOf addr).satoshi + _
    rw [hsat]
    rfl
  · show (b.assetAmount serial : ℤ) + TexLedger.assetDelta _ serial.uint
      = (c.state.balanceOf addr).assetAmount serial + c.tex.assetDelta serial.uint
    rw [assetDelta_append, hamount serial]
    by_cases h : serial = next.serial
    · rw [if_pos h, if_pos (by rw [h]), h]
      show (next.amount.uint : ℤ) + (c.tex.assetDelta next.serial.uint + delta) = _
      omega
    · have hne : next.serial.uint ≠ serial.uint := fun heq => h (Fold64.eq_of_uint heq.symm)
      rw [if_neg h, if_neg hne]
      omega

theorem zhuMax_lt (h : zhu ≤ TexCell.zhuMax) : zhu < 2 ^ 128 :=
  lt_of_le_of_lt h (by norm_num [TexCell.zhuMax])

theorem execZhuPay_moved (h : TexCell.execZhuPay c addr zhu = .ok c') : TexMoved c c' [] [] := by
  obtain ⟨hle, h⟩ := ensure_bind_iff.mp h
  obtain ⟨state, hsub, h⟩ := bind_eq_ok h
  obtain ⟨zhures, hzhu, h⟩ := bind_eq_ok h
  cases h
  obtain ⟨-, new, hnew, hre⟩ := hacSub_ok hsub
  obtain ⟨-, -, hval⟩ := subModeU128_value hnew
  refine of_hac hre ?_
  rw [hval, zhu_value (zhuMax_lt hle), checkedSigned_ok hzhu]
  push_cast
  ring

theorem execZhuGet_moved (haddr : addr ≠ blackholeAddr)
    (h : TexCell.execZhuGet c addr zhu = .ok c') : TexMoved c c' [] [] := by
  obtain ⟨hle, h⟩ := ensure_bind_iff.mp h
  obtain ⟨state, hadd, h⟩ := bind_eq_ok h
  obtain ⟨zhures, hzhu, h⟩ := bind_eq_ok h
  cases h
  obtain ⟨-, new, hnew, hre⟩ := hacAdd_ok hadd
  obtain ⟨-, -, hval⟩ := addModeU128_value hnew
  rw [engulfed, if_neg haddr] at hre
  refine of_hac hre ?_
  rw [hval, zhu_value (zhuMax_lt hle), checkedSigned_ok hzhu]
  push_cast
  ring

theorem execSatPay_moved (h : TexCell.execSatPay c addr n = .ok c') : TexMoved c c' [] [] := by
  obtain ⟨⟨state, left⟩, hsub, h⟩ := bind_eq_ok h
  replace h := ensure_drop h
  obtain ⟨satres, hsat, h⟩ := bind_eq_ok h
  cases h
  obtain ⟨hle, b, hb, hre⟩ := satSub_ok hsub
  refine of_sat hb hre ?_
  rw [checkedSigned_ok hsat, Nat.cast_sub hle]
  ring

theorem execSatGet_moved (haddr : addr ≠ blackholeAddr)
    (h : TexCell.execSatGet c addr n = .ok c') : TexMoved c c' [] [] := by
  obtain ⟨⟨state, left⟩, hadd, h⟩ := bind_eq_ok h
  replace h := ensure_drop h
  obtain ⟨satres, hsat, h⟩ := bind_eq_ok h
  cases h
  obtain ⟨b, hb, hre⟩ := satAdd_ok hadd
  rw [engulfed, if_neg haddr] at hre
  refine of_sat hb hre ?_
  rw [checkedSigned_ok hsat]
  push_cast
  ring

section

variable {serial : Fold64} (h : texCheckAssetSerial c serial = .ok c')
include h

theorem texCheckAssetSerial_ok : ∃ seen, c' = ⟨c.state, { c.tex with assetChecked := seen }⟩ := by
  replace h := ensure_drop h
  split_ifs at h
  · cases h
    exact ⟨_, rfl⟩
  · replace h := ensure_drop h
    cases h
    exact ⟨_, rfl⟩

theorem texCheckAssetSerial_moved : TexMoved c c' [] [] := by
  obtain ⟨seen, rfl⟩ := texCheckAssetSerial_ok h
  refine ⟨?_, by simp, by simp⟩
  rintro (_ | _ | serial) <;> rfl

end

theorem execAssetPay_moved (h : TexCell.execAssetPay c addr asset = .ok c') :
    TexMoved c c' [] [] := by
  obtain ⟨c₁, hcheck, h⟩ := bind_eq_ok h
  obtain ⟨⟨state, next⟩, hsub, h⟩ := bind_eq_ok h
  obtain ⟨tex, htex, h⟩ := bind_eq_ok h
  replace htex := ensure_drop htex
  cases h
  cases htex
  obtain ⟨b, hb, hserial, hamount, hre⟩ := assetSub_ok hsub
  refine (texCheckAssetSerial_moved hcheck).trans ?_
  rw [← hserial]
  refine of_asset hb hre ?_
  rw [hserial]
  exact_mod_cast hamount

theorem execAssetGet_moved (haddr : addr ≠ blackholeAddr)
    (h : TexCell.execAssetGet c addr asset = .ok c') : TexMoved c c' [] [] := by
  obtain ⟨c₁, hcheck, h⟩ := bind_eq_ok h
  obtain ⟨⟨state, next⟩, hadd, h⟩ := bind_eq_ok h
  obtain ⟨tex, htex, h⟩ := bind_eq_ok h
  replace htex := ensure_drop htex
  cases h
  cases htex
  obtain ⟨b, hb, hserial, hamount, hre⟩ := assetAdd_ok hadd
  rw [engulfed, if_neg haddr] at hre
  refine (texCheckAssetSerial_moved hcheck).trans ?_
  rw [← hserial]
  refine of_asset hb hre ?_
  rw [hserial, hamount]
  push_cast
  ring

theorem diamondsTransfer_ok {s s' : CoreState} {src dst : Address} {mode : DiamondMove}
    (h : diamondsTransfer env s src dst names mode = .ok s') (hdst : dst ≠ blackholeAddr) :
    HacdTransferred s s' src dst names env.diamondForm := by
  obtain ⟨_, -, h⟩ := bind_eq_ok h
  exact hacdTransfer_ok h hdst

/-- Diamonds move and nothing else does. -/
theorem HacdTransferred.total_held {s s' : CoreState} {src dst : Address} {form : Bool}
    (h : HacdTransferred s s' src dst names form)
    (coin : Coin) : s'.total coin.held = s.total coin.held := by
  refine Finset.sum_congr rfl fun a _ => ?_
  cases coin with
  | hac => exact congrArg value (h.hacash a)
  | sat => exact congrArg Nat.cast (h.satoshi a)
  | asset serial => exact congrArg (fun l => (assetsAmount serial l : ℤ)) (h.assets a)

theorem execDiaPay_moved
    (h : TexCell.execDiaPay env c addr names = .ok c') : TexMoved c c' names [] := by
  obtain ⟨state, hmove, h⟩ := bind_eq_ok h
  obtain ⟨tex, htex, h⟩ := bind_eq_ok h
  obtain ⟨newdia, -, htex⟩ := bind_eq_ok htex
  replace htex := ensure_drop htex
  cases h
  cases htex
  refine ⟨fun coin => ?_, rfl, by simp⟩
  have htotal := (diamondsTransfer_ok hmove settlementAddr_ne_blackhole).total_held coin
  rw [Coin.sum, htotal]
  cases coin <;> rfl

theorem execDiaGet_moved {dianum : ℕ} (h : TexCell.execDiaGet env c addr dianum = .ok c') :
    TexMoved c c' [] [(addr, dianum)] := by
  replace h := ensure_drop h
  obtain ⟨tex, htex, h⟩ := bind_eq_ok h
  replace htex := ensure_drop htex
  replace htex := ensure_drop htex
  obtain ⟨diares, -, htex⟩ := bind_eq_ok htex
  cases h
  cases htex
  refine ⟨?_, by simp, rfl⟩
  rintro (_ | _ | serial) <;> rfl

theorem condition_moved {p : Bool} {msg : String} (h : TexCell.condition c p msg = .ok c') :
    TexMoved c c' [] [] := by
  replace h := ensure_drop h
  cases h
  exact .refl c

theorem assetCondition_moved {cmp : ℕ → ℕ → Bool}
    (h : TexCell.assetCondition c addr asset cmp = .ok c') : TexMoved c c' [] [] := by
  obtain ⟨c₁, hcheck, h⟩ := bind_eq_ok h
  obtain ⟨ast, -, h⟩ := bind_eq_ok h
  exact (texCheckAssetSerial_moved hcheck).trans (condition_moved h)

/-- **One cell.** -/
theorem TexCell.execute_moved {cell : TexCell} (haddr : addr ≠ blackholeAddr)
    (h : cell.execute env c addr = .ok c') : TexMoved c c' cell.paid (cell.asked addr) := by
  cases cell with
  | zhuPay haczhu => exact execZhuPay_moved h
  | zhuGet haczhu => exact execZhuGet_moved haddr h
  | satPay satnum => exact execSatPay_moved h
  | satGet satnum => exact execSatGet_moved haddr h
  | diaPay diamonds => exact execDiaPay_moved h
  | diaGet dianum => exact execDiaGet_moved h
  | assetPay asset => exact execAssetPay_moved h
  | assetGet asset => exact execAssetGet_moved haddr h
  | condAssetAtMost asset | condAssetAtLeast asset | condAssetEq asset =>
    rw [execute] at h
    exact assetCondition_moved h
  | _ => exact condition_moved h

end

/-! ## Bundles and transactions -/

/-- The diamonds that a bundle pays. -/
def TexCellExecute.paid (act : TexCellExecute) : List DiamondName := act.cells.flatMap TexCell.paid

/-- The requests that it makes. -/
def TexCellExecute.asked (act : TexCellExecute) : List (Address × ℕ) :=
  act.cells.flatMap (TexCell.asked act.addr)

theorem cells_moved {env : TexEnv} {addr : Address} (haddr : addr ≠ blackholeAddr)
    {cells : List TexCell} {c c' : TexCtx}
    (h : cells.foldlM (fun c cell => cell.execute env c addr) c = .ok c') :
    TexMoved c c' (cells.flatMap TexCell.paid) (cells.flatMap (TexCell.asked addr)) := by
  induction cells generalizing c with
  | nil =>
    cases h
    exact .refl _
  | cons cell cells ih =>
    rw [foldlM_cons] at h
    obtain ⟨c₁, hcell, h⟩ := bind_eq_ok h
    rw [flatMap_cons, flatMap_cons]
    exact (TexCell.execute_moved haddr hcell).trans (ih h)

/-- No public key has the blackhole as its address. -/
def Crypto.NoBlackholeKey (cr : Crypto) : Prop := ∀ pk, cr.getAddressByPublicKey pk ≠ blackholeAddr

theorem TexCellExecute.execute_moved {cr : Crypto} (hkey : cr.NoBlackholeKey) {env : TexEnv}
    {c c' : TexCtx} {act : TexCellExecute} (h : act.execute cr env c = .ok c') :
    act.addr ≠ blackholeAddr ∧ TexMoved c c' act.paid act.asked := by
  replace h := ensure_drop h
  replace h := ensure_drop h
  obtain ⟨hsign, h⟩ := ensure_bind_iff.mp h
  have haddr : act.addr ≠ blackholeAddr := by
    rw [Crypto.verifiesFor, Bool.and_eq_true, decide_eq_true_iff] at hsign
    rw [← hsign.1]
    exact hkey _
  exact ⟨haddr, cells_moved haddr h⟩

/-- A bundle, or any other action, which may change the state as it likes but not the ledger. -/
inductive TopAction where
  | tex (act : TexCellExecute)
  | other (exec : CoreState → Ret CoreState)

namespace TopAction

/-- One action. -/
def run (cr : Crypto) (env : TexEnv) (c : TexCtx) : TopAction → Ret TexCtx
  | tex act => act.execute cr env c
  | other exec => do
    let state ← exec c.state
    return { c with state := state }

/-- The diamonds that an action pays into TEX. -/
def paid : TopAction → List DiamondName
  | tex act => act.paid
  | other _ => []

/-- The requests that it makes. -/
def asked : TopAction → List (Address × ℕ)
  | tex act => act.asked
  | other _ => []

/-- What an action adds to the sum over all addresses of a coin, if it is a bundle. -/
def gain (coin : Coin) (c c' : TexCtx) : TopAction → ℤ
  | tex _ => c'.state.total coin.held - c.state.total coin.held
  | other _ => 0

/-- What the bundles of a run add. -/
def texGain (cr : Crypto) (env : TexEnv) (coin : Coin) : List TopAction → TexCtx → ℤ
  | [], _ => 0
  | act :: acts, c =>
    match act.run cr env c with
    | .ok c' => act.gain coin c c' + texGain cr env coin acts c'
    | .error _ => 0

theorem texGain_cons {cr : Crypto} {env : TexEnv} {coin : Coin} {act : TopAction}
    {acts : List TopAction} {c c' : TexCtx} (h : act.run cr env c = .ok c') :
    texGain cr env coin (act :: acts) c = act.gain coin c c' + texGain cr env coin acts c' := by
  rw [texGain, h]

end TopAction

open TopAction

/-- What the actions did: what the bundles added to the addresses is missing from the ledger. -/
structure TexRun (cr : Crypto) (env : TexEnv) (acts : List TopAction) (c c' : TexCtx) :
    Prop where
  gain : ∀ coin : Coin,
    texGain cr env coin acts c + coin.recorded c'.tex = coin.recorded c.tex
  diamonds : c'.tex.diamonds
    = c.tex.diamonds ++ (acts.flatMap paid).map diamondNameAsHash
  diatrs : c'.tex.diatrs = c.tex.diatrs ++ acts.flatMap asked
  asker : ∀ p ∈ acts.flatMap asked, p.1 ≠ blackholeAddr

theorem TexCellExecute.mem_asked {act : TexCellExecute} {p : Address × ℕ} (h : p ∈ act.asked) :
    p.1 = act.addr := by
  obtain ⟨cell, -, hp⟩ := mem_flatMap.mp h
  cases cell with
  | diaGet dianum =>
    rw [mem_singleton.mp hp]
  | _ => cases hp

/-- **A run of the actions**, by induction on them. -/
theorem texRun_of_ok {cr : Crypto} (hkey : cr.NoBlackholeKey) {env : TexEnv}
    {acts : List TopAction} {c c' : TexCtx}
    (h : acts.foldlM (run cr env) c = .ok c') : TexRun cr env acts c c' := by
  induction acts generalizing c with
  | nil =>
    cases h
    exact ⟨fun coin => zero_add _, by simp, by simp, by simp⟩
  | cons act acts ih =>
    rw [foldlM_cons] at h
    obtain ⟨c₁, hact, h⟩ := bind_eq_ok h
    have hrest := ih h
    cases act with
    | tex act =>
      obtain ⟨haddr, hmoved⟩ := TexCellExecute.execute_moved hkey hact
      refine ⟨fun coin => ?_, ?_, ?_, ?_⟩
      · have hsum := hmoved.sum coin
        have := hrest.gain coin
        rw [Coin.sum, Coin.sum] at hsum
        rw [texGain_cons hact, gain]
        omega
      · rw [hrest.diamonds, hmoved.diamonds, flatMap_cons, map_append,
          append_assoc]
        rfl
      · rw [hrest.diatrs, hmoved.diatrs, flatMap_cons, append_assoc]
        rfl
      · intro p hp
        rw [flatMap_cons, mem_append] at hp
        rcases hp with hp | hp
        · rw [TexCellExecute.mem_asked hp]
          exact haddr
        · exact hrest.asker p hp
    | other exec =>
      obtain ⟨state, hexec, hact'⟩ := bind_eq_ok (id hact)
      cases hact'
      refine ⟨fun coin => ?_, hrest.diamonds, hrest.diatrs, hrest.asker⟩
      rw [texGain_cons hact, gain, zero_add]
      exact hrest.gain coin

/-! ## The checks of the settlement -/

theorem addEntries_ok {entries : List TexEntry} {assets assets' : ℕ → ℤ}
    (h : entries.foldlM addEntry assets = .ok assets') (serial : ℕ) :
    assets' serial = assets serial
      + ((entries.filter (·.assetSerial = serial)).map TexEntry.delta).sum := by
  induction entries generalizing assets with
  | nil =>
    cases h
    simp
  | cons entry entries ih =>
    rw [foldlM_cons] at h
    obtain ⟨assets₁, hadd, h⟩ := bind_eq_ok h
    obtain ⟨next, hnext, hadd⟩ := bind_eq_ok hadd
    cases hadd
    rw [ih h, checkedSigned_ok hnext]
    by_cases hs : entry.assetSerial = serial
    · subst hs
      simp [add_assoc]
    · have hne : serial ≠ entry.assetSerial := fun heq => hs heq.symm
      simp [hs, hne]

theorem checkResiduals_ok {tex : TexLedger} {u : Unit} (h : checkResiduals tex = .ok u)
    (coin : Coin) : coin.recorded tex = 0 := by
  obtain ⟨hcoins, h⟩ := ensure_bind_iff.mp h
  obtain ⟨assets, hassets, h⟩ := bind_eq_ok h
  have hzero := of_ensure h
  simp only [not_or, not_not] at hcoins
  cases coin with
  | hac => rw [Coin.recorded, hcoins.1, zero_mul]
  | sat => exact hcoins.2.1
  | asset serial =>
    have hsum := addEntries_ok hassets serial.uint
    rw [zero_add] at hsum
    rw [Coin.recorded, TexLedger.assetDelta, ← hsum]
    by_cases hmem : ∃ entry ∈ tex.entries, entry.assetSerial = serial.uint
    · obtain ⟨entry, hentry, hserial⟩ := hmem
      rw [← hserial]
      exact hzero entry hentry
    · have hnone : tex.entries.filter (·.assetSerial = serial.uint) = [] := by
        rw [filter_eq_nil_iff]
        intro entry hentry hserial
        exact hmem ⟨entry, hentry, by simpa using hserial⟩
      rw [hsum, hnone]
      rfl

theorem takeHeadDiamonds_ok {diamonds rest : List Hash} {count : ℕ} {names : List DiamondName}
    (h : takeHeadDiamonds diamonds count = .ok (names, rest)) :
    names.length = count ∧ diamonds.map first6 = names ++ rest.map first6 := by
  replace h := ensure_drop h
  obtain ⟨hle, h⟩ := ensure_bind_iff.mp h
  replace h := ensure_drop h
  obtain ⟨_, -, h⟩ := bind_eq_ok h
  obtain ⟨_, -, h⟩ := bind_eq_ok h
  cases h
  constructor
  · rw [length_map, length_take_of_le hle]
  · rw [← map_append, take_append_drop]

theorem splitDiamonds_ok {diatrs : List (Address × ℕ)} {diamonds rest : List Hash}
    {trs : List (Address × List DiamondName)}
    (h : splitDiamonds diamonds diatrs = .ok (trs, rest)) :
    trs.map (fun t => (t.1, t.2.length)) = diatrs ∧
      diamonds.map first6 = trs.flatMap snd ++ rest.map first6 := by
  induction diatrs generalizing diamonds trs rest with
  | nil =>
    cases h
    exact ⟨rfl, rfl⟩
  | cons d diatrs ih =>
    obtain ⟨⟨names, left⟩, htake, h⟩ := bind_eq_ok h
    obtain ⟨⟨trs', rest'⟩, hsplit, h⟩ := bind_eq_ok h
    cases h
    obtain ⟨hlen, hnames⟩ := takeHeadDiamonds_ok htake
    obtain ⟨hcounts, hblocks⟩ := ih hsplit
    constructor
    · rw [map_cons, hcounts, hlen]
    · rw [hnames, hblocks, flatMap_cons, append_assoc]

/-! ## Handing the diamonds out -/

/-- Every name was at `SETTLEMENT_ADDR` before and is at its getter after, so none came twice; no
other record and no coin changed. -/
structure HandedOut (s s' : CoreState) (trs : List (Address × List DiamondName)) : Prop where
  nodup : (trs.flatMap snd).Nodup
  escrowed : ∀ name ∈ trs.flatMap snd, ∃ d, s.diamond name = some d ∧
    d.address = settlementAddr
  owner : ∀ t ∈ trs, t.1 ≠ settlementAddr ∧
    ∀ name ∈ t.2, ∃ d, s'.diamond name = some d ∧ d.address = t.1
  kept : ∀ name ∉ trs.flatMap snd, s'.diamond name = s.diamond name
  total : ∀ coin : Coin, s'.total coin.held = s.total coin.held

theorem handOut_ok {env : TexEnv} {trs : List (Address × List DiamondName)} {s s' : CoreState}
    (htrs : ∀ t ∈ trs, t.1 ≠ blackholeAddr) (h : trs.foldlM (handOut env) s = .ok s') :
    HandedOut s s' trs := by
  induction trs generalizing s with
  | nil =>
    cases h
    exact ⟨nodup_nil, nofun, nofun, fun _ _ => rfl, fun _ => rfl⟩
  | cons t trs ih =>
    rw [foldlM_cons] at h
    obtain ⟨s₁, hmove, h⟩ := bind_eq_ok h
    have hfirst := diamondsTransfer_ok hmove (htrs t mem_cons_self)
    have hrest := ih (fun t' ht' => htrs t' (mem_cons_of_mem _ ht')) h
    -- a name of the first block is at its getter, so it is in no later block
    have hnotLater : ∀ name ∈ t.2, name ∉ trs.flatMap snd := by
      intro name hname hlater
      obtain ⟨d, -, -, hd⟩ := hfirst.moved.moved name hname
      obtain ⟨d', hd', hescrow⟩ := hrest.escrowed name hlater
      rw [hd] at hd'
      cases hd'
      exact hfirst.ne hescrow.symm
    refine ⟨?_, ?_, ?_, ?_, ?_⟩
    · rw [flatMap_cons]
      refine nodup_append.mpr ⟨hfirst.nodup, hrest.nodup, ?_⟩
      rintro name hname name' hname' rfl
      exact hnotLater name hname hname'
    · intro name hname
      rw [flatMap_cons, mem_append] at hname
      by_cases hfirst' : name ∈ t.2
      · obtain ⟨d, hd, haddr, -⟩ := hfirst.moved.moved name hfirst'
        exact ⟨d, hd, haddr⟩
      · rw [← hfirst.moved.kept name hfirst']
        exact hrest.escrowed name (hname.resolve_left hfirst')
    · intro t' ht'
      rcases mem_cons.mp ht' with rfl | ht'
      · refine ⟨hfirst.ne.symm, fun name hname => ?_⟩
        obtain ⟨d, -, -, hd⟩ := hfirst.moved.moved name hname
        exact ⟨_, (hrest.kept name (hnotLater name hname)).trans hd, rfl⟩
      · exact hrest.owner t' ht'
    · intro name hname
      rw [flatMap_cons, mem_append, not_or] at hname
      rw [hrest.kept name hname.2, hfirst.moved.kept name hname.1]
    · intro coin
      rw [hrest.total coin, hfirst.total_held coin]

/-- What a settlement outside fast sync did. -/
theorem doSettlement_ok {env : TexEnv} {c c' : TexCtx} (hsync : env.fastSync = false)
    (hasker : ∀ p ∈ c.tex.diatrs, p.1 ≠ blackholeAddr) (h : doSettlement env c = .ok c') :
    (∀ coin : Coin, coin.recorded c.tex = 0) ∧ c'.tex.diamonds = [] ∧
      ∃ trs : List (Address × List DiamondName),
        trs.map (fun t => (t.1, t.2.length)) = c.tex.diatrs ∧
        c.tex.diamonds.map first6 = trs.flatMap snd ∧ HandedOut c.state c'.state trs := by
  replace h := ensure_drop h
  rw [if_neg (by rw [hsync]; exact Bool.false_ne_true)] at h
  obtain ⟨u, hresiduals, h⟩ := bind_eq_ok h
  obtain ⟨⟨trs, rest⟩, hsplit, h⟩ := bind_eq_ok h
  obtain ⟨hrest, h⟩ := ensure_bind_iff.mp h
  obtain ⟨state, hout, h⟩ := bind_eq_ok h
  cases h
  have hnil : rest = [] := by
    by_contra hne
    exact hrest ⟨hsync, hne⟩
  obtain ⟨hcounts, hblocks⟩ := splitDiamonds_ok hsplit
  rw [hnil, map_nil, append_nil] at hblocks
  refine ⟨checkResiduals_ok hresiduals, hnil, trs, hcounts, hblocks, handOut_ok ?_ hout⟩
  intro t ht
  refine hasker (t.1, t.2.length) ?_
  rw [← hcounts]
  exact mem_map_of_mem ht

/-! ## The result -/

/-- **TEX settlement conserves what was paid.** Let a transaction run bundles of any signers among
any other actions, outside fast sync, from an empty ledger, and settle. Bundles and settlement
add nothing to what all addresses hold of a coin; the diamonds paid, in order, are the blocks
asked for, in order; each ends with its asker and none at `SETTLEMENT_ADDR`. -/
theorem tex_settlement_conserves (cr : Crypto) (hkey : cr.NoBlackholeKey) (env : TexEnv)
    (hsync : env.fastSync = false) (acts : List TopAction) (s₀ : CoreState) (c c' : TexCtx)
    (hrun : acts.foldlM (run cr env) ⟨s₀, {}⟩ = .ok c)
    (hsettle : doSettlement env c = .ok c') :
    (∀ coin : Coin, texGain cr env coin acts ⟨s₀, {}⟩
      + (c'.state.total coin.held - c.state.total coin.held) = 0) ∧
    ∃ handed : List (Address × List DiamondName),
      handed.flatMap snd = acts.flatMap paid ∧
      handed.map (fun t => (t.1, t.2.length)) = acts.flatMap asked ∧
      (acts.flatMap paid).Nodup ∧
      (∀ t ∈ handed, ∀ name ∈ t.2, ∃ d, c'.state.diamond name = some d ∧ d.address = t.1) ∧
      ∀ name ∈ acts.flatMap paid, ∀ d, c'.state.diamond name = some d →
        d.address ≠ settlementAddr := by
  have htex := texRun_of_ok hkey hrun
  have hdiatrs : c.tex.diatrs = acts.flatMap asked := by
    rw [htex.diatrs, nil_append]
  have hdiamonds : c.tex.diamonds.map first6 = acts.flatMap paid := by
    rw [htex.diamonds, nil_append, List.map_map]
    exact (map_congr_left fun name _ => first6_diamondNameAsHash name).trans (map_id _)
  obtain ⟨hzero, -, trs, hcounts, hblocks, hout⟩ :=
    doSettlement_ok hsync (by rw [hdiatrs]; exact htex.asker) hsettle
  rw [hdiamonds] at hblocks
  refine ⟨fun coin => ?_, trs, hblocks.symm, hcounts.trans hdiatrs, ?_, ?_, ?_⟩
  · have hgain := htex.gain coin
    rw [hzero coin, add_zero] at hgain
    rw [hout.total coin, sub_self, add_zero, hgain]
    cases coin with
    | hac | sat | asset serial => rfl
  · rw [hblocks]
    exact hout.nodup
  · exact fun t ht => (hout.owner t ht).2
  · intro name hname d hd
    rw [hblocks] at hname
    obtain ⟨t, ht, hmem⟩ := mem_flatMap.mp hname
    obtain ⟨hne, howner⟩ := hout.owner t ht
    obtain ⟨d', hd', haddr⟩ := howner name hmem
    rw [hd] at hd'
    cases hd'
    rw [haddr]
    exact hne

/-! ### Two signers trade a diamond for HAC -/

/-- Keys whose addresses start with a one, and a check that every signature passes. -/
def laxCrypto : Crypto where
  calculateHash _ := .fill 0
  getAddressByPublicKey pk := ⟨0 :: 1 :: pk.bytes.take 19, by simp [pk.size]⟩
  verifySignature _ _ _ := true

theorem laxCrypto_noBlackholeKey : laxCrypto.NoBlackholeKey := by
  intro pk h
  have hbytes := congrArg Address.bytes h
  cases hbytes

/-- A signature by the key that repeats a byte. -/
def traderSign (b : UInt8) : Sign :=
  ⟨.fill b, .fill 0⟩

/-- The address of that key. -/
def traderAddr (b : UInt8) : Address := laxCrypto.getAddressByPublicKey (traderSign b).publickey

def tradedName : DiamondName := ⟨List.replicate 6 87, rfl⟩

/-- The first trader owns a diamond, the second five HAC. -/
def tradeState : CoreState :=
  ((CoreState.empty.balanceSet (traderAddr 1) { Balance.default with
      diamond := 1, diamond_le := by decide }).balanceSet (traderAddr 2)
    { Balance.default with hacash := .coinU128 5 248 }).diamondSet tradedName
      ⟨diamondStatusNormal, traderAddr 1⟩

def tradeEnv : TexEnv where
  execFrom := .top
  fastSync := false
  consensusFlags := 0
  height := 700000
  chainId := 0
  diamondFormFlag := 1
  texDiamondPayMax := 60000
  texDiamondGetMaxPerTx := 200

/-- One trader offers the diamond for a hundred zhu; another action credits them; a second takes
it. -/
def tradeActs : List TopAction :=
  [.tex ⟨traderAddr 1, [.diaPay [tradedName], .zhuGet ⟨100, by decide⟩], traderSign 1⟩,
    .other fun s => hacAdd s (traderAddr 1) (.coinU128 3 248),
    .tex ⟨traderAddr 2, [.zhuPay ⟨100, by decide⟩, .diaGet 1], traderSign 2⟩]

theorem tex_settlement_conserves_trade : ∃ c c',
    laxCrypto.NoBlackholeKey ∧ tradeEnv.fastSync = false ∧
    tradeActs.foldlM (run laxCrypto tradeEnv) ⟨tradeState, {}⟩ = .ok c ∧
    doSettlement tradeEnv c = .ok c' ∧
    ∀ coin : Coin, texGain laxCrypto tradeEnv coin tradeActs ⟨tradeState, {}⟩
      + (c'.state.total coin.held - c.state.total coin.held) = 0 := by
  have heval : ((do
      let c ← tradeActs.foldlM (run laxCrypto tradeEnv) ⟨tradeState, {}⟩
      doSettlement tradeEnv c : Ret TexCtx).isOk) = true := by
    decide +kernel
  obtain ⟨c', h⟩ := exists_of_isOk heval
  obtain ⟨c, hrun, hsettle⟩ := bind_eq_ok h
  exact ⟨c, c', laxCrypto_noBlackholeKey, rfl, hrun, hsettle,
    (tex_settlement_conserves laxCrypto laxCrypto_noBlackholeKey tradeEnv rfl tradeActs
      tradeState c c' hrun hsettle).1⟩

end Hacash
