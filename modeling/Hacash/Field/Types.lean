import Hacash.Field.Amount

/-!
# Ledger field types (`field`)

The field types the ledger stores. A `Balance` carries what its decoder checks: bounds of the
counters, at most twenty assets, no serial twice.
-/

namespace Hacash

open Lib List

/-! ## Addresses (address.rs) -/

/-- A 21-byte address: version byte and 20-byte body. -/
structure Address where
  bytes : List UInt8
  size : bytes.length = 21
  deriving DecidableEq

namespace Address

theorem eq_of_bytes {a b : Address} (h : a.bytes = b.bytes) : a = b := by
  cases a
  cases b
  cases h
  rfl

/-- Addresses are the byte vectors of length 21. -/
def equivVector : List.Vector UInt8 21 ≃ Address where
  toFun v := ⟨v.1, v.2⟩
  invFun a := ⟨a.bytes, a.size⟩
  left_inv _ := rfl
  right_inv _ := rfl

instance : Fintype Address := Fintype.ofEquiv _ equivVector

/-- `Address::from([b; 21])`. -/
def fill (b : UInt8) : Address := ⟨replicate 21 b, length_replicate⟩

/-- The address of a private key with constant bytes. -/
def privkey (b : UInt8) : Address := ⟨0 :: replicate 20 b, by simp⟩

/-- `version`: the first byte. -/
def version (a : Address) : UInt8 := a.bytes.headD 0

def isPrivkey (a : Address) : Bool := a.version == 0

def isContract (a : Address) : Bool := a.version == 1

def isScriptmh (a : Address) : Bool := a.version == 5

/-- `is_supported`: a private key, contract or script address. -/
def isSupported (a : Address) : Bool := a.isPrivkey || a.isContract || a.isScriptmh

/-- `is_privkey_unknown`: a private key address whose big-endian value is below `u32::MAX`. -/
def isPrivkeyUnknown (a : Address) : Bool :=
  a.isPrivkey && (a.bytes.take 17).all (· == 0) &&
    decide (beValue (a.bytes.drop 17) < 2 ^ 32 - 1)

end Address

def blackholeAddr : Address := Address.fill 0

/-! ## Folded integers and assets (fold64.rs, satoshi.rs, asset.rs) -/

/-- `Fold64::MAX`. -/
def fold64Max : ℕ := 32 * 256 ^ 7 - 1

/-- An integer that fits the folded encoding. -/
structure Fold64 where
  uint : ℕ
  le : uint ≤ fold64Max
  deriving DecidableEq

open Fold64

theorem Fold64.eq_of_uint {a b : Fold64} (h : a.uint = b.uint) : a = b := by
  cases a
  cases b
  cases h
  rfl

/-- `Fold64::from`. -/
def Fold64.ofNat (v : ℕ) : Ret Fold64 :=
  if h : v ≤ fold64Max then .ok ⟨v, h⟩ else errf "Fold64 value exceeds max"

theorem Fold64.ofNat_ok {v : ℕ} {f : Fold64} (h : ofNat v = .ok f) : f.uint = v := by
  rw [ofNat] at h
  split_ifs at h
  · cases h
    rfl
  · cases h

def satoshiMax : ℕ := 21000000 * 100000000

/-- `DiamondNumber::MAX`: three bytes. -/
def diamondNumberMax : ℕ := 2 ^ 24 - 1

/-- An amount of the asset with a serial. -/
structure AssetAmt where
  serial : Fold64
  amount : Fold64
  deriving DecidableEq

namespace AssetAmt

def checked (a : AssetAmt) : Ret AssetAmt := do
  ensure (a.serial.uint ≠ 0) (.fault "AssetAmt.serial cannot be zero")
  return a

def fromSerial (serial : Fold64) : Ret AssetAmt := checked ⟨serial, ⟨0, Nat.zero_le _⟩⟩

def checkedAdd (a b : AssetAmt) : Ret AssetAmt := do
  ensure (a.serial = b.serial) (.fault "cannot add asset")
  ensure (a.amount.uint + b.amount.uint ≤ u64Max) (.fault "asset amount add overflow")
  let amount ← ofNat (a.amount.uint + b.amount.uint)
  checked ⟨a.serial, amount⟩

def checkedSub (a b : AssetAmt) : Ret AssetAmt := do
  ensure (a.serial = b.serial) (.fault "cannot sub asset")
  ensure (b.amount.uint ≤ a.amount.uint) (.revert "asset amount is insufficient")
  let amount ← ofNat (a.amount.uint - b.amount.uint)
  checked ⟨a.serial, amount⟩

theorem checked_ok {a b : AssetAmt} (h : a.checked = .ok b) : b = a := by
  obtain ⟨_, _, h⟩ := bind_eq_ok h
  cases h
  rfl

theorem checkedAdd_ok {a b c : AssetAmt} (h : a.checkedAdd b = .ok c) :
    a.serial = b.serial ∧ c.serial = a.serial ∧ c.amount.uint = a.amount.uint + b.amount.uint := by
  obtain ⟨_, hs, h⟩ := bind_eq_ok h
  obtain ⟨_, _, h⟩ := bind_eq_ok h
  obtain ⟨amount, hamount, h⟩ := bind_eq_ok h
  rw [checked_ok h]
  exact ⟨of_ensure hs, rfl, ofNat_ok hamount⟩

theorem checkedSub_ok {a b c : AssetAmt} (h : a.checkedSub b = .ok c) :
    a.serial = b.serial ∧ c.serial = a.serial ∧ c.amount.uint + b.amount.uint = a.amount.uint := by
  obtain ⟨_, hs, h⟩ := bind_eq_ok h
  obtain ⟨_, hle, h⟩ := bind_eq_ok h
  obtain ⟨amount, hamount, h⟩ := bind_eq_ok h
  have hsub := ofNat_ok hamount
  have hle := of_ensure hle
  rw [checked_ok h]
  exact ⟨of_ensure hs, rfl, by rw [hsub]; omega⟩

end AssetAmt

open AssetAmt

/-! ## Balances (balance.rs) -/

def balanceAssetMax : ℕ := 20

/-- What an address holds, as the decoder admits it. -/
structure Balance where
  hacash : Amount
  satoshi : ℕ
  diamond : ℕ
  assets : List AssetAmt
  satoshi_le : satoshi ≤ satoshiMax
  diamond_le : diamond ≤ diamondNumberMax
  assets_le : assets.length ≤ balanceAssetMax
  serials : (assets.map serial).Nodup
  deriving DecidableEq

/-- The loop of `asset_set`: the entry with the serial is replaced, or removed by a zero amount. -/
def assetPut (amt : AssetAmt) : List AssetAmt → Option (List AssetAmt)
  | [] => none
  | a :: rest =>
    if a.serial = amt.serial then some (if amt.amount.uint = 0 then rest else amt :: rest)
    else (assetPut amt rest).map (a :: ·)

/-- The amount stored under a serial. -/
def assetsAmount (serial : Fold64) (assets : List AssetAmt) : ℕ :=
  match assets.find? (fun a => a.serial = serial) with
  | some a => a.amount.uint
  | none => 0

theorem assetsAmount_cons (serial : Fold64) (a : AssetAmt) (rest : List AssetAmt) :
    assetsAmount serial (a :: rest)
      = if a.serial = serial then a.amount.uint else assetsAmount serial rest := by
  rw [assetsAmount, find?_cons]
  by_cases h : a.serial = serial
  · simp [h]
  · simp [h, assetsAmount]

theorem assetsAmount_of_notMem {serial : Fold64} {assets : List AssetAmt}
    (h : serial ∉ assets.map AssetAmt.serial) : assetsAmount serial assets = 0 := by
  induction assets with
  | nil => rfl
  | cons a rest ih =>
    rw [map_cons, mem_cons, not_or] at h
    rw [assetsAmount_cons, if_neg (Ne.symm h.1), ih h.2]

/-- When an entry has the serial: the serials stay a sublist, and only its amount changes. -/
theorem assetPut_some {amt : AssetAmt} : ∀ {assets out : List AssetAmt},
    assetPut amt assets = some out → (assets.map serial).Nodup →
    (out.map serial).Sublist (assets.map serial) ∧
      ∀ serial, assetsAmount serial out
        = if serial = amt.serial then amt.amount.uint else assetsAmount serial assets
  | [], _, h, _ => by cases h
  | a :: rest, out, h, hnd => by
    rw [map_cons, nodup_cons] at hnd
    rw [assetPut] at h
    split_ifs at h with hs hz
    · -- the entry is removed
      cases h
      refine ⟨sublist_cons_self _ _, fun serial => ?_⟩
      rw [assetsAmount_cons, hs]
      by_cases hser : serial = amt.serial
      · rw [if_pos hser, hser, hz, ← hs]
        exact assetsAmount_of_notMem hnd.1
      · rw [if_neg hser, if_neg (Ne.symm hser)]
    · -- the entry is replaced
      cases h
      refine ⟨by rw [map_cons, map_cons, hs], fun serial => ?_⟩
      rw [assetsAmount_cons, assetsAmount_cons, hs]
      by_cases hser : amt.serial = serial
      · rw [if_pos hser, if_pos hser.symm]
      · rw [if_neg hser, if_neg (Ne.symm hser), if_neg hser]
    · obtain ⟨tail, htail, rfl⟩ := Option.map_eq_some_iff.mp h
      obtain ⟨hsub, hamt⟩ := assetPut_some htail hnd.2
      refine ⟨hsub.cons_cons _, fun serial => ?_⟩
      rw [assetsAmount_cons, assetsAmount_cons, hamt]
      by_cases hser : serial = amt.serial
      · rw [hser, if_neg hs, if_pos rfl, if_pos rfl]
      · rw [if_neg hser, if_neg hser]

theorem assetPut_none {amt : AssetAmt} : ∀ {assets : List AssetAmt},
    assetPut amt assets = none → amt.serial ∉ assets.map serial
  | [], _ => not_mem_nil
  | a :: rest, h => by
    rw [assetPut] at h
    split_ifs at h with hs
    rw [map_cons, mem_cons, not_or]
    exact ⟨Ne.symm hs, assetPut_none (Option.map_eq_none_iff.mp h)⟩

namespace Balance

def default : Balance where
  hacash := .zero
  satoshi := 0
  diamond := 0
  assets := []
  satoshi_le := Nat.zero_le _
  diamond_le := Nat.zero_le _
  assets_le := Nat.zero_le _
  serials := nodup_nil

def asset (b : Balance) (serial : Fold64) : Option AssetAmt :=
  b.assets.find? (fun a => a.serial = serial)

/-- `Balance::asset_must`: the stored amount, or zero of the serial. -/
def assetMust (b : Balance) (serial : Fold64) : Ret AssetAmt :=
  match b.asset serial with
  | some a => .ok a
  | none => fromSerial serial

/-- The amount of one asset. -/
def assetAmount (b : Balance) (serial : Fold64) : ℕ := assetsAmount serial b.assets

def assetSet (b : Balance) (amt : AssetAmt) : Ret Balance := do
  ensure (amt.amount.uint = 0 ∨ amt.serial.uint ≠ 0) (.fault "AssetAmt.serial cannot be zero")
  match h : assetPut amt b.assets with
  | some out =>
    have hsub := (assetPut_some h b.serials).1
    return { b with
      assets := out
      assets_le := by
        have := hsub.length_le
        rw [length_map, length_map] at this
        exact this.trans b.assets_le
      serials := hsub.nodup b.serials }
  | none =>
    if amt.amount.uint = 0 then return b
    else if hlen : balanceAssetMax ≤ b.assets.length then
      errf "balance asset item quantity cannot exceed"
    else return { b with
      assets := b.assets ++ [amt]
      assets_le := by
        rw [length_append, length_singleton]
        omega
      serials := by
        rw [map_append, map_singleton]
        refine nodup_append.mpr ⟨b.serials, nodup_singleton _, ?_⟩
        intro x hx y hy hxy
        rw [mem_singleton] at hy
        exact assetPut_none h (hy ▸ hxy ▸ hx) }

theorem assetMust_ok {b : Balance} {serial : Fold64} {a : AssetAmt}
    (h : b.assetMust serial = .ok a) :
    a.serial = serial ∧ a.amount.uint = b.assetAmount serial := by
  rw [assetMust] at h
  rw [assetAmount, assetsAmount]
  rw [asset] at h
  cases hf : b.assets.find? (fun a => a.serial = serial) with
  | some c =>
    rw [hf] at h
    cases h
    exact ⟨by simpa using find?_some hf, rfl⟩
  | none =>
    rw [hf] at h
    rw [checked_ok h]
    exact ⟨rfl, rfl⟩

theorem assetsAmount_append (serial : Fold64) (amt : AssetAmt) (assets : List AssetAmt) :
    amt.serial ∉ assets.map AssetAmt.serial →
    assetsAmount serial (assets ++ [amt])
      = if serial = amt.serial then amt.amount.uint else assetsAmount serial assets := by
  induction assets with
  | nil =>
    intro _
    rw [nil_append, assetsAmount_cons]
    by_cases hs : amt.serial = serial
    · rw [if_pos hs, if_pos hs.symm]
    · rw [if_neg hs, if_neg (Ne.symm hs)]
  | cons a rest ih =>
    intro hnot
    rw [map_cons, mem_cons, not_or] at hnot
    rw [cons_append, assetsAmount_cons, assetsAmount_cons, ih hnot.2]
    by_cases hs : a.serial = serial
    · rw [if_pos hs, if_pos hs, if_neg (fun h => hnot.1 (h.symm.trans hs.symm))]
    · rw [if_neg hs, if_neg hs]

theorem assetSet_ok {b c : Balance} {amt : AssetAmt} (h : b.assetSet amt = .ok c) :
    c.hacash = b.hacash ∧ c.satoshi = b.satoshi ∧ c.diamond = b.diamond ∧
      ∀ serial, c.assetAmount serial
        = if serial = amt.serial then amt.amount.uint else b.assetAmount serial := by
  obtain ⟨_, _, h⟩ := bind_eq_ok h
  split at h
  · next out hput =>
    cases h
    exact ⟨rfl, rfl, rfl, (assetPut_some hput b.serials).2⟩
  · next hput =>
    have hnot := assetPut_none hput
    split_ifs at h with hz hlen
    · cases h
      refine ⟨rfl, rfl, rfl, fun serial => ?_⟩
      split_ifs with hs
      · rw [hs, hz]
        exact assetsAmount_of_notMem hnot
      · rfl
    · cases h
    · cases h
      exact ⟨rfl, rfl, rfl, fun serial => assetsAmount_append serial amt b.assets hnot⟩

end Balance

end Hacash
