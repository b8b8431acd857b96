import Hacash.Field.Canonical
import Hacash.Ledger.Operate

/-!
# The asset list of a balance (`field::types::balance`, `base::ledger::operate`)

The check of the asset list and the decoder that runs it. **Key result**:
`balance_assets_integrity`; zero amounts and the black hole are `asset_list_exceptions`.
-/

namespace Hacash

open Lib List Decoder Balance CoreState Function

/-! ## The codec of a balance (balance.rs:22–74) -/

/-- One turn of the loop of `check_assets`. -/
def checkAsset (seen : List ℕ) (asset : AssetAmt) : Ret (List ℕ) := do
  let _ ← asset.checked
  ensure (asset.serial.uint ∉ seen) (.fault "balance asset serial duplicated")
  return seen ++ [asset.serial.uint]

def Balance.checkAssets (assets : List AssetAmt) : Ret Unit := do
  ensure (assets.length ≤ balanceAssetMax) (.fault "balance asset item quantity cannot exceed")
  let _ ← assets.foldlM checkAsset []
  return ()

theorem checkAsset_eq_ok (seen : List ℕ) (asset : AssetAmt) (out : List ℕ) :
    checkAsset seen asset = .ok out ↔
      asset.serial.uint ∉ seen ∧ asset.serial.uint ≠ 0 ∧ out = seen ++ [asset.serial.uint] := by
  constructor
  · intro h
    obtain ⟨_, hchecked, h⟩ := bind_eq_ok h
    obtain ⟨_, hserial, -⟩ := bind_eq_ok hchecked
    obtain ⟨_, hnew, h⟩ := bind_eq_ok h
    cases h
    exact ⟨of_ensure hnew, of_ensure hserial, rfl⟩
  · rintro ⟨hnew, hserial, rfl⟩
    rw [checkAsset, AssetAmt.checked, ensure_of _ hserial, ensure_of _ hnew]
    rfl

/-- The check passes exactly lists of at most twenty entries with distinct serials, none zero. -/
theorem Balance.checkAssets_iff (assets : List AssetAmt) :
    checkAssets assets = .ok () ↔ assets.length ≤ balanceAssetMax ∧
      (assets.map AssetAmt.serial).Nodup ∧ ∀ a ∈ assets, a.serial.uint ≠ 0 := by
  have hserials : (assets.map fun a => a.serial.uint).Nodup ↔
      (assets.map AssetAmt.serial).Nodup := by
    show (assets.map (Fold64.uint ∘ AssetAmt.serial)).Nodup ↔ _
    rw [← map_map]
    exact nodup_map_iff fun _ _ => Fold64.eq_of_uint
  constructor
  · intro h
    obtain ⟨_, hlen, h⟩ := bind_eq_ok h
    obtain ⟨seen, hscan, -⟩ := bind_eq_ok h
    obtain ⟨hnodup, -, hgood, -⟩ := (foldlM_scan checkAsset_eq_ok).mp hscan
    exact ⟨of_ensure hlen, hserials.mp hnodup, hgood⟩
  · rintro ⟨hlen, hnodup, hgood⟩
    have hscan := (foldlM_scan checkAsset_eq_ok).mpr
      ⟨hserials.mpr hnodup, fun _ _ => not_mem_nil, hgood, rfl⟩
    rw [checkAssets, ensure_of _ hlen, ok_bind, hscan]
    rfl

def AssetAmt.decode : Decode AssetAmt := do
  let serial ← Fold64.decode
  let amount ← Fold64.decode
  fun _ => do
    let asset ← checked ⟨serial, amount⟩
    return (asset, 0)

theorem AssetAmt.codes : Codes AssetAmt.decode AssetAmt.encode fun a => a.serial.uint ≠ 0 where
  reads := by
    refine reads_bind Fold64.codes.reads fun serial u hu =>
      reads_bind Fold64.codes.reads fun amount v hv => ?_
    intro buf a n h
    obtain ⟨asset, hchecked, h⟩ := bind_eq_ok h
    cases h
    obtain ⟨_, hserial, -⟩ := bind_eq_ok hchecked
    rw [checked_ok hchecked]
    refine ⟨Nat.zero_le _, ?_, of_ensure hserial⟩
    rw [hu.1, hv.1, take_zero, append_nil]
    rfl
  accepts a ha := by
    refine accepts_bind (Fold64.codes.accepts a.serial trivial)
      (accepts_last (Fold64.codes.accepts a.amount trivial) ?_)
    funext rest
    rw [checked, ensure_of _ ha]
    rfl

/-- A folded integer with a bound: `SatoshiAuto` and `DiamondNumberAuto`. -/
def decodeBounded (max : ℕ) (message : String) : Decode {n : ℕ // n ≤ max} := do
  let value ← Fold64.decode
  fun _ => if h : value.uint ≤ max then .ok (⟨value.uint, h⟩, 0) else errf message

/-- The folded form of a bounded integer. -/
def encodeBounded {max : ℕ} (hmax : max ≤ fold64Max) (n : {n : ℕ // n ≤ max}) : List UInt8 :=
  Fold64.encode ⟨n.1, n.2.trans hmax⟩

theorem decodeBounded_codes {max : ℕ} (hmax : max ≤ fold64Max) (message : String) :
    Codes (decodeBounded max message) (encodeBounded hmax) fun _ => True where
  reads := by
    refine reads_bind Fold64.codes.reads fun value u hu => ?_
    intro buf n k h
    split_ifs at h with hle
    · cases h
      exact ⟨Nat.zero_le _, by rw [hu.1, take_zero, append_nil]; rfl, trivial⟩
    · cases h
  accepts n _ := by
    refine accepts_last (Fold64.codes.accepts ⟨n.1, n.2.trans hmax⟩ trivial) ?_
    funext rest
    rw [dif_pos n.2]
    rfl

namespace Balance

theorem satoshiMax_le : satoshiMax ≤ fold64Max := by decide

theorem diamondNumberMax_le : diamondNumberMax ≤ fold64Max := by decide

/-- `encode_to`. -/
def encode (b : Balance) : List UInt8 :=
  b.hacash.encode ++ (encodeBounded satoshiMax_le ⟨b.satoshi, b.satoshi_le⟩ ++
    (encodeBounded diamondNumberMax_le ⟨b.diamond, b.diamond_le⟩ ++
      encodeListW 1 AssetAmt.encode b.assets))

def decode : Decode Balance := do
  let hacash ← Amount.decode
  let satoshi ← decodeBounded satoshiMax "satoshi value exceeds max"
  let diamond ← decodeBounded diamondNumberMax "diamond number exceeds max"
  let assets ← decodeListW 1 AssetAmt.decode
  fun _ =>
    match h : checkAssets assets with
    | .error e => .error e
    | .ok () => .ok ({
        hacash := hacash
        satoshi := satoshi.1
        diamond := diamond.1
        assets := assets
        satoshi_le := satoshi.2
        diamond_le := diamond.2
        assets_le := ((checkAssets_iff assets).mp h).1
        serials := ((checkAssets_iff assets).mp h).2.1 }, 0)

/-- The serials of the list are not zero; the type carries the rest of what is checked. -/
def Serials (b : Balance) : Prop := ∀ a ∈ b.assets, a.serial.uint ≠ 0

theorem checkAssets_of_serials {b : Balance} (h : b.Serials) : checkAssets b.assets = .ok () :=
  (checkAssets_iff b.assets).mpr ⟨b.assets_le, b.serials, h⟩

theorem codes : Codes decode encode Serials where
  reads := by
    refine reads_bind Amount.codes.reads fun hacash u hu =>
      reads_bind (decodeBounded_codes satoshiMax_le _).reads fun satoshi v hv =>
      reads_bind (decodeBounded_codes diamondNumberMax_le _).reads fun diamond w hw =>
      reads_bind (decodeListW_codes AssetAmt.codes).reads fun assets x hx => ?_
    intro buf b n h
    split at h
    · cases h
    · next hcheck =>
      cases h
      refine ⟨Nat.zero_le _, ?_, ((checkAssets_iff assets).mp hcheck).2.2⟩
      rw [hu.1, hv.1, hw.1, hx.1, take_zero, append_nil]
      rfl
  accepts b hb := by
    refine accepts_bind (Amount.codes.accepts b.hacash trivial)
      (accepts_bind
        ((decodeBounded_codes satoshiMax_le _).accepts ⟨b.satoshi, b.satoshi_le⟩ trivial)
        (accepts_bind
          ((decodeBounded_codes diamondNumberMax_le _).accepts ⟨b.diamond, b.diamond_le⟩ trivial)
          (accepts_last
            ((decodeListW_codes AssetAmt.codes).accepts b.assets ⟨?_, hb⟩) ?_)))
    · have := b.assets_le
      rw [balanceAssetMax] at this
      omega
    · funext rest
      have hcheck := checkAssets_of_serials hb
      split
      · next h => rw [hcheck] at h; cases h
      · rfl

/-! ## What `asset_set` leaves alone -/

theorem mem_assetSet {b c : Balance} {amt : AssetAmt} (h : b.assetSet amt = .ok c) :
    ∀ a ∈ c.assets, a ∈ b.assets ∨ (a = amt ∧ amt.amount.uint ≠ 0 ∧ amt.serial.uint ≠ 0) := by
  obtain ⟨_, hserial, h⟩ := bind_eq_ok h
  have hserial := of_ensure hserial
  have hput : ∀ {assets out : List AssetAmt}, assetPut amt assets = some out →
      ∀ a ∈ out, a ∈ assets ∨ (a = amt ∧ amt.amount.uint ≠ 0) := by
    intro assets
    induction assets with
    | nil => nofun
    | cons x rest ih =>
      intro out hout a ha
      rw [assetPut] at hout
      split_ifs at hout with hs hz
      · cases hout
        exact .inl (mem_cons_of_mem _ ha)
      · cases hout
        rcases mem_cons.mp ha with rfl | ha
        · exact .inr ⟨rfl, hz⟩
        · exact .inl (mem_cons_of_mem _ ha)
      · obtain ⟨tail, htail, rfl⟩ := Option.map_eq_some_iff.mp hout
        rcases mem_cons.mp ha with rfl | ha
        · exact .inl mem_cons_self
        · exact (ih htail a ha).imp_left (mem_cons_of_mem _)
  intro a ha
  split at h
  · next out hout =>
    cases h
    rcases hput hout a ha with hold | ⟨rfl, hz⟩
    · exact .inl hold
    · exact .inr ⟨rfl, hz, hserial.resolve_left hz⟩
  · split_ifs at h with hz hlen
    · cases h
      exact .inl ha
    · cases h
    · cases h
      rcases mem_append.mp ha with hold | hnew
      · exact .inl hold
      · exact .inr ⟨mem_singleton.mp hnew, hz, hserial.resolve_left hz⟩

theorem assetPut_find {amt : AssetAmt} {serial : Fold64} (hne : serial ≠ amt.serial)
    {assets out : List AssetAmt} (h : assetPut amt assets = some out) :
    out.find? (fun a => a.serial = serial) = assets.find? (fun a => a.serial = serial) := by
  induction assets generalizing out with
  | nil => cases h
  | cons x rest ih =>
    rw [assetPut] at h
    split_ifs at h with hs hz
    · cases h
      rw [find?_cons_of_neg (by simpa [hs] using Ne.symm hne)]
    · cases h
      rw [find?_cons_of_neg (by simpa using Ne.symm hne),
        find?_cons_of_neg (by simpa [hs] using Ne.symm hne)]
    · obtain ⟨tail, htail, rfl⟩ := Option.map_eq_some_iff.mp h
      rw [find?_cons, find?_cons, ih htail]

theorem asset_assetSet_of_ne {b c : Balance} {amt : AssetAmt} (h : b.assetSet amt = .ok c)
    {serial : Fold64} (hne : serial ≠ amt.serial) : c.asset serial = b.asset serial := by
  obtain ⟨_, _, h⟩ := bind_eq_ok h
  split at h
  · next out hout =>
    cases h
    exact assetPut_find hne hout
  · split_ifs at h with hz hlen
    · cases h
      rfl
    · cases h
    · cases h
      show (b.assets ++ [amt]).find? _ = b.assets.find? _
      rw [find?_append, find?_cons_of_neg (by simpa using Ne.symm hne), find?_nil,
        Option.or_none]

end Balance

/-! ## The operations with the state they leave (operate.rs:343–377) -/

/-- `asset_add` up to its first write: the balance to store, and the new amount. -/
def assetAddPlan (s : CoreState) (addr : Address) (asset : AssetAmt) :
    Ret (Balance × AssetAmt) := do
  checkAssetNonzero asset
  checkSupportedAddress addr
  let balance := s.balanceOf addr
  let old ← balance.assetMust asset.serial
  let next ← old.checkedAdd asset
  let balance' ← balance.assetSet next
  return (balance', next)

/-- `asset_add`. At the black hole the record can fail after the balance was written. -/
def assetAddSteps (s : CoreState) (addr : Address) (asset : AssetAmt) : CoreState × Ret AssetAmt :=
  match assetAddPlan s addr asset with
  | .error e => (s, .error e)
  | .ok (balance, next) =>
    let s := s.balanceSet addr balance
    if addr = blackholeAddr then
      let s := (s.balanceSet addr .default).diamondOwnedDel addr
      match totalRecordBlackholeAsset s with
      | .error e => (s, .error e)
      | .ok s => (s, .ok next)
    else (s, .ok next)

/-- `asset_sub`: its only write is its last statement. -/
def assetSubSteps (s : CoreState) (addr : Address) (asset : AssetAmt) : CoreState × Ret AssetAmt :=
  match assetSub s addr asset with
  | .error e => (s, .error e)
  | .ok (s', next) => (s', .ok next)

theorem assetAdd_eq_plan (s : CoreState) (addr : Address) (asset : AssetAmt) :
    assetAdd s addr asset = (do
      let (balance, next) ← assetAddPlan s addr asset
      let s ← blackholeEngulf (s.balanceSet addr balance) addr totalRecordBlackholeAsset
      return (s, next)) := by
  simp only [assetAdd, assetAddPlan, bind_assoc, pure_bind]

/-- The run with states succeeds where `assetAdd` does, with its state. -/
theorem assetAddSteps_ok {s s' : CoreState} {addr : Address} {asset next : AssetAmt}
    (h : assetAddSteps s addr asset = (s', .ok next)) : assetAdd s addr asset = .ok (s', next) := by
  rw [assetAdd_eq_plan]
  rw [assetAddSteps] at h
  cases hplan : assetAddPlan s addr asset with
  | error e => rw [hplan] at h; cases h
  | ok r =>
    obtain ⟨balance, n⟩ := r
    rw [hplan] at h
    rw [ok_bind]
    dsimp only at h ⊢
    rw [blackholeEngulf]
    split_ifs at h ⊢ with haddr
    · split at h
      · cases h
      · next hrecord =>
        cases h
        rw [hrecord]
        rfl
    · cases h
      rfl

/-- A failed `asset_add` leaves every balance but that of the black hole. -/
theorem assetAddSteps_error {s s' : CoreState} {addr : Address} {asset : AssetAmt} {e : Error}
    (h : assetAddSteps s addr asset = (s', .error e)) {a : Address} (ha : a ≠ blackholeAddr) :
    s'.balanceOf a = s.balanceOf a := by
  rw [assetAddSteps] at h
  split at h
  · cases h
    rfl
  · next balance next _ =>
    dsimp only at h
    split_ifs at h with haddr
    · split at h
      · cases h
        show ((s.balanceSet addr balance).balanceSet addr .default).balanceOf a = _
        rw [balanceOf_balanceSet, balanceOf_balanceSet,
          update_of_ne (haddr ▸ ha), update_of_ne (haddr ▸ ha)]
      · cases h
    · cases h

/-! ## Sequences of operations -/

/-- One operation on the assets of an address. -/
inductive AssetOp where
  | add (addr : Address) (asset : AssetAmt)
  | sub (addr : Address) (asset : AssetAmt)

namespace AssetOp

/-- The address it works on. -/
def addr : AssetOp → Address
  | add addr _ => addr
  | sub addr _ => addr

/-- Its operand. -/
def asset : AssetOp → AssetAmt
  | add _ asset => asset
  | sub _ asset => asset

/-- The state it leaves, and its result. -/
def run (s : CoreState) : AssetOp → CoreState × Ret AssetAmt
  | add addr asset => assetAddSteps s addr asset
  | sub addr asset => assetSubSteps s addr asset

/-- The amount of its serial, before and after. -/
def Moves : AssetOp → ℕ → ℕ → Prop
  | add _ asset, before, after => after = before + asset.amount.uint
  | sub _ asset, before, after => after + asset.amount.uint = before

end AssetOp

open AssetOp

/-- The state after a sequence of operations, those that fail included. -/
def runAssetOps (s : CoreState) (ops : List AssetOp) : CoreState :=
  ops.foldl (fun s op => (op.run s).1) s

/-- What a success does to the balance of its address. -/
structure AssetMoved (op : AssetOp) (b b' : Balance) : Prop where
  /-- the amount of the serial changed by the operand -/
  amount : op.Moves (b.assetAmount op.asset.serial) (b'.assetAmount op.asset.serial)
  /-- the entries of the other serials are as before -/
  others : ∀ serial, serial ≠ op.asset.serial → b'.asset serial = b.asset serial
  /-- the coins are as before -/
  coins : b'.hacash = b.hacash ∧ b'.satoshi = b.satoshi ∧ b'.diamond = b.diamond
  /-- an entry that was not there holds something of a serial that is not zero -/
  entries : ∀ a ∈ b'.assets, a ∈ b.assets ∨ (a.amount.uint ≠ 0 ∧ a.serial.uint ≠ 0)

variable {op : AssetOp} {s : CoreState} {a : Address} {b₀ : Balance}

theorem assetMoved_of_set {b b' : Balance} {next : AssetAmt}
    (hset : b.assetSet next = .ok b') (hserial : next.serial = op.asset.serial)
    (hmoves : op.Moves (b.assetAmount op.asset.serial) next.amount.uint) : AssetMoved op b b' := by
  obtain ⟨hhac, hsat, hdia, hamount⟩ := assetSet_ok hset
  refine ⟨?_, fun serial hne => ?_, ⟨hhac, hsat, hdia⟩, fun a ha => ?_⟩
  · rw [hamount, if_pos hserial.symm]
    exact hmoves
  · exact asset_assetSet_of_ne hset (hserial ▸ hne)
  · rcases mem_assetSet hset a ha with hold | ⟨rfl, hz, hs⟩
    · exact .inl hold
    · exact .inr ⟨hz, hs⟩

theorem AssetOp.run_ok {s' : CoreState} {next : AssetAmt}
    (ha : a ≠ blackholeAddr) (h : op.run s = (s', .ok next)) :
    (op.addr = a → AssetMoved op (s.balanceOf a) (s'.balanceOf a)) ∧
      (op.addr ≠ a → s'.balanceOf a = s.balanceOf a) := by
  have hmain : ∃ b, (s.balanceOf op.addr).assetSet next = .ok b ∧ next.serial = op.asset.serial ∧
      op.Moves ((s.balanceOf op.addr).assetAmount op.asset.serial) next.amount.uint ∧
      ∃ b', (op.addr ≠ blackholeAddr → b' = b) ∧ CoreState.Rebalanced s s' op.addr b' := by
    cases op with
    | add addr asset =>
      obtain ⟨b, hset, hserial, hamount, hre⟩ := assetAdd_ok (assetAddSteps_ok h)
      exact ⟨b, hset, hserial, hamount, _, fun hne => if_neg hne, hre⟩
    | sub addr asset =>
      have hsub : assetSub s addr asset = .ok (s', next) := by
        change assetSubSteps s addr asset = _ at h
        rw [assetSubSteps] at h
        split at h
        · cases h
        · next hsub =>
          cases h
          exact hsub
      obtain ⟨b, hset, hserial, hamount, hre⟩ := assetSub_ok hsub
      exact ⟨b, hset, hserial, hamount, b, fun _ => rfl, hre⟩
  obtain ⟨b, hset, hserial, hmoves, b', hb', hre⟩ := hmain
  constructor
  · rintro rfl
    rw [hre.balanceOf, update_self, hb' ha]
    exact assetMoved_of_set hset hserial hmoves
  · intro hne
    rw [hre.balanceOf, update_of_ne (Ne.symm hne)]

theorem AssetOp.run_error {s' : CoreState} {e : Error}
    (ha : a ≠ blackholeAddr) (h : op.run s = (s', .error e)) : s'.balanceOf a = s.balanceOf a := by
  cases op with
  | add addr asset => exact assetAddSteps_error h ha
  | sub addr asset =>
    change assetSubSteps s addr asset = _ at h
    rw [assetSubSteps] at h
    split at h
    · cases h
      rfl
    · cases h

/-- At most twenty entries, distinct serials that are not zero, and no amount zero but those of
`b₀`. -/
structure AssetsSound (b₀ b : Balance) : Prop where
  length_le : b.assets.length ≤ 20
  distinct : (b.assets.map AssetAmt.serial).Nodup
  serials : b.Serials
  zero : ∀ a ∈ b.assets, a.amount.uint = 0 → a ∈ b₀.assets

theorem AssetsSound.moved {b b' : Balance} (h : AssetsSound b₀ b)
    (hmoved : AssetMoved op b b') : AssetsSound b₀ b' := by
  refine ⟨b'.assets_le, b'.serials, fun a ha => ?_, fun a ha hz => ?_⟩
  · rcases hmoved.entries a ha with hold | ⟨-, hs⟩
    · exact h.serials a hold
    · exact hs
  · rcases hmoved.entries a ha with hold | ⟨hnz, -⟩
    · exact h.zero a hold hz
    · exact absurd hz hnz

theorem AssetsSound.run (ha : a ≠ blackholeAddr) (h : AssetsSound b₀ (s.balanceOf a)) :
    AssetsSound b₀ ((op.run s).1.balanceOf a) := by
  rcases hrun : op.run s with ⟨s', e | next⟩
  · rw [run_error ha hrun]
    exact h
  · obtain ⟨hat, helse⟩ := run_ok ha hrun
    by_cases haddr : op.addr = a
    · exact h.moved (hat haddr)
    · rw [helse haddr]
      exact h

/-- A sequence of operations keeps it sound. -/
theorem AssetsSound.runAssetOps (ha : a ≠ blackholeAddr)
    (ops : List AssetOp) (h : AssetsSound b₀ (s.balanceOf a)) :
    AssetsSound b₀ ((Hacash.runAssetOps s ops).balanceOf a) := by
  induction ops generalizing s with
  | nil => exact h
  | cons op ops ih => exact ih (h.run ha)

/-- **The asset list keeps its integrity.** From a balance that passes `check_assets`, not at the
black hole, over every sequence of operations: a success leaves a sound list in which only the
touched serial changed, by the operand; a failure leaves the balance; and the balance is read
back from its bytes. -/
theorem balance_assets_integrity (s : CoreState) (a : Address) (ha : a ≠ blackholeAddr)
    (hcheck : checkAssets (s.balanceOf a).assets = .ok ()) (ops : List AssetOp)
    (op : AssetOp) :
    let t := runAssetOps s ops
    let t' := (op.run t).1
    AssetsSound (s.balanceOf a) (t'.balanceOf a) ∧
      (∀ next, (op.run t).2 = .ok next →
        (op.addr = a → AssetMoved op (t.balanceOf a) (t'.balanceOf a)) ∧
        (op.addr ≠ a → t'.balanceOf a = t.balanceOf a)) ∧
      (∀ e, (op.run t).2 = .error e → t'.balanceOf a = t.balanceOf a) ∧
      ∀ rest, decode ((t'.balanceOf a).encode ++ rest)
        = .ok (t'.balanceOf a, (t'.balanceOf a).encode.length) := by
  intro t t'
  have hstart : AssetsSound (s.balanceOf a) (s.balanceOf a) := by
    obtain ⟨hlen, hnodup, hserials⟩ := (checkAssets_iff _).mp hcheck
    exact ⟨hlen, hnodup, hserials, fun _ hx _ => hx⟩
  have hsound : AssetsSound (s.balanceOf a) (t'.balanceOf a) :=
    (hstart.runAssetOps ha ops).run ha
  refine ⟨hsound, ?_, ?_, ?_⟩
  · intro next hnext
    exact run_ok ha (Prod.ext rfl hnext)
  · intro e he
    exact run_error ha (Prod.ext rfl he)
  · exact codes.accepts _ hsound.serials

/-- An amount of an asset. -/
def assetOf (serial amount : ℕ) (hs : serial ≤ fold64Max) (ha : amount ≤ fold64Max) : AssetAmt :=
  ⟨⟨serial, hs⟩, ⟨amount, ha⟩⟩

/-- Five of the asset with serial 2. -/
def fiveOfTwo : AssetAmt := assetOf 2 5 (by decide) (by decide)

theorem balance_assets_integrity_sample :
    let t' := ((AssetOp.sub (.fill 1) fiveOfTwo).run
      (runAssetOps .empty [.add (.fill 1) fiveOfTwo, .add (.fill 1) fiveOfTwo])).1
    (t'.balanceOf (.fill 1)).assets = [fiveOfTwo] ∧
      AssetsSound (empty.balanceOf (.fill 1)) (t'.balanceOf (.fill 1)) ∧
      decode ((t'.balanceOf (.fill 1)).encode ++ [])
        = .ok (t'.balanceOf (.fill 1), (t'.balanceOf (.fill 1)).encode.length) := by
  intro t'
  obtain ⟨hsound, -, -, hread⟩ := balance_assets_integrity .empty (.fill 1) (by decide) (by decide)
    [.add (.fill 1) fiveOfTwo, .add (.fill 1) fiveOfTwo] (.sub (.fill 1) fiveOfTwo)
  exact ⟨by decide +kernel, hsound, hread []⟩

/-- A balance with an entry of amount zero. -/
def zeroEntry : Balance where
  hacash := .zero
  satoshi := 0
  diamond := 0
  assets := [assetOf 1 0 (by decide) (by decide)]
  satoshi_le := by decide
  diamond_le := by decide
  assets_le := by decide
  serials := by decide

/-- Two exceptions: an entry of amount zero passes the check and survives a success on another
serial, and a success at the black hole does not change the amount by its operand. -/
theorem asset_list_exceptions :
    (checkAssets zeroEntry.assets = .ok () ∧
      let r := (AssetOp.add (.fill 1) fiveOfTwo).run
        (empty.balanceSet (.fill 1) zeroEntry)
      r.2 = .ok fiveOfTwo ∧
        assetOf 1 0 (by decide) (by decide) ∈ (r.1.balanceOf (.fill 1)).assets) ∧
    let r := (AssetOp.add blackholeAddr fiveOfTwo).run .empty
    r.2 = .ok fiveOfTwo ∧ (r.1.balanceOf blackholeAddr).assets = [] := by
  refine ⟨⟨by decide, by decide +kernel, by decide +kernel⟩, by decide +kernel,
    by decide +kernel⟩

end Hacash
