import Mathlib.Data.List.AList
import Mathlib.Data.List.Sort
import Hacash.Vm.ValueCodec

/-!
# Contract storage and status (`vm::state`)

An operation that fails may have settled its entry before. Records are encoded when written and
decoded whenever read (`stateGet`).
-/

namespace Hacash

open Lib Function

namespace Vm

/-! ## Parameters (cap.rs, gas.rs) -/

/-- The limits of `SpaceCap` that the stores check. -/
structure SpaceCap where
  valueSize : ℕ
  kvKeySize : ℕ
  statusPureSize : ℕ
  storagePeriod : ℕ
  storageLiveMaxPeriods : ℕ
  storageRecvMaxPeriods : ℕ

namespace SpaceCap

/-- `SpaceCap::new`, the same at every height. -/
def new : SpaceCap where
  valueSize := 1280
  kvKeySize := 128
  statusPureSize := 128
  storagePeriod := 100
  storageLiveMaxPeriods := 30000
  storageRecvMaxPeriods := 3000

def storageLiveMaxBlocks (cap : SpaceCap) : ℕ :=
  min (cap.storagePeriod * cap.storageLiveMaxPeriods) u64Max

def storageRecvMaxBlocks (cap : SpaceCap) : ℕ :=
  min (cap.storagePeriod * cap.storageRecvMaxPeriods) u64Max

end SpaceCap

/-- The prices of `GasExtra` for storage. -/
structure GasExtra where
  storegeValueBaseSize : ℤ
  storageKeyCost : ℤ
  storageEditMul : ℤ

/-- `GasExtra::new`, the same at every height. -/
def GasExtra.new : GasExtra where
  storegeValueBaseSize := 20
  storageKeyCost := 1024
  storageEditMul := 4

/-- The hash functions that the stores use. -/
structure VmHash where
  sha3 : List UInt8 → Hash
  sha256 : List UInt8 → List UInt8

/-- An `i64` that saturates. -/
def i64Sat (x : ℤ) : ℤ := max (-2 ^ 63) (min x (2 ^ 63 - 1))

/-! ## Credit (storage.rs) -/

/-- `ValueSto`: an entry with its credit and the height up to which it has paid. -/
structure ValueSto where
  charge : ℕ
  liveCredit : ℕ
  recoverCredit : ℕ
  data : Value

namespace ValueSto

def creditU32 (v : ℕ) (tip : String) : VmrtRes ℕ := do
  check (v < 2 ^ 32) .storageError tip
  return v

def new (chei : ℕ) (data : Value) (liveCredit recoverCredit : ℕ) : VmrtRes ValueSto := do
  let live ← creditU32 liveCredit "live credit overflow"
  let recover ← creditU32 recoverCredit "recover credit overflow"
  return ⟨chei, live, recover, data⟩

/-- `unit_for`: what an entry with the value burns in a block. -/
def unitFor (gst : GasExtra) (v : Value) : VmrtRes ℕ := do
  let size ← v.canGetSize
  return min (size + gst.storegeValueBaseSize.toNat) u64Max

def isActive (v : ValueSto) : Bool := decide (0 < v.liveCredit)

def isRecoverable (v : ValueSto) : Bool := v.liveCredit == 0 && decide (0 < v.recoverCredit)

def isAbsent (v : ValueSto) : Bool := v.liveCredit == 0 && v.recoverCredit == 0

def settle (v : ValueSto) (curhei : ℕ) (gst : GasExtra) : VmrtRes ValueSto := do
  let unit ← unitFor gst v.data
  if unit = 0 then return { v with charge := curhei }
  else if curhei ≤ v.charge then return v
  else do
    let burn := (curhei - v.charge) * unit
    let live := v.liveCredit - burn
    let recover := v.recoverCredit - (burn - v.liveCredit)
    let live ← creditU32 (min live u64Max) "live credit overflow"
    let recover ← creditU32 (min recover u64Max) "recover credit overflow"
    return { v with liveCredit := live, recoverCredit := recover, charge := curhei }

end ValueSto

open ValueSto

def parsePeriod (v : Value) (maxPeriod : ℕ) : VmrtRes ℕ :=
  match v.extractU128 with
  | .error _ => .error ⟨.storageError, "period value is not uint type"⟩
  | .ok period => do
    check (1 ≤ period) .storagePeriodErr "period min is 1"
    check (period ≤ maxPeriod) .storagePeriodErr "period value max is but got"
    return period

def periodCredit (unit period storagePeriod : ℕ) : VmrtRes ℕ := do
  check (storagePeriod ≠ 0) .storagePeriodErr
  check (period * storagePeriod ≤ u64Max) .storageError "period blocks overflow"
  check (unit * (period * storagePeriod) ≤ u64Max) .storageError "credit overflow"
  return unit * (period * storagePeriod)

def u64ToI64Sat (v : ℕ) : ℤ := min v (2 ^ 63 - 1)

def restBlocks (credit unit : ℕ) : VmrtRes ℕ := do
  check (unit ≠ 0) .storageError "storage unit cannot be zero"
  return if credit = 0 then 0 else (credit - 1) / unit + 1

def refundForLiveCredit (credit storagePeriod : ℕ) : ℤ := u64ToI64Sat (credit / storagePeriod)

def creditCapForBlocks (unit blocks : ℕ) (tip : String) : VmrtRes ℕ := do
  check (unit * blocks ≤ u64Max) .storageError tip
  return unit * blocks

/-! ## Patches (patch.rs) -/

/-- The loop of `decode_patch_set`, with the offset and the end of the patch before. -/
def decodePatches : (count : ℕ) → (prev : Option (ℕ × ℕ)) → List UInt8 →
    VmrtRes (List (ℕ × ℕ × List UInt8))
  | 0, _, bytes => do
    check (bytes = []) .storagePatchInvalid
    return []
  | count + 1, prev, bytes => do
    check (6 ≤ bytes.length) .storagePatchInvalid
    let offset := beValue (bytes.take 2)
    let deleteLen := beValue ((bytes.drop 2).take 2)
    let insertLen := beValue ((bytes.drop 4).take 2)
    let rest := bytes.drop 6
    check (insertLen ≤ rest.length) .storagePatchInvalid
    check (∀ p ∈ prev, ¬ (offset ≤ p.1 ∨ offset < p.2)) .storagePatchInvalid
    let patches ← decodePatches count (some (offset, offset + deleteLen)) (rest.drop insertLen)
    return (offset, deleteLen, rest.take insertLen) :: patches

def decodePatchSet (bytes : List UInt8) : VmrtRes (List (ℕ × ℕ × List UInt8)) :=
  match bytes with
  | [] => itrErr .storagePatchInvalid
  | count :: rest => do
    check (1 ≤ count.toNat ∧ count.toNat ≤ 16) .storagePatchInvalid
    decodePatches count.toNat none rest

/-- The loop of `decode_and_apply` from a position of the original on. -/
def applyPatches (original : List UInt8) : (cursor : ℕ) → List (ℕ × ℕ × List UInt8) → List UInt8
  | cursor, [] => original.drop cursor
  | cursor, (offset, deleteLen, insert) :: rest =>
    (original.drop cursor).take (offset - cursor) ++ insert ++
      applyPatches original (offset + deleteLen) rest

/-- `decode_and_apply`; `orig_len` is the length of the original cut to 32 bits. -/
def decodeAndApply (original patchSet : List UInt8) (cap : SpaceCap) : VmrtRes (List UInt8) := do
  let patches ← decodePatchSet patchSet
  let origLen := original.length % 2 ^ 32
  check (patches.all fun p => decide (p.1 + p.2.1 ≤ origLen)) .storagePatchInvalid
  let out := applyPatches original 0 patches
  check (out.length ≤ cap.valueSize) .storagePatchInvalid
  return out

def applyPatchChecked (hash : VmHash) (original : List UInt8) (expected patchSet : Value)
    (cap : SpaceCap) : VmrtRes (List UInt8 × List UInt8) :=
  match expected, patchSet with
  | .bytes expected, .bytes patchSet => do
    check (original = expected) .storagePatchExpected
    let final ← decodeAndApply original patchSet cap
    return (final, hash.sha256 final)
  | _, _ => itrErr .storagePatchInvalid

/-! ## Status (status.rs) -/

/-- The items of a status by key. The map of the source is sorted; see `StatusMap.items`. -/
abbrev StatusMap : Type := AList fun _ : List UInt8 => Value

def scalarFieldLenFits (len valueMax : ℕ) : Bool := decide (len < 65535) && decide (len ≤ valueMax)

def validateScalarPayloadLen (v : Value) (valueMax : ℕ) (ec : ItrErrCode) : VmrtRes Unit := do
  let len ← v.extractBytesLen ec
  check (scalarFieldLenFits len valueMax = true) ec "value too long, max bytes but got"

/-- `validate_volatile_scalar_put`: the code of every error is replaced. -/
def validateVolatileScalarPut (v : Value) (valueMax : ℕ) (ec : ItrErrCode) : VmrtRes Unit := do
  match v.checkNonNilScalar ec with
    | .error e => .error ⟨ec, e.msg⟩
    | .ok () => .ok ()
  validateScalarPayloadLen v valueMax ec

namespace StatusMap

/-- The items in the order of their keys, as a `BTreeMap` lists them. -/
def items (map : StatusMap) : List (Σ _ : List UInt8, Value) :=
  map.entries.insertionSort fun a b => a.1 ≤ b.1

theorem items_perm (map : StatusMap) : map.items.Perm map.entries := List.perm_insertionSort _ _

/-- One turn of the loop of `from_storage`. -/
def load (map : StatusMap) (item : List UInt8 × Value) : VmrtRes StatusMap := do
  check (item.2.isNil = false) .storageError "status value cannot be nil in storage"
  item.2.checkScalar
  check (item.1 ≠ []) .storageError "status key cannot be empty in storage"
  check (item.1 ∉ map) .storageError "duplicate status key in storage"
  return map.insert item.1 item.2

def fromStorage (sto : StatusSto) : VmrtRes StatusMap := sto.foldlM load ∅

def toStorage (map : StatusMap) : VmrtRes StatusSto := do
  check (map.entries.length < 65536) .storageError "serialize status object failed"
  check (map.entries.all fun e => decide (e.1.length < 256)) .storageError
    "serialize status object failed"
  return map.items.map fun e => (e.1, e.2)

def payloadSize (map : StatusMap) : ℕ :=
  (map.entries.map fun e => e.1.length + e.2.scalarSize.getD 0).sum

def validateKeyLengths (map : StatusMap) (keyMax : ℕ) (ec : ItrErrCode) : VmrtRes Unit :=
  check (map.entries.all fun e => decide (e.1.length ≤ keyMax)) ec
    "status key too long, max bytes but got"

def ensureSaveBounds (map : StatusMap) (cap : SpaceCap) : VmrtRes Unit := do
  map.validateKeyLengths cap.kvKeySize .storageKeyInvalid
  map.items.forM fun e => validateVolatileScalarPut e.2 cap.valueSize .storageValSizeErr
  check (map.payloadSize ≤ cap.statusPureSize) .storageValSizeErr
    "status payload too large, max bytes but got"

def get (map : StatusMap) (key : List UInt8) : Value := (map.lookup key).getD .nil

def setOrRemove (map : StatusMap) (key : List UInt8) (v : Value) : VmrtRes StatusMap :=
  if v.isNil then .ok (map.erase key)
  else do
    v.checkScalar
    return map.insert key v

end StatusMap

/-! ## The stores (state.rs) -/

/-- `state_get`: the bytes that `state_set` has written are decoded again. A record without bytes
(`none`) is one that `encode` panics on; no operation writes such a record. -/
def stateGet {α : Type} (decode : Decode α) (bytes : Option (List UInt8)) : VmrtRes α :=
  match bytes with
  | none => itrErr .stateDecodeFailed
  | some bytes =>
    match decode bytes with
    | .ok (a, _) => .ok a
    | .error e => .error ⟨.stateDecodeFailed, e.msg⟩

/-- A read of an entry. Its height and credits have a fixed width and are always read back. -/
def ValueSto.reload (v : ValueSto) : VmrtRes ValueSto := do
  let data ← stateGet Value.decode v.data.encode
  return { v with data }

/-- A read of a status, which is one record for all keys of a contract. -/
def StatusSto.reload (sto : StatusSto) : VmrtRes StatusSto := stateGet StatusSto.decode sto.encode

/-- The two stores of the contracts, under the keys of their slots: the records whose bytes were
written. Every read goes through `reload`. -/
structure VMState where
  ctrtkvdb : List UInt8 → Option ValueSto
  ctrtstatus : Address → Option StatusSto

/-- What is left in a slot. -/
inductive SlotWrite where
  | keep
  | set (v : ValueSto)
  | del

/-- The slot is written. -/
def VMState.write (s : VMState) (sk : List UInt8) : SlotWrite → VMState
  | .keep => s
  | .set v => { s with ctrtkvdb := update s.ctrtkvdb sk (some v) }
  | .del => { s with ctrtkvdb := update s.ctrtkvdb sk none }

/-- `encode_ctrt_kv_slot`: short keys as they are, long keys hashed, with a tag. -/
def encodeCtrtKvSlot (hash : VmHash) (cadr : Address) (key : List UInt8) : List UInt8 :=
  if 32 < (cadr.bytes ++ key).length then 1 :: (hash.sha3 (cadr.bytes ++ key)).bytes
  else 0 :: (cadr.bytes ++ key)

def skey (hash : VmHash) (cadr : Address) (key : Value) (keyMax : ℕ) : VmrtRes (List UInt8) := do
  check (cadr.isSupported = true) .storageError "storage must be in effective address but got"
  let k ← key.extractKeyBytes .storageKeyInvalid
  check (k.length ≤ keyMax) .storageKeyInvalid "storage key too long, max bytes but got"
  return encodeCtrtKvSlot hash cadr k

/-- `sfetch`: the settled entry, which is written back or deleted. -/
def sfetch (curhei : ℕ) (gst : GasExtra) (sk : List UInt8) (s : VMState) :
    VMState × VmrtRes (Option ValueSto) :=
  match s.ctrtkvdb sk with
  | none => (s, .ok none)
  | some v =>
    match v.reload >>= fun v => v.settle curhei gst with
    | .error e => (s, .error e)
    | .ok v =>
      if v.isAbsent then (s.write sk .del, .ok none) else (s.write sk (.set v), .ok (some v))

/-- An operation on an entry: its slot is found, the entry settled and then decided on. -/
def withSlot {α β : Type} (curhei : ℕ) (gst : GasExtra) (slot : VmrtRes (List UInt8 × α))
    (body : α → Option ValueSto → VmrtRes (β × SlotWrite)) (s : VMState) : VMState × VmrtRes β :=
  match slot with
  | .error e => (s, .error e)
  | .ok (sk, a) =>
    match sfetch curhei gst sk s with
    | (s, .error e) => (s, .error e)
    | (s, .ok v) =>
      match body a v with
      | .error e => (s, .error e)
      | .ok (b, w) => (s.write sk w, .ok b)

section

variable (hash : VmHash) (gst : GasExtra) (cap : SpaceCap) (curhei : ℕ) (cadr : Address)

/-- The slot of a key, for an operation that checks nothing before. -/
def plainSlot (k : Value) : VmrtRes (List UInt8 × Unit) := do
  let sk ← skey hash cadr k cap.kvKeySize
  return (sk, ())

def sstat (k : Value) : VMState → VMState × VmrtRes Value :=
  withSlot curhei gst (plainSlot hash cap cadr k) fun _ v =>
    match v with
    | none => .ok (.nil, .keep)
    | some v => do
      let unit ← unitFor gst v.data
      let live ← restBlocks v.liveCredit unit
      let recover ← restBlocks v.recoverCredit unit
      return (.tuple [.uint .u64 (Fin.ofNat _ live), .uint .u64 (Fin.ofNat _ recover)], .keep)

def sload (k : Value) : VMState → VMState × VmrtRes Value :=
  withSlot curhei gst (plainSlot hash cap cadr k) fun _ v =>
    match v with
    | none => .ok (.nil, .keep)
    | some v => do
      check (v.isRecoverable = false) .storageNotActive
      return (v.data, .keep)

/-- `snew`, with the gas to charge. -/
def snew (k v p : Value) : VMState → VMState × VmrtRes ℤ :=
  withSlot curhei gst
    (do
      v.checkNonNilScalar .storageNilNotAllowed
      validateScalarPayloadLen v cap.valueSize .storageValSizeErr
      let period ← parsePeriod p cap.storageLiveMaxPeriods
      let sk ← skey hash cadr k cap.kvKeySize
      return (sk, period))
    fun period old => do
      check (old.isNone = true) .storageKeyExists
      let unit ← unitFor gst v
      let liveCredit ← periodCredit unit period cap.storagePeriod
      let vobj ← new curhei v liveCredit 0
      return (i64Sat (gst.storageKeyCost + i64Sat (u64ToI64Sat unit * period)), .set vobj)

/-- `commit_edit`, with the fee and the rebate. -/
def commitEdit (old : ValueSto) : VmrtRes ((ℤ × ℤ) × SlotWrite) := do
  let unit ← unitFor gst old.data
  let liveCap ← creditCapForBlocks unit cap.storageLiveMaxBlocks "live credit cap overflow"
  let recoverCap ← creditCapForBlocks unit cap.storageRecvMaxBlocks "recover credit cap overflow"
  let live ← creditU32 (min old.liveCredit liveCap) "edit live credit overflow"
  let recover ← creditU32 (min old.recoverCredit recoverCap)
    "edit recover credit overflow"
  let trimmed := old.liveCredit - min old.liveCredit liveCap
  return ((i64Sat (u64ToI64Sat unit * gst.storageEditMul),
      refundForLiveCredit trimmed cap.storagePeriod),
    .set { old with charge := curhei, liveCredit := live, recoverCredit := recover })

/-- The entry of an edit: it has to be active. -/
def activeEntry (old : Option ValueSto) : VmrtRes ValueSto :=
  match old with
  | none => itrErr .storageKeyNotFind
  | some old => do
    check (old.isActive = true) .storageNotActive
    return old

/-- `sedit`, with the fee and the rebate. -/
def sedit (k v : Value) : VMState → VMState × VmrtRes (ℤ × ℤ) :=
  withSlot curhei gst
    (do
      v.checkNonNilScalar .storageNilNotAllowed
      validateScalarPayloadLen v cap.valueSize .storageValSizeErr
      plainSlot hash cap cadr k)
    fun _ old => do
      let old ← activeEntry old
      commitEdit gst cap curhei { old with data := v }

/-- `spatch`, with the digest, the fee, the rebate and the length. -/
def spatch (k expected patchSet : Value) :
    VMState → VMState × VmrtRes (List UInt8 × ℤ × ℤ × ℕ) :=
  withSlot curhei gst (plainSlot hash cap cadr k) fun _ old => do
    let old ← activeEntry old
    match old.data with
    | .bytes b => do
      let (final, digest) ← applyPatchChecked hash b expected patchSet cap
      let ((fee, rebate), w) ← commitEdit gst cap curhei { old with data := .bytes final }
      return ((digest, fee, rebate, final.length), w)
    | _ => itrErr .storagePatchInvalid

/-- What `srent` and `srecv` share: the credit after `period` more periods. -/
def topUp (unit credit period maxBlocks : ℕ) (blocksTip sumTip budgetTip creditTip : String) :
    VmrtRes ℕ := do
  let addCredit ← periodCredit unit period cap.storagePeriod
  check (period * cap.storagePeriod ≤ u64Max) .storageError blocksTip
  let curBlocks ← restBlocks credit unit
  check (curBlocks + period * cap.storagePeriod ≤ u64Max) .storageError sumTip
  check (curBlocks + period * cap.storagePeriod ≤ maxBlocks) .storagePeriodErr budgetTip
  check (credit + addCredit ≤ u64Max) .storageError creditTip
  creditU32 (credit + addCredit) creditTip

/-- `srent`, with the gas to charge. -/
def srent (k p : Value) : VMState → VMState × VmrtRes ℤ :=
  withSlot curhei gst
    (do
      let period ← parsePeriod p cap.storageLiveMaxPeriods
      let sk ← skey hash cadr k cap.kvKeySize
      return (sk, period))
    fun period old =>
      match old with
      | none => itrErr .storageKeyNotFind
      | some v => do
        let unit ← unitFor gst v.data
        let live ← topUp cap unit v.liveCredit period cap.storageLiveMaxBlocks
          "rent blocks overflow" "rent overflow" "live block budget exceeded, max blocks"
          "rent credit overflow"
        return (i64Sat (u64ToI64Sat unit * period),
          .set { v with charge := curhei, liveCredit := live })

/-- `srecv`, with the gas to charge. -/
def srecv (k p : Value) : VMState → VMState × VmrtRes ℤ :=
  withSlot curhei gst
    (do
      let period ← parsePeriod p cap.storageRecvMaxPeriods
      let sk ← skey hash cadr k cap.kvKeySize
      return (sk, period))
    fun period old =>
      match old with
      | none => itrErr .storageKeyNotFind
      | some v => do
        let unit ← unitFor gst v.data
        let recover ← topUp cap unit v.recoverCredit period cap.storageRecvMaxBlocks
          "recover blocks overflow" "recover overflow" "recover block budget exceeded, max blocks"
          "recover credit overflow"
        return (i64Sat (u64ToI64Sat unit * period) / 3,
          .set { v with charge := curhei, recoverCredit := recover })

/-- `sdel`, with the refund. It settles the entry without writing it back. -/
def sdel (k : Value) (s : VMState) : VMState × VmrtRes ℤ :=
  match skey hash cadr k cap.kvKeySize with
  | .error e => (s, .error e)
  | .ok sk =>
    match s.ctrtkvdb sk with
    | none => (s, .ok 0)
    | some v =>
      match v.reload >>= fun v => v.settle curhei gst with
      | .error e => (s, .error e)
      | .ok v =>
        if v.isAbsent then (s.write sk .del, .ok 0)
        else
          let refund := refundForLiveCredit v.liveCredit cap.storagePeriod + gst.storageKeyCost
          (s.write sk .del, do
            check (refund ≤ 2 ^ 63 - 1) .storageError "delete refund overflow"
            return refund)

/-! ### Status -/

def statusContractAddr : VmrtRes Address := do
  check (cadr.isContract = true) .storageError "status storage must be in contract address but got"
  return cadr

def statusKeyBytes (k : Value) : VmrtRes (List UInt8) := do
  let key ← k.extractKeyBytes .storageKeyInvalid
  check (key.length ≤ cap.kvKeySize) .storageKeyInvalid "status key too long, max bytes but got"
  return key

/-- `status_load_by_contract`. -/
def statusLoad (s : VMState) : VmrtRes StatusMap :=
  match s.ctrtstatus cadr with
  | none => .ok ∅
  | some sto => do
    let sto ← StatusSto.reload sto
    let status ← StatusMap.fromStorage sto
    status.validateKeyLengths cap.kvKeySize .storageError
    return status

/-- `status_put_prepare`, with the key. -/
def statusPutPrepare (k v : Value) : VmrtRes (List UInt8) := do
  let key ← statusKeyBytes cap k
  if v.isNil then return key
  else do
    v.checkScalar
    let len ← v.extractBytesLen .storageValSizeErr
    check (scalarFieldLenFits len cap.valueSize = true) .storageValSizeErr
      "value too long, max bytes but got"
    return key

/-- The status that `status_save_by_contract` stores. -/
def statusSave (status : StatusMap) : VmrtRes (Option StatusSto) :=
  if status.entries = [] then .ok none
  else do
    status.ensureSaveBounds cap
    let sto ← status.toStorage
    return some sto

def sget (k : Value) (s : VMState) : VmrtRes Value := do
  let key ← statusKeyBytes cap k
  let addr ← statusContractAddr cadr
  let status ← statusLoad cap addr s
  return status.get key

def sput (k v : Value) (s : VMState) : VmrtRes VMState := do
  let addr ← statusContractAddr cadr
  let key ← statusPutPrepare cap k v
  let status ← statusLoad cap addr s
  let status ← status.setOrRemove key v
  let sto ← statusSave cap status
  return { s with ctrtstatus := update s.ctrtstatus addr sto }

end

theorem validateVolatileScalarPut_ok {v : Value} {valueMax : ℕ} {ec : ItrErrCode} {u : Unit}
    (h : validateVolatileScalarPut v valueMax ec = .ok u) :
    v.isNil = false ∧ v.isScalar = true := by
  rw [validateVolatileScalarPut] at h
  cases hcheck : v.checkNonNilScalar ec with
  | error err =>
    rw [hcheck] at h
    cases h
  | ok u =>
    obtain ⟨hnil, hscalar⟩ := check_bind_iff.mp hcheck
    exact ⟨hnil, of_check hscalar⟩

/-! ## What a read gives -/

theorem stateGet_ok {α : Type} {decode : Decode α} {bytes : Option (List UInt8)} {a : α}
    (h : stateGet decode bytes = .ok a) : ∃ b n, bytes = some b ∧ decode b = .ok (a, n) := by
  cases bytes with
  | none => cases h
  | some b =>
    cases hd : decode b with
    | error e =>
      simp only [stateGet, hd] at h
      cases h
    | ok p =>
      simp only [stateGet, hd] at h
      cases h
      exact ⟨b, p.2, rfl, hd⟩

/-- An entry that can be read is read as it was written. -/
theorem ValueSto.reload_eq {v v' : ValueSto} (h : v.reload = .ok v') : v' = v := by
  obtain ⟨data, hdata, h⟩ := bind_eq_ok h
  obtain ⟨b, n, hencode, hdecode⟩ := stateGet_ok hdata
  cases h
  rw [(Value.eq_of_decode hencode hdecode).1]

/-- What an operation settles is the entry that was written. -/
theorem settle_of_reload {v v' : ValueSto} {curhei : ℕ} {gst : GasExtra}
    (h : (v.reload >>= fun v => v.settle curhei gst) = .ok v') : v.settle curhei gst = .ok v' := by
  obtain ⟨w, hw, h⟩ := bind_eq_ok h
  rwa [ValueSto.reload_eq hw] at h

/-- The values of a status that can be read are supported. -/
theorem StatusSto.reload_supported {sto sto' : StatusSto} (h : StatusSto.reload sto = .ok sto') :
    ∀ item ∈ sto', item.2.Supported := by
  obtain ⟨b, n, -, hdecode⟩ := stateGet_ok h
  obtain ⟨-, -, -, hitems⟩ := (decodeListW_codes (w := 2) StatusSto.decodeItem_codes).reads hdecode
  exact fun item hitem => (hitems item hitem).2.supported

theorem StatusSto.reload_of {sto : StatusSto} {bytes : List UInt8} {n : ℕ}
    (h : sto.encode = some bytes) (hdecode : StatusSto.decode bytes = .ok (sto, n)) :
    StatusSto.reload sto = .ok sto := by
  simp only [StatusSto.reload, stateGet, h, hdecode]

/-! ## What an operation leaves alone -/

/-- What a write leaves in the slot. -/
def SlotWrite.apply (old : Option ValueSto) : SlotWrite → Option ValueSto
  | .keep => old
  | .set v => some v
  | .del => none

theorem write_self (s : VMState) (sk : List UInt8) (w : SlotWrite) :
    (s.write sk w).ctrtkvdb sk = w.apply (s.ctrtkvdb sk) := by
  cases w with
  | keep => rfl
  | set v | del => exact update_self ..

/-- Only one slot is changed. -/
structure OnlySlot (sk : List UInt8) (s s' : VMState) : Prop where
  other : ∀ k, k ≠ sk → s'.ctrtkvdb k = s.ctrtkvdb k
  status : s'.ctrtstatus = s.ctrtstatus

theorem OnlySlot.refl (sk : List UInt8) (s : VMState) : OnlySlot sk s s := ⟨fun _ _ => rfl, rfl⟩

theorem OnlySlot.trans {sk : List UInt8} {s s' s'' : VMState} (h : OnlySlot sk s s')
    (h' : OnlySlot sk s' s'') : OnlySlot sk s s'' :=
  ⟨fun k hk => (h'.other k hk).trans (h.other k hk), h'.status.trans h.status⟩

theorem onlySlot_write (s : VMState) (sk : List UInt8) (w : SlotWrite) :
    OnlySlot sk s (s.write sk w) := by
  cases w with
  | keep => exact .refl sk s
  | set v | del => exact ⟨fun k hk => update_of_ne hk _ _, rfl⟩

section

variable {curhei : ℕ} {gst : GasExtra} {sk : List UInt8} {s s' : VMState}

/-- What is fetched from a slot: nothing, or the entry settled. -/
def Fetched (curhei : ℕ) (gst : GasExtra) (old new : Option ValueSto) : Prop :=
  new = none ∨ ∃ v v', old = some v ∧ v.settle curhei gst = .ok v' ∧ new = some v'

theorem sfetch_ok {r : VmrtRes (Option ValueSto)} (h : sfetch curhei gst sk s = (s', r)) :
    OnlySlot sk s s' ∧ ((s' = s ∧ ∃ e, r = .error e) ∨ ∃ fetched, r = .ok fetched ∧
      s'.ctrtkvdb sk = fetched ∧ Fetched curhei gst (s.ctrtkvdb sk) fetched) := by
  rw [sfetch] at h
  cases hv : s.ctrtkvdb sk with
  | none =>
    rw [hv] at h
    cases h
    exact ⟨.refl sk s, .inr ⟨none, rfl, hv, .inl rfl⟩⟩
  | some v =>
    rw [hv] at h
    cases hread : v.reload >>= fun v => v.settle curhei gst with
    | error e =>
      simp only [hread] at h
      cases h
      exact ⟨.refl sk s, .inl ⟨rfl, e, rfl⟩⟩
    | ok v' =>
      have hsettle := settle_of_reload hread
      simp only [hread] at h
      split_ifs at h with habsent
      · cases h
        exact ⟨onlySlot_write .., .inr ⟨none, rfl, write_self .., .inl rfl⟩⟩
      · cases h
        exact ⟨onlySlot_write .., .inr ⟨some v', rfl, write_self ..,
          .inr ⟨v, v', rfl, hsettle, rfl⟩⟩⟩

/-- An operation without a slot changes nothing. -/
theorem withSlot_error {α β : Type} {slot : VmrtRes (List UInt8 × α)}
    {body : α → Option ValueSto → VmrtRes (β × SlotWrite)} {e : ItrErr} (hslot : slot = .error e) :
    withSlot curhei gst slot body s = (s, .error e) := by
  subst hslot
  rfl

theorem withSlot_ok {α β : Type} {slot : VmrtRes (List UInt8 × α)} {a : α}
    {body : α → Option ValueSto → VmrtRes (β × SlotWrite)} {r : VmrtRes β}
    (hslot : slot = .ok (sk, a)) (h : withSlot curhei gst slot body s = (s', r)) :
    OnlySlot sk s s' ∧ ((s' = s ∧ ∃ e, r = .error e) ∨
      ∃ fetched, Fetched curhei gst (s.ctrtkvdb sk) fetched ∧
        ((s'.ctrtkvdb sk = fetched ∧ ∃ e, r = .error e) ∨
          ∃ b w, body a fetched = .ok (b, w) ∧ r = .ok b ∧ s'.ctrtkvdb sk = w.apply fetched)) := by
  subst hslot
  cases hfetch : sfetch curhei gst sk s with
  | mk s₁ r₁ =>
    simp only [withSlot, hfetch] at h
    obtain ⟨honly, ⟨rfl, e, rfl⟩ | ⟨fetched, rfl, hslot₁, hfetched⟩⟩ := sfetch_ok hfetch
    · cases h
      exact ⟨honly, .inl ⟨rfl, e, rfl⟩⟩
    · cases hbody : body a fetched with
      | error e =>
        simp only [hbody] at h
        cases h
        exact ⟨honly, .inr ⟨fetched, hfetched, .inl ⟨hslot₁, e, rfl⟩⟩⟩
      | ok p =>
        obtain ⟨b, w⟩ := p
        simp only [hbody] at h
        cases h
        refine ⟨honly.trans (onlySlot_write ..), .inr ⟨fetched, hfetched, .inr ⟨b, w, hbody,
          rfl, ?_⟩⟩⟩
        rw [write_self, hslot₁]

end

end Vm

end Hacash
