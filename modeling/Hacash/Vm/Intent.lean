import Hacash.Vm.Space

/-!
# The intent runtime (`vm::machine::intent`)

Intents are small maps, each owned by one contract, that live as long as a transaction. The runtime
keeps an index of owners and a table of intents.
-/

namespace Hacash

open Lib

namespace Vm

/-! ## The runtime -/

/-- `IntentRuntimeLimits`. -/
structure IntentRuntimeLimits where
  createLimit : ℕ
  keysPerIntent : ℕ
  valSizeLimit : ℕ
  keyMaxBytes : ℕ

/-- `IntentEntry`. -/
structure IntentEntry where
  kind : List UInt8
  data : KVMap

/-- `IntentRuntime`. An owner without intents has an empty bucket. -/
structure IntentRuntime where
  nextId : ℕ
  idGeneration : ℕ
  totalCreated : ℕ
  createLimit : ℕ
  keyLimit : ℕ
  keyMaxBytes : ℕ
  valSizeLimit : ℕ
  intentKeyLimit : ℕ
  owners : AList fun _ : ℕ => ContractAddress
  buckets : ContractAddress → AList fun _ : ℕ => IntentEntry

/-- A method that changes the runtime. -/
abbrev IntentM : Type → Type := EStateM ItrErr IntentRuntime

/-- The error of an intent method. -/
def intentErr (msg : String) : ItrErr := ⟨.intentError, msg⟩

/-! ### Data of an intent: `MKVMap` -/

namespace MKVMap

/-- `put`. -/
def put (m : KVMap) (k v : Value) : VmrtRes KVMap := m.put .memoryError .outOfMemory k v

/-- `get`. -/
def get (m : KVMap) (k : Value) : VmrtRes Value := m.get .memoryError k

/-- `MKVMap::remove`. -/
def remove (m : KVMap) (k : Value) : VmrtRes KVMap := m.remove .memoryError k

/-- `MKVMap::contains_key`. -/
def containsKey (m : KVMap) (k : Value) : VmrtRes Bool := m.containsKey .memoryError k

end MKVMap

open MKVMap

/-- The wider of two integer types, to which `cast_same_uint_width2` casts. -/
def UintTy.wider (a b : UintTy) : UintTy := if a.size < b.size then b else a

namespace IntentRuntime

/-- `new`. -/
def new (limits : IntentRuntimeLimits) : IntentRuntime where
  nextId := 0
  idGeneration := 0
  totalCreated := 0
  createLimit := limits.createLimit
  keyLimit := limits.keysPerIntent
  keyMaxBytes := limits.keyMaxBytes
  valSizeLimit := limits.valSizeLimit
  intentKeyLimit := limits.keysPerIntent
  owners := ∅
  buckets := fun _ => ∅

/-! ### Checks -/

/-- The id after an id, in `usize`. -/
def succId (id : ℕ) : ℕ := if id = u64Max then 1 else id + 1

/-- The loop of `next_intent_id`, with the steps that are left. -/
def nextIntentIdFrom (owners : AList fun _ : ℕ => ContractAddress) :
    (steps : ℕ) → (id : ℕ) → VmrtRes ℕ
  | 0, id => do
    check (id ∉ owners) .intentError "intent id allocation failed (invariant broken)"
    return id
  | steps + 1, id =>
    if id ∈ owners then nextIntentIdFrom owners steps (succId id) else .ok id

/-- `next_intent_id`. -/
def nextIntentId (r : IntentRuntime) : VmrtRes ℕ :=
  nextIntentIdFrom r.owners r.createLimit (succId r.idGeneration)

/-- `check_size_limit`. -/
def checkSizeLimit (r : IntentRuntime) (size : ℕ) (label : String) : VmrtRes Unit :=
  check (size ≤ r.valSizeLimit) .intentError ("intent " ++ label ++ " size exceeds limit")

/-- `owner_of`. -/
def ownerOf (r : IntentRuntime) (id : ℕ) : VmrtRes ContractAddress :=
  match r.owners.lookup id with
  | some owner => .ok owner
  | none => .error (intentErr "intent not found")

/-- `exists`. -/
def existsIntent (r : IntentRuntime) (id : ℕ) : Bool := decide (id ∈ r.owners)

/-- `is_owner`. -/
def isOwner (r : IntentRuntime) (owner : ContractAddress) (id : ℕ) : VmrtRes Bool := do
  let real ← r.ownerOf id
  return decide (real = owner)

/-- `ensure_owner`. -/
def ensureOwner (r : IntentRuntime) (owner : ContractAddress) (id : ℕ) : VmrtRes Unit := do
  let real ← r.ownerOf id
  check (real = owner) .intentError "intent is not owned by contract"

/-- `require_ref` and `require_mut`. -/
def requireRef (r : IntentRuntime) (owner : ContractAddress) (id : ℕ) : VmrtRes IntentEntry := do
  r.ensureOwner owner id
  match (r.buckets owner).lookup id with
    | some entry => return entry
    | none => .error (intentErr "intent not found")

/-- `validate_non_nil_scalar`. -/
def validateNonNilScalar (val : Value) : VmrtRes Unit :=
  match val.checkNonNilScalar .intentError with
  | .ok () => .ok ()
  | .error e => .error (intentErr (if val.isNil then "intent value cannot be nil" else e.msg))

/-- `extract_intent_key_bytes`. -/
def extractIntentKeyBytes (r : IntentRuntime) (key : Value) : VmrtRes (List UInt8) := do
  let bytes ← key.extractKeyBytes .intentError
  check (bytes.length ≤ r.keyMaxBytes) .intentError "intent key too long, max bytes but got"
  return bytes

/-- `validate_intent_key`. -/
def validateIntentKey (r : IntentRuntime) (key : Value) : VmrtRes Unit := do
  let _ ← r.extractIntentKeyBytes key
  return ()

/-- `validate_key_value_for_put`. -/
def validateKeyValueForPut (r : IntentRuntime) (key val : Value) : VmrtRes Unit :=
  validateVolatileKvPut key val r.keyMaxBytes r.valSizeLimit false .intentError

/-- `intent_value_eq` with `value_content_eq`; both values are scalars here. -/
def intentValueEq (lhs rhs : Value) : VmrtRes Bool :=
  match lhs, rhs with
  | .uint _ n, .uint _ m => .ok (n.val == m.val)
  | .bytes l, .address r =>
    if l.length = 21 then .ok (l == r.bytes)
    else .error (intentErr "cannot compare different types and")
  | .address r, .bytes l =>
    if l.length = 21 then .ok (l == r.bytes)
    else .error (intentErr "cannot compare different types and")
  | .nil, .nil => .ok true
  | .bool l, .bool r => .ok (l == r)
  | .bytes l, .bytes r => .ok (l == r)
  | .address l, .address r => .ok (decide (l = r))
  | _, _ => .error (intentErr "cannot compare different types and")

/-- `uint_add_checked_with_msg`. -/
def uintAddCheckedWithMsg (left right : Value) (msg : String) : VmrtRes Value :=
  match left, right with
  | .uint a n, .uint b m =>
    if h : n.val + m.val < 256 ^ (a.wider b).size then .ok (.uint (a.wider b) ⟨n.val + m.val, h⟩)
    else .error (intentErr msg)
  | .uint _ _, _ => .error (intentErr "intent delta must be uint")
  | _, _ => .error (intentErr "intent value must be uint")

/-- `uint_sub_checked`. -/
def uintSubChecked (left right : Value) : VmrtRes Value :=
  match left, right with
  | .uint a n, .uint b m => do
    check (m.val ≤ n.val) .intentError "intent sub underflow"
    return .uint (a.wider b) (Fin.ofNat _ (n.val - m.val))
  | .uint _ _, _ => .error (intentErr "intent delta must be uint")
  | _, _ => .error (intentErr "intent value must be uint")

/-- `ensure_insert_capacity`. -/
def ensureInsertCapacity (entry : IntentEntry) (key : Value) (intentKeyLimit : ℕ) :
    VmrtRes Bool := do
  let exist ← containsKey entry.data key
  check (exist = true ∨ entry.data.len < intentKeyLimit) .intentError
    "intent key count exceeds limit"
  return exist

/-- `prepare_put_mode`. -/
def preparePutMode (r : IntentRuntime) (owner : ContractAddress) (id : ℕ) (key val : Value) :
    VmrtRes Bool := do
  r.validateKeyValueForPut key val
  let entry ← r.requireRef owner id
  ensureInsertCapacity entry key r.intentKeyLimit

/-! ### Methods that read -/

/-- `kind`. -/
def kind (r : IntentRuntime) (owner : ContractAddress) (id : ℕ) : VmrtRes Value := do
  let entry ← r.requireRef owner id
  return .bytes entry.kind

/-- `kind_is`. -/
def kindIs (r : IntentRuntime) (owner : ContractAddress) (id : ℕ) (kind : List UInt8) :
    VmrtRes Bool := do
  let entry ← r.requireRef owner id
  return entry.kind == kind

/-- `get`. -/
def get (r : IntentRuntime) (owner : ContractAddress) (id : ℕ) (key : Value) : VmrtRes Value := do
  r.validateIntentKey key
  let entry ← r.requireRef owner id
  MKVMap.get entry.data key

/-- `has`. -/
def has (r : IntentRuntime) (owner : ContractAddress) (id : ℕ) (key : Value) : VmrtRes Bool := do
  r.validateIntentKey key
  let entry ← r.requireRef owner id
  containsKey entry.data key

/-- `len`. -/
def len (r : IntentRuntime) (owner : ContractAddress) (id : ℕ) : VmrtRes ℕ := do
  let entry ← r.requireRef owner id
  return entry.data.len

/-- `keys_sorted`. -/
def keysSorted (r : IntentRuntime) (owner : ContractAddress) (id : ℕ) :
    VmrtRes (List (List UInt8)) := do
  let entry ← r.requireRef owner id
  return entry.data.keysSorted

/-- `get_or`. -/
def getOr (r : IntentRuntime) (owner : ContractAddress) (id : ℕ) (key dflt : Value) :
    VmrtRes Value := do
  r.validateIntentKey key
  let entry ← r.requireRef owner id
  let exist ← containsKey entry.data key
  if exist then MKVMap.get entry.data key else return dflt

/-- `require`. -/
def require (r : IntentRuntime) (owner : ContractAddress) (id : ℕ) (key : Value) :
    VmrtRes Value := do
  let val ← r.get owner id key
  check (val.isNil = false) .intentError "intent key not found"
  return val

/-- `require_eq`. -/
def requireEq (r : IntentRuntime) (owner : ContractAddress) (id : ℕ) (key expected : Value) :
    VmrtRes Value := do
  validateNonNilScalar expected
  let val ← r.require owner id key
  let same ← intentValueEq val expected
  check (same = true) .intentError "intent value mismatch"
  return val

/-- `require_absent`. -/
def requireAbsent (r : IntentRuntime) (owner : ContractAddress) (id : ℕ) (key : Value) :
    VmrtRes Unit := do
  r.validateIntentKey key
  let entry ← r.requireRef owner id
  let exist ← containsKey entry.data key
  check (exist = false) .intentError "intent key already exists"

/-- The page of a list from a position on, with the end of the page. -/
def page {α : Type} (l : List α) (start limit : ℕ) : ℕ × List α :=
  (min (start + limit) l.length, (l.drop start).take limit)

/-- `keys_page`. -/
def keysPage (r : IntentRuntime) (owner : ContractAddress) (id cursor limit : ℕ) :
    VmrtRes (Option ℕ × List (List UInt8)) := do
  check (limit ≠ 0) .intentError "intent keys page limit must be positive"
  let keys ← r.keysSorted owner id
  check (cursor ≤ keys.length) .intentError "intent keys page cursor out of range"
  let (finish, kept) := page keys cursor limit
  return (if finish < keys.length then some finish else none, kept)

/-- `keys_after`; the binary search finds how many of the sorted keys are not after the start. -/
def keysAfter (r : IntentRuntime) (owner : ContractAddress) (id : ℕ) (start : Option Value)
    (limit : ℕ) : VmrtRes (Option (List UInt8) × List (List UInt8)) := do
  check (limit ≠ 0) .intentError "intent keys from limit must be positive"
  let startKey ← start.mapM r.extractIntentKeyBytes
  let keys ← r.keysSorted owner id
  let first := match startKey with
    | none => 0
    | some key => (keys.takeWhile fun x => decide (x ≤ key)).length
  let (finish, kept) := page keys first limit
  return (if finish < keys.length then kept.getLast? else none, kept)

/-- `open_ids_by_kind`. -/
def openIdsByKind (r : IntentRuntime) (owner : ContractAddress) (kind : List UInt8) : List ℕ :=
  (((r.buckets owner).entries.filter fun e => e.2.kind == kind).map fun e => e.1).mergeSort

/-- `open_kind_page`. -/
def openKindPage (r : IntentRuntime) (owner : ContractAddress) (after : Option ℕ) (limit : ℕ) :
    VmrtRes (Option ℕ × List (List UInt8)) := do
  check (limit ≠ 0) .intentError "intent open page limit must be positive"
  let ids := (r.buckets owner).keys.mergeSort
  let start := match after with
    | none => 0
    | some cursor => (ids.takeWhile fun id => decide (id ≤ cursor)).length
  let (finish, kept) := page ids start limit
  let kinds := kept.filterMap fun id => ((r.buckets owner).lookup id).map IntentEntry.kind
  return (if finish < ids.length then kept.getLast? else none, kinds)

/-- The loop of `ensure_unique_batch_keys`. -/
def uniqueKeys (r : IntentRuntime) (op : String) :
    (uniq : List (List UInt8)) → List Value → VmrtRes Unit
  | _, [] => .ok ()
  | uniq, key :: keys => do
    let bytes ← r.extractIntentKeyBytes key
    check (bytes ∉ uniq) .intentError ("intent " ++ op ++ " duplicate key in batch")
    uniqueKeys r op (bytes :: uniq) keys

/-- `ensure_unique_batch_keys`. -/
def ensureUniqueBatchKeys (r : IntentRuntime) (keys : List Value) (op : String) : VmrtRes Unit :=
  r.uniqueKeys op [] keys

/-- The loop of `has_all`. -/
def allContained (data : KVMap) : List Value → VmrtRes Bool
  | [] => .ok true
  | key :: keys => do
    let exist ← containsKey data key
    if exist then allContained data keys else return false

/-- The loop of `has_any`. -/
def anyContained (data : KVMap) : List Value → VmrtRes Bool
  | [] => .ok false
  | key :: keys => do
    let exist ← containsKey data key
    if exist then return true else anyContained data keys

/-- `has_all`. -/
def hasAll (r : IntentRuntime) (owner : ContractAddress) (id : ℕ) (keys : List Value) :
    VmrtRes Bool := do
  r.ensureUniqueBatchKeys keys "has_all"
  let entry ← r.requireRef owner id
  allContained entry.data keys

/-- `has_any`. -/
def hasAny (r : IntentRuntime) (owner : ContractAddress) (id : ℕ) (keys : List Value) :
    VmrtRes Bool := do
  r.ensureUniqueBatchKeys keys "has_any"
  let entry ← r.requireRef owner id
  anyContained entry.data keys

/-- `batch_read_core`. -/
def batchReadCore (r : IntentRuntime) (owner : ContractAddress) (id : ℕ) (keys : List Value)
    (op : String) : VmrtRes (List (List UInt8 × Value)) := do
  r.ensureUniqueBatchKeys keys op
  let entry ← r.requireRef owner id
  keys.mapM fun key => do
    let bytes ← r.extractIntentKeyBytes key
    let val ← MKVMap.get entry.data key
    check (val.isNil = false) .intentError "intent key not found"
    return (bytes, val)

/-- `require_many`. -/
def requireMany (r : IntentRuntime) (owner : ContractAddress) (id : ℕ) (keys : List Value) :
    VmrtRes (List Value) := do
  let pairs ← r.batchReadCore owner id keys "require_many"
  return pairs.map Prod.snd

/-- A `BTreeMap` of pairs: in the order of the keys. -/
def sortedPairs (pairs : List (List UInt8 × Value)) : List (List UInt8 × Value) :=
  pairs.mergeSort fun a b => decide (a.1 ≤ b.1)

/-- `require_map`. -/
def requireMap (r : IntentRuntime) (owner : ContractAddress) (id : ℕ) (keys : List Value) :
    VmrtRes (List (List UInt8 × Value)) := do
  let pairs ← r.batchReadCore owner id keys "require_map"
  return sortedPairs pairs

/-- `conditional_op_core`: the value if it is the expected one. -/
def conditionalOpCore (r : IntentRuntime) (owner : ContractAddress) (id : ℕ)
    (key expected : Value) : VmrtRes (Option Value) := do
  validateNonNilScalar expected
  let existing ← r.require owner id key
  let same ← intentValueEq existing expected
  return if same then some existing else none

/-! ### Methods that write -/

/-- The entry of an intent is replaced. -/
def setEntry (r : IntentRuntime) (owner : ContractAddress) (id : ℕ) (entry : IntentEntry) :
    IntentRuntime :=
  { r with buckets := Function.update r.buckets owner ((r.buckets owner).insert id entry) }

/-- `require_mut(owner, id)?.data`, changed by a method of the map. -/
def changeData (owner : ContractAddress) (id : ℕ) (f : KVMap → VmrtRes KVMap) : IntentM Unit :=
  fun r =>
    match r.requireRef owner id with
    | .error e => .error e r
    | .ok entry =>
      match f entry.data with
      | .error e => .error e r
      | .ok data => .ok () (r.setEntry owner id { entry with data := data })

/-- `clear`. -/
def clear (r : IntentRuntime) : IntentRuntime :=
  { r with nextId := 0, totalCreated := 0, owners := ∅, buckets := fun _ => ∅ }

/-- `reset`. -/
def reset (limits : IntentRuntimeLimits) (r : IntentRuntime) : IntentRuntime :=
  clear
    { r with
      createLimit := limits.createLimit
      keyLimit := limits.keysPerIntent
      keyMaxBytes := limits.keyMaxBytes
      valSizeLimit := limits.valSizeLimit
      intentKeyLimit := limits.keysPerIntent }

/-- `insert_entry`. -/
def insertEntry (owner : ContractAddress) (kind : List UInt8) : IntentM ℕ := do
  let nextGen ← peek nextIntentId
  modify fun r =>
    { r with
      idGeneration := nextGen
      nextId := nextGen
      totalCreated := r.totalCreated + 1
      owners := r.owners.insert nextGen owner
      buckets := Function.update r.buckets owner
        ((r.buckets owner).insert nextGen ⟨kind, .withKeyMax r.keyLimit r.keyMaxBytes⟩) }
  return nextGen

/-- `create`. -/
def create (owner : ContractAddress) (kind : List UInt8) : IntentM ℕ := do
  peek fun r => do
    check (kind ≠ []) .intentError "intent kind cannot be empty"
    r.checkSizeLimit kind.length "kind"
    check (r.openIdsByKind owner kind = []) .intentError
      "intent kind already open for this contract"
    check (r.totalCreated < r.createLimit) .intentError "intent creation limit exceeded"
  insertEntry owner kind

/-- `put`. -/
def put (owner : ContractAddress) (id : ℕ) (key val : Value) : IntentM Unit := do
  let _ ← peek (·.preparePutMode owner id key val)
  changeData owner id (MKVMap.put · key val)

/-- `take`. -/
def take (owner : ContractAddress) (id : ℕ) (key : Value) : IntentM Value := do
  let val ← peek (·.require owner id key)
  changeData owner id (remove · key)
  return val

/-- `del`. -/
def del (owner : ContractAddress) (id : ℕ) (key : Value) : IntentM Unit := do
  let _ ← peek (·.require owner id key)
  changeData owner id (remove · key)

/-- `clear_data`. -/
def clearData (owner : ContractAddress) (id : ℕ) : IntentM Unit :=
  changeData owner id fun data => .ok data.clear

/-- `replace`. -/
def replace (owner : ContractAddress) (id : ℕ) (key val : Value) : IntentM Value := do
  let old ← peek (·.require owner id key)
  put owner id key val
  return old

/-- `destroy`. -/
def destroy (owner : ContractAddress) (id : ℕ) : IntentM Unit := do
  peek (·.ensureOwner owner id)
  modify fun r =>
    { r with
      owners := r.owners.erase id
      buckets := Function.update r.buckets owner ((r.buckets owner).erase id) }

/-- `zero_uint_at_delta_width`. -/
def zeroUintAtDeltaWidth (delta : Value) (deltaErr : String) : VmrtRes Value :=
  match delta with
  | .uint ty _ => .ok (.uint ty ⟨0, Nat.pow_pos (by decide)⟩)
  | _ => .error (intentErr deltaErr)

/-- The base of `add_core`: `zeroBase` tells `MissingBase::ZeroAtDeltaWidth` from
`MissingBase::Required`. -/
def addBase (r : IntentRuntime) (owner : ContractAddress) (id : ℕ) (key delta : Value)
    (zeroBase : Bool) (deltaErr targetErr : String) : VmrtRes Value := do
  check (delta.isUint = true) .intentError deltaErr
  r.validateIntentKey key
  let entry ← r.requireRef owner id
  let exist ← containsKey entry.data key
  if exist then do
    let existing ← MKVMap.get entry.data key
    check (existing.isUint = true) .intentError targetErr
    return existing
  else if zeroBase then zeroUintAtDeltaWidth delta deltaErr
  else .error (intentErr "intent key not found")

/-- `add_core`. -/
def addCore (owner : ContractAddress) (id : ℕ) (key delta : Value) (zeroBase : Bool)
    (deltaErr targetErr overflowErr : String) : IntentM Value := do
  let base ← peek (·.addBase owner id key delta zeroBase deltaErr targetErr)
  let val ← peek fun _ => uintAddCheckedWithMsg base delta overflowErr
  put owner id key val
  return val

/-- `add`. -/
def add (owner : ContractAddress) (id : ℕ) (key delta : Value) : IntentM Value :=
  addCore owner id key delta false "intent add delta must be uint"
    "intent add target must be uint" "intent add overflow"

/-- `inc`. -/
def inc (owner : ContractAddress) (id : ℕ) (key delta : Value) : IntentM Value :=
  addCore owner id key delta true "intent inc delta must be uint"
    "intent inc target must be uint" "intent inc overflow"

/-- `sub`. -/
def sub (owner : ContractAddress) (id : ℕ) (key delta : Value) : IntentM Value := do
  let val ← peek fun r => do
    check (delta.isUint = true) .intentError "intent sub delta must be uint"
    r.validateIntentKey key
    let entry ← r.requireRef owner id
    let exist ← containsKey entry.data key
    check (exist = true) .intentError "intent key not found"
    let existing ← MKVMap.get entry.data key
    check (existing.isUint = true) .intentError "intent sub target must be uint"
    uintSubChecked existing delta
  changeData owner id (MKVMap.put · key val)
  return val

/-- The bytes of a value of `append`. -/
def appendBytes (val : Value) (msg : String) : VmrtRes (List UInt8) :=
  match val with
  | .bytes buf => .ok buf
  | _ => .error (intentErr msg)

/-- `append`. -/
def append (owner : ContractAddress) (id : ℕ) (key val : Value) : IntentM ℕ := do
  let buf ← peek fun r => do
    let newBytes ← appendBytes val "intent append value must be Bytes"
    let old ← r.require owner id key
    let buf ← appendBytes old "intent append target must be Bytes"
    r.checkSizeLimit (buf ++ newBytes).length "appended value"
    return buf ++ newBytes
  put owner id key (.bytes buf)
  return buf.length

/-- `put_if_absent`. -/
def putIfAbsent (owner : ContractAddress) (id : ℕ) (key val : Value) : IntentM Bool := do
  let existed ← peek (·.preparePutMode owner id key val)
  if existed then return false
  else do
    changeData owner id (MKVMap.put · key val)
    return true

/-- `replace_if`. -/
def replaceIf (owner : ContractAddress) (id : ℕ) (key oldVal newVal : Value) : IntentM Bool := do
  let hit ← peek fun r => do
    validateNonNilScalar newVal
    let len ← newVal.extractBytesLen .intentError
    r.checkSizeLimit len "value"
    r.conditionalOpCore owner id key oldVal
  if hit.isSome then do
    changeData owner id (MKVMap.put · key newVal)
    return true
  else return false

/-- `del_if`. -/
def delIf (owner : ContractAddress) (id : ℕ) (key oldVal : Value) : IntentM Bool := do
  let hit ← peek (·.conditionalOpCore owner id key oldVal)
  if hit.isSome then do
    changeData owner id (remove · key)
    return true
  else return false

/-- `take_if`. -/
def takeIf (owner : ContractAddress) (id : ℕ) (key oldVal : Value) : IntentM (Bool × Value) := do
  let hit ← peek (·.conditionalOpCore owner id key oldVal)
  match hit with
  | none => do
    let existing ← peek fun r => do
      let entry ← r.requireRef owner id
      MKVMap.get entry.data key
    return (false, existing)
  | some val => do
    changeData owner id (remove · key)
    return (true, val)

/-- `destroy_if_empty`. -/
def destroyIfEmpty (owner : ContractAddress) (id : ℕ) : IntentM Bool := do
  let n ← peek (·.len owner id)
  if 0 < n then return false
  else do
    destroy owner id
    return true

/-- The value that `move_key` moves. -/
def movedValue (r : IntentRuntime) (owner : ContractAddress) (id : ℕ) (srcKey dstKey : Value) :
    VmrtRes Value := do
  r.validateIntentKey srcKey
  r.validateIntentKey dstKey
  let entry ← r.requireRef owner id
  let src ← containsKey entry.data srcKey
  check (src = true) .intentError "intent source key not found"
  let dst ← containsKey entry.data dstKey
  check (dst = false) .intentError "intent destination key already exists"
  let val ← MKVMap.get entry.data srcKey
  r.validateKeyValueForPut dstKey val
  return val

/-- `move_key`. -/
def moveKey (owner : ContractAddress) (id : ℕ) (srcKey dstKey : Value) : IntentM Unit := do
  let val ← peek (·.movedValue owner id srcKey dstKey)
  changeData owner id (MKVMap.remove · srcKey)
  changeData owner id (MKVMap.put · dstKey val)

/-- The first loop of `put_many`. -/
def checkPairs (r : IntentRuntime) : (uniq : List (List UInt8)) → List (Value × Value) →
    VmrtRes Unit
  | _, [] => .ok ()
  | uniq, (key, val) :: pairs => do
    r.validateKeyValueForPut key val
    let bytes ← r.extractIntentKeyBytes key
    check (bytes ∉ uniq) .intentError "intent put_pairs duplicate key in batch"
    checkPairs r (bytes :: uniq) pairs

/-- The second loop of `put_many`: how many keys are new. -/
def countNew (data : KVMap) : List (Value × Value) → VmrtRes ℕ
  | [] => .ok 0
  | (key, _) :: pairs => do
    let exist ← containsKey data key
    let add ← countNew data pairs
    return if exist then add else add + 1

/-- `put_many`. -/
def putMany (owner : ContractAddress) (id : ℕ) (pairs : List (Value × Value)) : IntentM Unit := do
  peek fun r => do
    r.checkPairs [] pairs
    let entry ← r.requireRef owner id
    let add ← countNew entry.data pairs
    check (entry.data.len + add ≤ u64Max) .intentError "intent key count overflow"
    check (entry.data.len + add ≤ r.intentKeyLimit) .intentError "intent key count exceeds limit"
  pairs.forM fun (key, val) => changeData owner id (MKVMap.put · key val)

/-- `put_if_absent_or_match`. -/
def putIfAbsentOrMatch (owner : ContractAddress) (id : ℕ) (key val : Value) : IntentM Bool := do
  let existed ← peek (·.preparePutMode owner id key val)
  if existed then peek fun r => do
    let entry ← r.requireRef owner id
    let existing ← MKVMap.get entry.data key
    let same ← intentValueEq existing val
    check (same = true) .intentError "intent existing value mismatch"
    return false
  else do
    changeData owner id (MKVMap.put · key val)
    return true

/-- The check of `batch_remove_core` that every key is there. -/
def requireContained (data : KVMap) : List Value → VmrtRes Unit
  | [] => .ok ()
  | key :: keys => do
    let exist ← containsKey data key
    check (exist = true) .intentError "intent key not found"
    requireContained data keys

/-- `batch_remove_core`. -/
def batchRemoveCore (owner : ContractAddress) (id : ℕ) (keys : List Value) (op : String) :
    IntentM Unit := do
  peek fun r => do
    r.ensureUniqueBatchKeys keys op
    let entry ← r.requireRef owner id
    requireContained entry.data keys
  keys.forM fun key => changeData owner id (remove · key)

/-- `del_many`. -/
def delMany (owner : ContractAddress) (id : ℕ) (keys : List Value) : IntentM ℕ := do
  batchRemoveCore owner id keys "del_many"
  return keys.length

/-- What `take_many` and `take_map` share. -/
def takePairs (owner : ContractAddress) (id : ℕ) (keys : List Value) (op : String) :
    IntentM (List (List UInt8 × Value)) := do
  let pairs ← peek (·.batchReadCore owner id keys op)
  batchRemoveCore owner id keys op
  return pairs

/-- `take_many`. -/
def takeMany (owner : ContractAddress) (id : ℕ) (keys : List Value) : IntentM (List Value) := do
  let pairs ← takePairs owner id keys "take_many"
  return pairs.map Prod.snd

/-- `take_map`. -/
def takeMap (owner : ContractAddress) (id : ℕ) (keys : List Value) :
    IntentM (List (List UInt8 × Value)) := do
  let pairs ← takePairs owner id keys "take_map"
  return sortedPairs pairs

/-- `destroy_if_now_empty`. -/
def destroyIfNowEmpty (owner : ContractAddress) (id : ℕ) : IntentM Unit := do
  let n ← peek (·.len owner id)
  if n = 0 then destroy owner id else return ()

/-- `consume`. -/
def consume (owner : ContractAddress) (id : ℕ) (key : Value) : IntentM Value := do
  let val ← take owner id key
  destroyIfNowEmpty owner id
  return val

/-- `consume_many`. -/
def consumeMany (owner : ContractAddress) (id : ℕ) (keys : List Value) : IntentM (List Value) := do
  let vals ← takeMany owner id keys
  destroyIfNowEmpty owner id
  return vals

end IntentRuntime

/-! ## Operations -/

/-- What an operation answers. -/
inductive IntentOut where
  | unit
  | nat (n : ℕ)
  | bool (b : Bool)
  | value (v : Value)
  | flagged (hit : Bool) (v : Value)
  | owner (a : ContractAddress)
  | values (vs : List Value)
  | pairs (ps : List (List UInt8 × Value))
  | keys (ks : List (List UInt8))
  | ids (ids : List ℕ)
  | page (next : Option ℕ) (ks : List (List UInt8))
  | pageAfter (next : Option (List UInt8)) (ks : List (List UInt8))

/-- An operation of a contract on an intent. -/
inductive IntentOp where
  | create (kind : List UInt8)
  | put (id : ℕ) (key val : Value)
  | existsIntent (id : ℕ)
  | ownerOf (id : ℕ)
  | isOwner (id : ℕ)
  | ensureOwner (id : ℕ)
  | kind (id : ℕ)
  | kindIs (id : ℕ) (kind : List UInt8)
  | get (id : ℕ) (key : Value)
  | take (id : ℕ) (key : Value)
  | del (id : ℕ) (key : Value)
  | has (id : ℕ) (key : Value)
  | clearData (id : ℕ)
  | len (id : ℕ)
  | keysSorted (id : ℕ)
  | getOr (id : ℕ) (key dflt : Value)
  | require (id : ℕ) (key : Value)
  | requireEq (id : ℕ) (key expected : Value)
  | requireAbsent (id : ℕ) (key : Value)
  | replace (id : ℕ) (key val : Value)
  | destroy (id : ℕ)
  | append (id : ℕ) (key val : Value)
  | add (id : ℕ) (key delta : Value)
  | sub (id : ℕ) (key delta : Value)
  | inc (id : ℕ) (key delta : Value)
  | putIfAbsent (id : ℕ) (key val : Value)
  | replaceIf (id : ℕ) (key oldVal newVal : Value)
  | delIf (id : ℕ) (key oldVal : Value)
  | takeIf (id : ℕ) (key oldVal : Value)
  | destroyIfEmpty (id : ℕ)
  | keysPage (id cursor limit : ℕ)
  | moveKey (id : ℕ) (srcKey dstKey : Value)
  | keysAfter (id : ℕ) (start : Option Value) (limit : ℕ)
  | openIdsByKind (kind : List UInt8)
  | openKindPage (after : Option ℕ) (limit : ℕ)
  | putMany (id : ℕ) (pairs : List (Value × Value))
  | putIfAbsentOrMatch (id : ℕ) (key val : Value)
  | hasAll (id : ℕ) (keys : List Value)
  | hasAny (id : ℕ) (keys : List Value)
  | requireMany (id : ℕ) (keys : List Value)
  | requireMap (id : ℕ) (keys : List Value)
  | delMany (id : ℕ) (keys : List Value)
  | takeMany (id : ℕ) (keys : List Value)
  | takeMap (id : ℕ) (keys : List Value)
  | consume (id : ℕ) (key : Value)
  | consumeMany (id : ℕ) (keys : List Value)

/-- An operation of a contract is run. -/
def IntentOp.exec (owner : ContractAddress) (op : IntentOp) : IntentM IntentOut :=
  match op with
  | .create name => .nat <$> IntentRuntime.create owner name
  | .put id key val => (fun _ => .unit) <$> IntentRuntime.put owner id key val
  | .existsIntent id => peek fun r => .ok (.bool (r.existsIntent id))
  | .ownerOf id => .owner <$> peek fun r => r.ownerOf id
  | .isOwner id => .bool <$> peek fun r => r.isOwner owner id
  | .ensureOwner id => (fun _ => .unit) <$> peek fun r => r.ensureOwner owner id
  | .kind id => .value <$> peek fun r => r.kind owner id
  | .kindIs id name => .bool <$> peek fun r => r.kindIs owner id name
  | .get id key => .value <$> peek fun r => r.get owner id key
  | .take id key => .value <$> IntentRuntime.take owner id key
  | .del id key => (fun _ => .unit) <$> IntentRuntime.del owner id key
  | .has id key => .bool <$> peek fun r => r.has owner id key
  | .clearData id => (fun _ => .unit) <$> IntentRuntime.clearData owner id
  | .len id => .nat <$> peek fun r => r.len owner id
  | .keysSorted id => .keys <$> peek fun r => r.keysSorted owner id
  | .getOr id key dflt => .value <$> peek fun r => r.getOr owner id key dflt
  | .require id key => .value <$> peek fun r => r.require owner id key
  | .requireEq id key expected => .value <$> peek fun r => r.requireEq owner id key expected
  | .requireAbsent id key => (fun _ => .unit) <$> peek fun r => r.requireAbsent owner id key
  | .replace id key val => .value <$> IntentRuntime.replace owner id key val
  | .destroy id => (fun _ => .unit) <$> IntentRuntime.destroy owner id
  | .append id key val => .nat <$> IntentRuntime.append owner id key val
  | .add id key delta => .value <$> IntentRuntime.add owner id key delta
  | .sub id key delta => .value <$> IntentRuntime.sub owner id key delta
  | .inc id key delta => .value <$> IntentRuntime.inc owner id key delta
  | .putIfAbsent id key val => .bool <$> IntentRuntime.putIfAbsent owner id key val
  | .replaceIf id key oldVal newVal =>
    .bool <$> IntentRuntime.replaceIf owner id key oldVal newVal
  | .delIf id key oldVal => .bool <$> IntentRuntime.delIf owner id key oldVal
  | .takeIf id key oldVal =>
    (fun p => .flagged p.1 p.2) <$> IntentRuntime.takeIf owner id key oldVal
  | .destroyIfEmpty id => .bool <$> IntentRuntime.destroyIfEmpty owner id
  | .keysPage id cursor limit =>
    (fun p => .page p.1 p.2) <$> peek fun r => r.keysPage owner id cursor limit
  | .moveKey id srcKey dstKey =>
    (fun _ => .unit) <$> IntentRuntime.moveKey owner id srcKey dstKey
  | .keysAfter id start limit =>
    (fun p => .pageAfter p.1 p.2) <$> peek fun r => r.keysAfter owner id start limit
  | .openIdsByKind name => peek fun r => .ok (.ids (r.openIdsByKind owner name))
  | .openKindPage after limit =>
    (fun p => .page p.1 p.2) <$> peek fun r => r.openKindPage owner after limit
  | .putMany id pairs => (fun _ => .unit) <$> IntentRuntime.putMany owner id pairs
  | .putIfAbsentOrMatch id key val =>
    .bool <$> IntentRuntime.putIfAbsentOrMatch owner id key val
  | .hasAll id keys => .bool <$> peek fun r => r.hasAll owner id keys
  | .hasAny id keys => .bool <$> peek fun r => r.hasAny owner id keys
  | .requireMany id keys => .values <$> peek fun r => r.requireMany owner id keys
  | .requireMap id keys => .pairs <$> peek fun r => r.requireMap owner id keys
  | .delMany id keys => .nat <$> IntentRuntime.delMany owner id keys
  | .takeMany id keys => .values <$> IntentRuntime.takeMany owner id keys
  | .takeMap id keys => .pairs <$> IntentRuntime.takeMap owner id keys
  | .consume id key => .value <$> IntentRuntime.consume owner id key
  | .consumeMany id keys => .values <$> IntentRuntime.consumeMany owner id keys

end Vm

end Hacash
