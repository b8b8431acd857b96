import Hacash.Chain.Durable
import Hacash.Db.BlockStore

/-!
# The engine: inserting and persisting blocks (`chain/src/apply.rs`, `engine.rs`)

`discover` is the strict path: `insert_block`, then `persist_one`. The side hash list, the caches of
recent blocks, logs and listeners are not modelled.
-/

namespace Hacash

open Lib

/-! ## What the engine is given -/

/-- `BlkPkg`: a decoded block with its bytes. -/
structure BlkPkg where
  block : Block
  data : Val

/-- An error of the consensus or of an execution. An `Abort` is fatal to the engine. -/
structure ServiceError where
  isAbort : Bool
  text : String

/-- The consensus checks and the execution of one call. The flag is `fast_sync`. -/
structure Services where
  checkIntrinsic : BlkPkg → Except ServiceError Unit
  checkBlockArrive : BlkPkg → Except ServiceError Unit
  /-- `Continue` or `Defer`. -/
  checkBlockAdmission : BlkPkg → Except ServiceError Bool
  forkChoiceKey : BlkPkg → ForkChoiceKey → Except ServiceError ForkChoiceKey
  verifyBlock : BlkPkg → Block → Except ServiceError Unit
  checkBlockBeforeExecute : BlkPkg → Block → Bool → Except ServiceError Unit
  executeBlock : Block → (Key → Option Val) → Bool → Except ServiceError ChunkDelta
  checkBlockAfterExecute : BlkPkg → ChunkDelta → (Key → Option Val) → Bool →
    Except ServiceError Unit

/-- What happens to the writes and callbacks of one call. -/
structure Outcomes where
  /-- The write of `put_block`. -/
  sideBody : Bool
  /-- The write of `put_block_available` or `commit_reorg`. -/
  canonical : Bool
  /-- The write of the root batch. -/
  rootBatch : Bool
  /-- No callback after the commit aborts. -/
  callbacks : Bool

/-- Every write succeeds. -/
def Outcomes.writesOk (o : Outcomes) : Prop :=
  o.sideBody = true ∧ o.canonical = true ∧ o.rootBatch = true

/-- The part of `EngineConfig` used here. -/
structure EngineConfig where
  unstableBlock : ℕ
  sideTreeCapacity : ℕ

/-- The fork tree, the block store, the state database, and `root_available` and `LIFE_FATAL`. -/
structure Engine where
  tree : Tree
  store : KvBlockStore
  disk : Disk
  available : Bool
  fatal : Bool

/-- Errors of the engine. -/
inductive EngineError where
  /-- "engine is stopping" -/
  | stopping
  /-- "chain state is unavailable pending root recovery" -/
  | rootUnavailable
  /-- "block height _ outside insertable range [_, _]" -/
  | outOfRange (height low high : ℕ)
  /-- "fast-sync block <_, _> does not extend head <_, _>" -/
  | notExtending (height : ℕ) (hash : Hash) (headHeight : ℕ) (headHash : Hash)
  /-- "prev block <_, _> not found" -/
  | prevNotFound (height : ℕ) (prevHash : Hash)
  /-- "chain tree invariant failed: _" -/
  | treeFatal (e : TreeError)
  /-- An error of the consensus or of the execution. -/
  | service (e : ServiceError)
  /-- `persist_fatal` of a block store error. -/
  | storeFatal (e : StoreError)
  /-- `persist_fatal` of the write of a root batch. -/
  | rootWriteFailed
  /-- `persist_fatal` of a refused root roll. -/
  | rollFatal (e : TreeError)

def EngineError.isAbort : EngineError → Bool
  | .treeFatal _ | .storeFatal _ | .rootWriteFailed | .rollFatal _ => true
  | .service e => e.isAbort
  | _ => false

/-- `ApplyAccepted`; the previous head only seeds the side hash list. -/
structure ApplyAccepted where
  pkg : BlkPkg
  inserted : Inserted
  persistBody : Bool

/-- `ApplyResult`. -/
inductive ApplyResult where
  | accepted (job : ApplyAccepted)
  | duplicate (hash : Hash)
  | orphan (parent : Hash)
  | discarded

/-- `BlockAcceptResult`. -/
inductive BlockAcceptResult where
  | accepted (height : ℕ) (confirmedTxs revertedTxs : List Hash)
  | duplicate (hash : Hash)
  | orphan (parent : Hash)
  | ignored
  | deferred

namespace Engine

variable (svc : Services) (outcomes : Outcomes) (config : EngineConfig)

/-! ## `insert_block` (apply.rs:139–303) -/

/-- A stage of `insert_block` either ends the call or hands a value on. -/
inductive Stage (α : Type) where
  | done (r : ApplyResult)
  | next (a : α)

/-- The checks against the parent block (apply.rs:190–203). -/
def checkBefore (pkg : BlkPkg) (parent : Block) (fastSync : Bool) : Except EngineError Unit := do
  if fastSync then pure () else (svc.verifyBlock pkg parent).mapError .service
  (svc.checkBlockBeforeExecute pkg parent fastSync).mapError .service

/-- The checks before execution (apply.rs:145–203): the fork key of the block. -/
def admission (e : Engine) (pkg : BlkPkg) (fastSync : Bool) :
    Except EngineError (Stage ForkChoiceKey) :=
  let height := pkg.block.height
  let prevHash := pkg.block.prevHash
  let rootHeight := heightOf e.tree.heap e.tree.root
  let headHeight := heightOf e.tree.heap e.tree.head
  let headHash := hashOf e.tree.heap e.tree.head
  if !fastSync && !e.available then .error .rootUnavailable
  else if height ≤ rootHeight ∨ headHeight + 1 < height then
    .error (.outOfRange height (rootHeight + 1) (headHeight + 1))
  else if (e.tree.find pkg.block.hash).isSome then .ok (.done (.duplicate pkg.block.hash))
  else if fastSync ∧ (prevHash ≠ headHash ∨ height ≠ satAdd64 headHeight 1) then
    .error (.notExtending height pkg.block.hash headHeight headHash)
  else match e.tree.find prevHash with
  | none => .ok (.done (.orphan prevHash))
  | some parent =>
    match identityOf e.tree.heap parent with
    | none => .error (.treeFatal .panicked)
    | some identity => do
      let key ← (svc.forkChoiceKey pkg identity.forkChoice).mapError .service
      if satAdd64 identity.block.height 1 ≠ height then
        .error (.prevNotFound (height - 1) prevHash)
      else do
        checkBefore svc pkg identity.block fastSync
        .ok (.next key)

/-- A failed execution (apply.rs:216–243): a live side branch is discarded, unless by an `Abort`. -/
def executionFailed {α : Type} (fastSync planHead : Bool) (err : ServiceError) :
    Except EngineError (Stage α) :=
  if !fastSync && !planHead && !err.isAbort then .ok (.done .discarded)
  else .error (.service err)

/-- The state a chunk is executed on; it has no dead parent (`TreeInv.getState_path`). -/
def viewOf (disk : Disk) (h : Heap) (p : ℕ) : Key → Option Val :=
  fun k => (h.getState disk p k).join

/-- Execution (apply.rs:208–243): the chunk of the executed block, and the memory with
it. -/
def execute (e : Engine) (pkg : BlkPkg) (key : ForkChoiceKey) (fastSync planHead : Bool) :
    Except EngineError (Stage (ℕ × Heap)) :=
  match e.tree.beginBlockExecution pkg.block.prevHash pkg.block key with
  | .error err => .error (.treeFatal err)
  | .ok none => .ok (.done (.orphan pkg.block.prevHash))
  | .ok (some (chunk, parent, heap)) =>
    match svc.executeBlock pkg.block (viewOf e.disk heap chunk) fastSync with
    | .error err => executionFailed fastSync planHead err
    | .ok delta =>
      match svc.checkBlockAfterExecute pkg delta (viewOf e.disk heap parent) fastSync with
      | .error err => executionFailed fastSync planHead err
      | .ok () => .ok (.next (chunk, heap.setBody chunk (.writable delta)))

/-- The commit of `insert_block`. A failed attach on a side branch discards the block; its body
stays. -/
def attachExecuted (e : Engine) (pkg : BlkPkg) (chunk : ℕ) (heap : Heap)
    (fastSync planHead persistBody : Bool) : Except EngineError ApplyResult × Engine :=
  let tree := { e.tree with heap }
  if fastSync then
    match tree.attachLinear pkg.block.prevHash chunk config.unstableBlock with
    | .error err => (.error (.treeFatal err), e)
    | .ok (inserted, tree) => (.ok (.accepted { pkg, inserted, persistBody }), { e with tree })
  else if planHead then
    match tree.attach pkg.block.prevHash chunk config.unstableBlock with
    | .error err => (.error (.treeFatal err), e)
    | .ok (inserted, tree) => (.ok (.accepted { pkg, inserted, persistBody }), { e with tree })
  else
    let (body, store) :=
      if persistBody then
        e.store.putBlock outcomes.sideBody pkg.block.height pkg.block.hash pkg.data
      else (.ok (), e.store)
    match body with
    | .error _ => (.ok .discarded, { e with store })
    | .ok () =>
      match tree.attach pkg.block.prevHash chunk config.unstableBlock with
      | .error _ => (.ok .discarded, { e with store })
      | .ok (inserted, tree) =>
        (.ok (.accepted { pkg, inserted, persistBody }),
          { e with store, tree := tree.enforceSideCapacity config.sideTreeCapacity })

def insertBlock (e : Engine) (pkg : BlkPkg) (fastSync persistBody : Bool) :
    Except EngineError ApplyResult × Engine :=
  match e.admission svc pkg fastSync with
  | .error err => (.error err, e)
  | .ok (.done r) => (.ok r, e)
  | .ok (.next key) =>
    let planHead : Bool := forkKeyOf e.tree.heap e.tree.head < key
    match e.execute svc pkg key fastSync planHead with
    | .error err => (.error err, e)
    | .ok (.done r) => (.ok r, e)
    | .ok (.next (chunk, heap)) =>
      e.attachExecuted outcomes config pkg chunk heap fastSync planHead persistBody

/-! ## `persist_one` (engine.rs:381–502) -/

/-- The block store write of `persist_one` (engine.rs:409–437). -/
def persistBlock (e : Engine) (job : ApplyAccepted) : Except EngineError Unit × Engine :=
  let pkg := job.pkg
  let height := pkg.block.height
  if !job.persistBody then (.ok (), e)
  else if job.inserted.isHead && job.inserted.reorg then
    let depth := height - heightOf e.tree.heap e.tree.root
    let canonical := (e.tree.backHashes depth).reverse
    match e.store.commitReorg outcomes.canonical height pkg.block.hash pkg.data canonical with
    | (.error err, store) => (.error (.storeFatal err), { e with store })
    | (.ok (), store) =>
      (.ok (), { e with store, tree := e.tree.enforceSideCapacity config.sideTreeCapacity })
  else if job.inserted.isHead then
    match e.store.putBlockAvailable outcomes.canonical height pkg.block.hash pkg.data with
    | (.error err, store) => (.error (.storeFatal err), { e with store })
    | (.ok (), store) => (.ok (), { e with store })
  else (.ok (), e)

/-- `roll_root` (persist.rs:16–33), with the flag `root_available` it lowers. -/
def rollRoot (e : Engine) (job : RollJob) : Except EngineError Unit × Engine :=
  let e := { e with available := false }
  match e.tree.validateRoll job with
  | .error err => (.error (.rollFatal err), e)
  | .ok () =>
    if !outcomes.rootBatch then (.error .rootWriteFailed, e)
    else
      let e := { e with disk := e.disk.write (Hacash.rootBatch e.tree.heap job) }
      match e.tree.commitRoll job with
      | (.error err, tree) => (.error (.rollFatal err), { e with tree })
      | (.ok (), tree) => (.ok (), { e with tree, available := true })

/-- The root roll a block has planned, if any. -/
def rollPlanned (e : Engine) (job : ApplyAccepted) : Except EngineError Unit × Engine :=
  match job.inserted.roll with
  | none => (.ok (), e)
  | some roll => e.rollRoot outcomes roll

def markFatal (e : Engine) : Engine := { e with fatal := true }

/-- `persist_one`: an error after the attach is fatal, an aborting callback too, but then the block
stays accepted. -/
def persistOne (e : Engine) (job : ApplyAccepted) : Except EngineError BlockAcceptResult × Engine :=
  match e.persistBlock outcomes config job with
  | (.error err, e) => (.error err, e.markFatal)
  | (.ok (), e) =>
    match e.rollPlanned outcomes job with
    | (.error err, e) => (.error err, e.markFatal)
    | (.ok (), e) =>
      let e := if job.persistBody && !outcomes.callbacks then e.markFatal else e
      (.ok (.accepted job.pkg.block.height job.inserted.confirmedTxs job.inserted.revertedTxs), e)

/-! ## `discover` (engine.rs:275–346) -/

/-- `handle_error` before the attach: an `Abort` is fatal. -/
def failed (e : Engine) (err : EngineError) : Except EngineError BlockAcceptResult × Engine :=
  (.error err, if err.isAbort then e.markFatal else e)

/-- The end of `discover`: insert in strict mode, then persist. -/
def insertAndPersist (e : Engine) (pkg : BlkPkg) : Except EngineError BlockAcceptResult × Engine :=
  match e.insertBlock svc outcomes config pkg false true with
  | (.error err, e) => e.failed err
  | (.ok (.duplicate hash), e) => (.ok (.duplicate hash), e)
  | (.ok (.orphan parent), e) => (.ok (.orphan parent), e)
  | (.ok .discarded, e) => (.ok .ignored, e)
  | (.ok (.accepted job), e) => e.persistOne outcomes config job

/-- `discover`. A fatal engine takes no block. -/
def discover (e : Engine) (pkg : BlkPkg) : Except EngineError BlockAcceptResult × Engine :=
  if e.fatal then (.error .stopping, e)
  else match svc.checkIntrinsic pkg with
  | .error err => (.error (.service err), e)
  | .ok () =>
    if (e.tree.find pkg.block.prevHash).isNone then (.ok (.orphan pkg.block.prevHash), e)
    else match svc.checkBlockArrive pkg with
    | .error err => e.failed (.service err)
    | .ok () =>
      match svc.checkBlockAdmission pkg with
      | .error err => e.failed (.service err)
      | .ok false => (.ok .deferred, e)
      | .ok true => e.insertAndPersist svc outcomes config pkg

end Engine

end Hacash
