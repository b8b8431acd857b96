import Hacash.Lib.Forest
import Hacash.State.Frame

/-!
# The fork tree (`chain/src/tree.rs`)

`Tree` is the locked `Inner` record with the memory of its chunks. Loops over links have the pointer
or the number of chunks as fuel, and a panic is `none`.
-/

namespace Hacash

open Lib

/-! ## Accessors (tree.rs:49–69) -/

/-- `height_of`; the panic on a chunk that is no block is not modelled. -/
def heightOf (h : Heap) (p : ℕ) : ℕ := ((h.origin p).bind Origin.blockHeight).getD 0

/-- The identity of the chunk at `p`, if it has one. -/
def identityOf (h : Heap) (p : ℕ) : Option BlockIdentity :=
  (h.origin p).bind Origin.blockIdentity

/-- `hash_of`; the panic on an unidentified block is not modelled. -/
def hashOf (h : Heap) (p : ℕ) : Hash := ((identityOf h p).map (·.hash)).getD (.fill 0)

/-- `fork_key_of`, with the same panic. -/
def forkKeyOf (h : Heap) (p : ℕ) : ForkChoiceKey :=
  ((identityOf h p).map (·.forkChoice)).getD ⟨[]⟩

/-- `RollJob`: `chain` is oldest-first, from the block above the old root up to
and including the new root. -/
structure RollJob where
  expectedRootHash : Hash
  expectedRootHeight : ℕ
  newRoot : ℕ
  chain : List ℕ
  deriving DecidableEq

/-- `CanonicalTxDiff`. -/
structure CanonicalTxDiff where
  confirmed : List Hash
  reverted : List Hash
  deriving DecidableEq

structure Inserted where
  isHead : Bool
  reorg : Bool
  roll : Option RollJob
  confirmedTxs : List Hash
  revertedTxs : List Hash

/-- Errors of the fork tree. `side` marks the texts of `attach_side`, which start with "side
block". -/
inductive TreeError where
  /-- An error of the chunk layer. -/
  | chunk (e : ChunkError)
  /-- "parent block <height, hash> not in tree" -/
  | parentNotInTree (side : Bool) (height : ℕ) (parentHash : Hash)
  /-- "block height _ does not follow parent height _" -/
  | heightGap (side : Bool) (height parentHeight : ℕ)
  /-- "block <height, hash> already in tree" -/
  | alreadyInTree (side : Bool) (height : ℕ) (hash : Hash)
  /-- "block <height, hash> has no execution parent" -/
  | noExecParent (side : Bool) (height : ℕ) (hash : Hash)
  /-- "block <height, hash> execution parent does not match _" -/
  | execParentMismatch (side : Bool) (height : ℕ) (hash parentHash : Hash)
  /-- "block <height, hash> does not reference execution parent _" -/
  | prevHashMismatch (height : ℕ) (hash parentHash : Hash)
  /-- "fast-sync block parent is not the canonical head" -/
  | linearNotHead
  /-- "fast-sync block is not a linear head extension" -/
  | linearNotExtension
  /-- "scheduled root must advance above _, got _" -/
  | mustAdvance (oldHeight newHeight : ℕ)
  /-- "fork tree branch broken while planning root roll" -/
  | planBranchBroken
  /-- "new head does not descend from the scheduled root" -/
  | notFromScheduledRoot
  /-- "root roll out of order: expected <_, _> but durable root is <_, _>" -/
  | outOfOrder (expectedHeight : ℕ) (expectedHash : Hash) (height : ℕ) (hash : Hash)
  /-- "root roll has an empty state chain" -/
  | emptyChain
  /-- "root roll chain length _ does not span heights <_, _>" -/
  | chainLength (length oldHeight newHeight : ℕ)
  /-- "root roll chain height jumps from _ to _" -/
  | chainHeightJump (fromHeight toHeight : ℕ)
  /-- "root roll chain chunk has no durable parent" -/
  | chainNoParent
  /-- "root roll chain breaks between heights _ and _" -/
  | chainBreaks (lower upper : ℕ)
  /-- "root roll chain does not end at the new root" -/
  | chainEnd
  /-- "root roll new root is not on the canonical head path" -/
  | notOnHeadPath
  /-- "canonical head branch broken while validating root roll" -/
  | headBranchBroken
  /-- "durable root is not disk-backed" -/
  | rootNotDisk
  /-- "root roll pruned the canonical head; engine state is inconsistent" -/
  | prunedHead
  /-- A panic of the source. -/
  | panicked
  deriving DecidableEq

/-- A chunk error as a tree error (`?`). -/
def liftChunk {α : Type} : Except ChunkError α → Except TreeError α
  | .ok a => .ok a
  | .error e => .error (.chunk e)

/-- The fork tree and the memory it lives in. -/
structure Tree where
  heap : Heap
  root : ℕ
  scheduledRoot : ℕ
  head : ℕ
  epoch : ℕ

namespace Tree

def new (heap : Heap) (rootBlock : Block) : Tree :=
  let (p, heap) := heap.newRoot rootBlock
  { heap, root := p, scheduledRoot := p, head := p, epoch := 0 }

def resetRoot (t : Tree) (rootBlock : Block) : Tree :=
  let (p, heap) := t.heap.newRoot rootBlock
  { heap, root := p, scheduledRoot := p, head := p, epoch := (t.epoch + 1) % 2 ^ 64 }

/-- The chunks of the tree, in the order the depth-first loops pop them. -/
def nodes (t : Tree) : List ℕ := visit t.heap.children t.heap.next [t.root]

/-- `Inner::find` (tree.rs:578–592): the head first, then depth-first. -/
def find (t : Tree) (hash : Hash) : Option ℕ :=
  if hashOf t.heap t.head = hash then some t.head
  else t.nodes.find? fun p => hashOf t.heap p = hash

end Tree

/-! ## Climbing parent links -/

/-- The loop `while height_of(cursor) > target { branch.push(cursor); cursor = cursor.parent()? }`,
oldest first. -/
def climb (h : Heap) (target : ℕ) : ℕ → List ℕ → ℕ → Option (List ℕ × ℕ)
  | 0, _, _ => none
  | n + 1, branch, p =>
    if target < heightOf h p then
      match h.parent p with
      | some q => climb h target n (p :: branch) q
      | none => none
    else some (branch, p)

/-- The loop `while !old.ptr_eq(new)`, which climbs both sides in step. -/
def climbBoth (h : Heap) : ℕ → List ℕ → List ℕ → ℕ → ℕ → Option (List ℕ × List ℕ)
  | 0, _, _, _, _ => none
  | n + 1, oldBranch, newBranch, old, new =>
    if old = new then some (oldBranch, newBranch)
    else
      match h.parent old, h.parent new with
      | some old', some new' =>
        climbBoth h n (old :: oldBranch) (new :: newBranch) old' new'
      | _, _ => none

/-- `canonical_tx_diff` (tree.rs:457–509). -/
def canonicalTxDiff (h : Heap) (oldHead newHead : ℕ) : Option CanonicalTxDiff := do
  let (oldBranch, old) ← climb h (heightOf h newHead) (oldHead + 1) [] oldHead
  let (newBranch, new) ← climb h (heightOf h old) (newHead + 1) [] newHead
  let (oldBranch, newBranch) ← climbBoth h (old + 1) oldBranch newBranch old new
  let oldTxs := oldBranch.flatMap h.blockTxHashes
  let newTxs := newBranch.flatMap h.blockTxHashes
  some
    { confirmed := newTxs.filter (· ∉ oldTxs)
      reverted := oldTxs.filter (· ∉ newTxs) }

namespace Tree

/-- The tree without the rolls that are planned and not committed: its scheduled root is the durable
one. -/
def durable (t : Tree) : Tree := { t with scheduledRoot := t.root }

/-! ## Planning and attaching -/

/-- `Inner::plan_roll_from` (tree.rs:596–629). -/
def planRollFrom (t : Tree) (head newRootHeight : ℕ) : Except TreeError RollJob :=
  let oldRootHeight := heightOf t.heap t.scheduledRoot
  if newRootHeight ≤ oldRootHeight then .error (.mustAdvance oldRootHeight newRootHeight)
  else match climb t.heap newRootHeight (head + 1) [] head with
  | none => .error .planBranchBroken
  | some (_, newRoot) =>
    match climb t.heap oldRootHeight (newRoot + 1) [] newRoot with
    | none => .error .planBranchBroken
    | some (chain, cursor) =>
      if cursor ≠ t.scheduledRoot then .error .notFromScheduledRoot
      else .ok
        { expectedRootHash := hashOf t.heap t.scheduledRoot
          expectedRootHeight := oldRootHeight
          newRoot, chain }

/-- The checks `attach_inner` and `attach_side` share: the parent, which the chunk must follow. -/
def checkLink (t : Tree) (side linear : Bool) (parentHash hash : Hash) (height chunk : ℕ) :
    Except TreeError ℕ :=
  match t.find parentHash with
  | none => .error (.parentNotInTree side (height - 1) parentHash)
  | some parent =>
    if height ≠ heightOf t.heap parent + 1 then
      .error (.heightGap side height (heightOf t.heap parent))
    else if (t.find hash).isSome then .error (.alreadyInTree side height hash)
    else if linear && parent ≠ t.head then .error .linearNotHead
    else match t.heap.parent chunk with
    | none => .error (.noExecParent side height hash)
    | some q =>
      if q ≠ parent then .error (.execParentMismatch side height hash parentHash)
      else .ok parent

/-- Whether a block at `height` is over the window above the scheduled root
(tree.rs:253–257). -/
def overWindow (linear : Bool) (height scheduledHeight window : ℕ) : Bool :=
  if linear then decide (satAdd64 scheduledHeight window ≤ height)
  else decide (satAdd64 scheduledHeight window < height)

/-- The roll a new head triggers (tree.rs:258–263): by one block in strict mode, else by a window.
-/
def planRoll (t : Tree) (linear : Bool) (chunk height window : ℕ) (isHead : Bool) :
    Except TreeError (Option RollJob) :=
  let scheduledHeight := heightOf t.heap t.scheduledRoot
  if isHead && overWindow linear height scheduledHeight window then
    (t.planRollFrom chunk (scheduledHeight + if linear then window else 1)).map some
  else .ok none

/-- `begin_block_execution_pinned` (tree.rs:399–432): the execution chunk and its parent. -/
def beginBlockExecution (t : Tree) (parentHash : Hash) (block : Block)
    (forkChoice : ForkChoiceKey) : Except TreeError (Option (ℕ × ℕ × Heap)) :=
  match t.find parentHash with
  | none => .ok none
  | some parent =>
    if block.height ≠ heightOf t.heap parent + 1 then
      .error (.heightGap false block.height (heightOf t.heap parent))
    else if block.prevHash ≠ parentHash then
      .error (.prevHashMismatch block.height block.hash parentHash)
    else do
      let (chunk, heap) ← liftChunk (t.heap.blockExecOn parent block forkChoice)
      .ok (some (chunk, parent, heap))

/-- What `attach_inner` does once the chunk is linked in (tree.rs:270–286). -/
def publish (t : Tree) (heap : Heap) (chunk : ℕ) (isHead reorg : Bool)
    (roll : Option RollJob) : Except TreeError (Inserted × Tree) :=
  if isHead then
    match canonicalTxDiff heap t.head chunk with
    | none => .error .panicked
    | some diff =>
      .ok ({ isHead, reorg, roll, confirmedTxs := diff.confirmed,
             revertedTxs := diff.reverted },
        { t with
          heap
          head := chunk
          epoch := (t.epoch + 1) % 2 ^ 64
          scheduledRoot := (roll.map (·.newRoot)).getD t.scheduledRoot })
  else .ok ({ isHead, reorg, roll, confirmedTxs := [], revertedTxs := [] }, { t with heap })

/-- `attach_inner` (tree.rs:202–286). -/
def attachInner (t : Tree) (parentHash : Hash) (chunk window : ℕ) (linear : Bool) :
    Except TreeError (Inserted × Tree) := do
  let height ← liftChunk (t.heap.blockHeight chunk)
  let identity ← liftChunk (t.heap.blockIdentity chunk)
  let parent ← t.checkLink false linear parentHash identity.hash height chunk
  let isHead : Bool := forkKeyOf t.heap t.head < identity.forkChoice
  let reorg := isHead && parent ≠ t.head
  if linear && (!isHead || reorg) then .error .linearNotExtension
  else do
    let roll ← t.planRoll linear chunk height window isHead
    let heap ← liftChunk (t.heap.attachBlockChild parent chunk)
    t.publish heap chunk isHead reorg roll

def attach (t : Tree) (parentHash : Hash) (chunk window : ℕ) :
    Except TreeError (Inserted × Tree) :=
  t.attachInner parentHash chunk window false

def attachLinear (t : Tree) (parentHash : Hash) (chunk window : ℕ) :
    Except TreeError (Inserted × Tree) :=
  t.attachInner parentHash chunk window true

/-- `attach_side` (tree.rs:290–327). An unidentified chunk panics here. -/
def attachSide (t : Tree) (parentHash : Hash) (chunk : ℕ) : Except TreeError Tree := do
  let height ← liftChunk (t.heap.blockHeight chunk)
  match identityOf t.heap chunk with
  | none => .error .panicked
  | some identity =>
    let parent ← t.checkLink true false parentHash identity.hash height chunk
    let heap ← liftChunk (t.heap.attachBlockChild parent chunk)
    .ok { t with heap }

/-! ## Rolling the root -/

/-- The link check of `validate_roll` (tree.rs:537–558): the last chunk of the
chain, if every link holds. -/
def checkChain (h : Heap) : ℕ → List ℕ → Except TreeError ℕ
  | prev, [] => .ok prev
  | prev, c :: chain =>
    if heightOf h c ≠ heightOf h prev + 1 then
      .error (.chainHeightJump (heightOf h prev) (heightOf h c))
    else match h.parent c with
    | none => .error .chainNoParent
    | some q =>
      if q ≠ prev then .error (.chainBreaks (heightOf h prev) (heightOf h c))
      else checkChain h c chain

/-- The climb of `validate_roll` from the head to the new root
(tree.rs:562–575). -/
def checkOnHeadPath (h : Heap) (newRoot : ℕ) : ℕ → ℕ → Except TreeError Unit
  | 0, _ => .error .headBranchBroken
  | n + 1, cursor =>
    if cursor = newRoot then .ok ()
    else if heightOf h cursor ≤ heightOf h newRoot then .error .notOnHeadPath
    else match h.parent cursor with
    | none => .error .headBranchBroken
    | some q => checkOnHeadPath h newRoot n q

/-- `Inner::validate_roll` (tree.rs:512–576). -/
def validateRoll (t : Tree) (job : RollJob) : Except TreeError Unit :=
  let currentHash := hashOf t.heap t.root
  let currentHeight := heightOf t.heap t.root
  if currentHash ≠ job.expectedRootHash ∨ currentHeight ≠ job.expectedRootHeight then
    .error (.outOfOrder job.expectedRootHeight job.expectedRootHash currentHeight currentHash)
  else if job.chain = [] then .error .emptyChain
  else if job.chain.length ≠ heightOf t.heap job.newRoot - currentHeight then
    .error (.chainLength job.chain.length currentHeight (heightOf t.heap job.newRoot))
  else do
    let last ← checkChain t.heap t.root job.chain
    if last ≠ job.newRoot then .error .chainEnd
    else checkOnHeadPath t.heap job.newRoot (t.head + 1) t.head

/-- `commit_roll` (tree.rs:355–370). The last check runs after the root moved. -/
def commitRoll (t : Tree) (job : RollJob) : Except TreeError Unit × Tree :=
  match t.validateRoll job with
  | .error e => (.error e, t)
  | .ok () =>
    if t.heap.source t.root ≠ some .disk then (.error .rootNotDisk, t)
    else match t.heap.promoteToRoot job.newRoot with
    | .error e => (.error (.chunk e), t)
    | .ok heap =>
      let t' := { t with heap, root := job.newRoot }
      if (t'.find (hashOf t'.heap t'.head)).isNone then (.error .prunedHead, t')
      else (.ok (), t')

/-! ## Side capacity (tree.rs:631–701) -/

/-- The canonical chain, oldest-first: parents of `p` until there is none. -/
def ancestry (h : Heap) : ℕ → List ℕ → ℕ → List ℕ
  | 0, chain, _ => chain
  | n + 1, chain, p =>
    match h.parent p with
    | some q => ancestry h n (p :: chain) q
    | none => p :: chain

/-- Children of canonical chunks that are not the next canonical block. -/
def sideRoots (h : Heap) : List ℕ → List ℕ
  | [] => []
  | p :: chain =>
    (h.children p).filter (fun c => (chain.head?).map (hashOf h) ≠ some (hashOf h c)) ++
      sideRoots h chain

/-- Eviction order: weakest fork choice first, then hash. -/
def evictionLe (h : Heap) (a b : ℕ) : Bool :=
  if forkKeyOf h a < forkKeyOf h b then true
  else if forkKeyOf h b < forkKeyOf h a then false
  else ¬ (hashOf h b).bytes < (hashOf h a).bytes

/-- `count_side`: chunks below the root whose hash is not canonical. -/
def countSide (h : Heap) (root : ℕ) (canonical : List Hash) : ℕ :=
  (visit h.children h.next [root]).countP fun p => hashOf h p ∉ canonical

/-- The eviction loop over the sorted side roots. -/
def evict (root capacity : ℕ) (canonical : List Hash) : List ℕ → Heap → Heap
  | [], h => h
  | weakest :: rest, h =>
    if capacity < countSide h root canonical then
      match h.parent weakest with
      | none => h
      | some parent =>
        let (removed, h') := h.removeBlockChild parent weakest
        if removed then evict root capacity canonical rest h' else h'
    else h

def enforceSideCapacity (t : Tree) (capacity : ℕ) : Tree :=
  let chain := ancestry t.heap (t.head + 1) [] t.head
  let sides := (sideRoots t.heap chain).mergeSort (evictionLe t.heap)
  { t with heap := evict t.root capacity (chain.map (hashOf t.heap)) sides t.heap }

/-- `back_hashes` (tree.rs:440–452): `(height, hash)` from `cursor` back, newest
first. -/
def backHashesFrom (h : Heap) : ℕ → ℕ → List (ℕ × Hash)
  | 0, _ => []
  | n + 1, cursor =>
    (heightOf h cursor, hashOf h cursor) ::
      match h.parent cursor with
      | some q => backHashesFrom h n q
      | none => []

def backHashes (t : Tree) (depth : ℕ) : List (ℕ × Hash) := backHashesFrom t.heap depth t.head

end Tree

end Hacash
