import Hacash.Base.Types

/-!
# State chunks (`base/src/state/chunk.rs`)

`Heap` is the memory of the chunks: a reference is a pointer that is never reused, and an empty cell
is a chunk that has been dropped. A panic is `none`.
-/

namespace Hacash

open Lib Function Option

/-- `BlockIdentity`: the identity an attachable block chunk carries. -/
structure BlockIdentity where
  hash : Hash
  block : Block
  forkChoice : ForkChoiceKey
  deriving DecidableEq

/-- `Origin`. A block without identity is a detached draft. -/
inductive Origin where
  | block (height : ℕ) (identity : Option BlockIdentity)
  | tx (txHash : Hash)
  | ast (depth : ℕ)
  deriving DecidableEq

namespace Origin

def isBlock : Origin → Bool
  | block .. => true
  | _ => false

def isExec : Origin → Bool
  | tx _ | ast _ => true
  | _ => false

/-- `block_height()?`. -/
def blockHeight : Origin → Option ℕ
  | block height _ => some height
  | _ => none

/-- `block_identity()?`. -/
def blockIdentity : Origin → Option BlockIdentity
  | block _ identity => identity
  | _ => none

end Origin

open Origin

/-- An identity is that of the block at hand: its hash and its height. -/
def Origin.Proper : Origin → Prop
  | .block height (some identity) =>
    identity.hash = identity.block.hash ∧ identity.block.height = height
  | _ => True

theorem Origin.proper_block (block : Block) (forkChoice : ForkChoiceKey) :
    (Origin.block block.height (some ⟨block.hash, block, forkChoice⟩)).Proper := ⟨rfl, rfl⟩

theorem Origin.proper_tx (txHash : Hash) : (Origin.tx txHash).Proper := trivial

theorem Origin.proper_ast (depth : ℕ) : (ast depth).Proper := trivial

/-- `LogEntry`. -/
structure LogEntry where
  topic : String
  data : List UInt8
  deriving DecidableEq

/-- `ChunkDelta`: what a chunk adds to its parent. -/
structure ChunkDelta where
  state : MemKV
  logs : List LogEntry
  txHashes : List Hash

/-- `ChunkDelta::default()`. -/
def ChunkDelta.default : ChunkDelta := ⟨Overlay.empty, [], []⟩

/-- `ChunkBody`. A frozen chunk keeps the contents of its delta. -/
inductive ChunkBody where
  | writable (delta : ChunkDelta)
  | frozen (delta : ChunkDelta)
  | consumed

namespace ChunkBody

/-- `ChunkBody::writable`. -/
def asWritable : ChunkBody → Option ChunkDelta
  | writable delta => some delta
  | _ => none

/-- The state layer of the chunk at `p`. -/
def layer : ChunkBody → MemKV
  | writable delta => delta.state
  | frozen delta => delta.state
  | consumed => Overlay.empty

/-- `block_logs` of a chunk with this body. -/
def logs : ChunkBody → List LogEntry
  | writable delta => delta.logs
  | frozen delta => delta.logs
  | consumed => []

/-- `block_tx_hashes` of a chunk with this body. -/
def txHashes : ChunkBody → List Hash
  | writable delta => delta.txHashes
  | frozen delta => delta.txHashes
  | consumed => []

/-- `frozen_state().is_some()`. -/
def isFrozen : ChunkBody → Bool
  | frozen _ => true
  | _ => false

/-- `ChunkBody::freeze`: the frozen body, or `none` when it was not writable. -/
def freeze : ChunkBody → Option ChunkBody
  | writable delta => some (frozen delta)
  | _ => none

end ChunkBody

open ChunkBody

/-- `Source`: the weak parent link, or the state database. -/
inductive Source where
  | parent (p : ℕ)
  | disk
  deriving DecidableEq

/-- `StateChunk`. -/
structure StateChunk where
  origin : Origin
  source : Source
  body : ChunkBody
  children : List ℕ

/-- Errors of chunk operations, one for each message of chunk.rs. -/
inductive ChunkError where
  /-- "block execution parent is not a block chunk" -/
  | execParentNotBlock
  /-- "transaction child requires a writable block chunk" -/
  | txChildNeedsWritableBlock
  /-- "AST execution depth overflow" -/
  | astDepthOverflow
  /-- "AST child requires a transaction context" -/
  | astChildNeedsTx
  /-- "AST parent chunk is already finalized" -/
  | astParentFinalized
  /-- "only Tx/Ast chunks may commit to a parent" -/
  | commitNotExec
  /-- "detached execution chunk has no commit parent" -/
  | commitNoParent
  /-- "invalid execution chunk parent relationship" -/
  | commitBadRelation
  /-- "execution chunk parent is already finalized" -/
  | commitParentFinalized
  /-- "execution chunk already finalized" -/
  | alreadyFinalized
  /-- "only Tx/Ast chunks may be discarded explicitly" -/
  | discardNotExec
  /-- "state chunk is not a block" -/
  | notBlock
  /-- "block chunk has no attachable identity" -/
  | noIdentity
  /-- "fork-tree parent is not a block chunk" -/
  | treeParentNotBlock
  /-- "block chunk has no fork-tree parent" -/
  | treeNoParent
  /-- "block chunk parent does not match attach target" -/
  | treeParentMismatch
  /-- "block chunk is already attached or finalized" -/
  | alreadyAttached
  /-- "only a frozen block chunk can become the durable root" -/
  | promoteNotFrozenBlock
  /-- "state chunk is already disk-backed" -/
  | alreadyDiskBacked
  deriving DecidableEq, Repr

/-- The memory the chunks live in. `next` is the next fresh address. -/
structure Heap where
  next : ℕ
  cell : ℕ → Option StateChunk
  /-- Nothing is allocated from `next` on. -/
  fresh : ∀ p, next ≤ p → cell p = none
  /-- A parent is older than the chunk that reads from it. -/
  older : ∀ {p c q}, cell p = some c → c.source = .parent q → q < p
  /-- A retained child is younger than the chunk that retains it. -/
  younger : ∀ {p c q}, cell p = some c → q ∈ c.children → p < q ∧ q < next
  /-- An identified chunk carries the hash and the height of its block. -/
  proper : ∀ {p c}, cell p = some c → c.origin.Proper

namespace Heap

variable {h : Heap} {p q : ℕ} {c : StateChunk}

/-- The empty memory. -/
def empty : Heap where
  next := 0
  cell _ := none
  fresh _ _ := rfl
  older hc := by cases hc
  younger hc := by cases hc
  proper hc := by cases hc

theorem lt_next (hc : h.cell p = some c) : p < h.next := by
  by_contra hge
  rw [h.fresh p (Nat.le_of_not_lt hge)] at hc
  cases hc

/-! ## Memory updates -/

/-- Allocate a chunk without children at `h.next`. -/
def alloc (h : Heap) (origin : Origin) (source : Source) (body : ChunkBody)
    (horg : origin.Proper) (hsrc : ∀ q, source = .parent q → q < h.next) : Heap where
  next := h.next + 1
  cell := update h.cell h.next (some ⟨origin, source, body, []⟩)
  fresh p hp := by
    rw [update_of_ne (by omega)]
    exact h.fresh p (by omega)
  older {p c q} hc hq := by
    by_cases hp : p = h.next
    · subst hp
      rw [update_self, some.injEq] at hc
      subst hc
      exact hsrc q hq
    · rw [update_of_ne hp] at hc
      exact h.older hc hq
  younger {p c q} hc hq := by
    by_cases hp : p = h.next
    · subst hp
      rw [update_self, some.injEq] at hc
      subst hc
      cases hq
    · rw [update_of_ne hp] at hc
      have := h.younger hc hq
      exact ⟨this.1, by omega⟩
  proper {p c} hc := by
    by_cases hp : p = h.next
    · subst hp
      rw [update_self, some.injEq] at hc
      exact hc ▸ horg
    · rw [update_of_ne hp] at hc
      exact h.proper hc

/-- Rewrite the cell at `p`, keeping its origin and keeping its source or making it
disk-backed. -/
def modify (h : Heap) (p : ℕ) (f : StateChunk → StateChunk)
    (horg : ∀ c, (f c).origin = c.origin)
    (hsrc : ∀ c, (f c).source = c.source ∨ (f c).source = .disk)
    (hkids : ∀ c q, h.cell p = some c → q ∈ (f c).children → p < q ∧ q < h.next) :
    Heap where
  next := h.next
  cell := update h.cell p ((h.cell p).map f)
  fresh q hq := by
    by_cases hqp : q = p
    · subst hqp
      rw [update_self, h.fresh q hq]
      rfl
    · rw [update_of_ne hqp]
      exact h.fresh q hq
  older {r c q} hc hq := by
    by_cases hr : r = p
    · subst hr
      rw [update_self, map_eq_some_iff] at hc
      obtain ⟨c₀, hc₀, rfl⟩ := hc
      rcases hsrc c₀ with hs | hs
      · exact h.older hc₀ (hs ▸ hq)
      · rw [hs] at hq
        cases hq
    · rw [update_of_ne hr] at hc
      exact h.older hc hq
  younger {r c q} hc hq := by
    by_cases hr : r = p
    · subst hr
      rw [update_self, map_eq_some_iff] at hc
      obtain ⟨c₀, hc₀, rfl⟩ := hc
      exact hkids c₀ q hc₀ hq
    · rw [update_of_ne hr] at hc
      exact h.younger hc hq
  proper {r c} hc := by
    by_cases hr : r = p
    · subst hr
      rw [update_self, map_eq_some_iff] at hc
      obtain ⟨c₀, hc₀, rfl⟩ := hc
      rw [horg]
      exact h.proper hc₀
    · rw [update_of_ne hr] at hc
      exact h.proper hc

/-- Replace the body of the chunk at `p`. -/
def setBody (h : Heap) (p : ℕ) (body : ChunkBody) : Heap :=
  h.modify p (fun c => { c with body := body }) (fun _ => rfl) (fun _ => Or.inl rfl)
    fun _ _ hc hq => h.younger hc hq

@[simp] theorem next_setBody {b : ChunkBody} : (h.setBody p b).next = h.next := rfl

/-- Make the chunk at `p` read from the state database. -/
def setDisk (h : Heap) (p : ℕ) : Heap :=
  h.modify p (fun c => { c with source := .disk }) (fun _ => rfl) (fun _ => Or.inr rfl)
    fun _ _ hc hq => h.younger hc hq

/-- Push `q` on the children of `p`. -/
def pushChild (h : Heap) (p q : ℕ) (hpq : p < q) (hq : q < h.next) : Heap :=
  h.modify p (fun c => { c with children := c.children ++ [q] }) (fun _ => rfl)
    (fun _ => Or.inl rfl) fun _ r hc hr => by
      rcases List.mem_append.mp hr with hr | hr
      · exact h.younger hc hr
      · rw [List.mem_singleton] at hr
        exact hr ▸ ⟨hpq, hq⟩

/-- `children.retain(|c| !ptr_eq(c, q))` at `p`. -/
def dropChild (h : Heap) (p q : ℕ) : Heap :=
  h.modify p (fun c => { c with children := c.children.filter (· ≠ q) })
    (fun _ => rfl) (fun _ => Or.inl rfl) fun _ _ hc hr => h.younger hc (List.mem_of_mem_filter hr)

theorem eq_some_of_update_none {f : ℕ → Option StateChunk} {p r : ℕ} {c : StateChunk}
    (hc : update f p none r = some c) : f r = some c := by
  by_cases hr : r = p
  · subst hr
    rw [update_self] at hc
    cases hc
  · rwa [update_of_ne hr] at hc

/-- The last strong reference to the chunk at `p` is gone. -/
def free (h : Heap) (p : ℕ) : Heap where
  next := h.next
  cell := update h.cell p none
  fresh q hq := by
    by_cases hqp : q = p
    · subst hqp
      rw [update_self]
    · rw [update_of_ne hqp]
      exact h.fresh q hq
  older hc hq := h.older (eq_some_of_update_none hc) hq
  younger hc hq := h.younger (eq_some_of_update_none hc) hq
  proper hc := h.proper (eq_some_of_update_none hc)

/-! ## Accessors (chunk.rs:323–408) -/

/-- `StateChunkRef::parent`: upgrade the weak parent link. -/
def parent (h : Heap) (p : ℕ) : Option ℕ :=
  match h.cell p with
  | some c =>
    match c.source with
    | .parent q => if (h.cell q).isSome then some q else none
    | .disk => none
  | none => none

theorem parent_lt {p q : ℕ} (h : Heap) (hq : h.parent p = some q) : q < p ∧ p < h.next := by
  unfold parent at hq
  split at hq
  · next c hc =>
    split at hq
    · next r hr =>
      split at hq
      · cases hq
        exact ⟨h.older hc hr, h.lt_next hc⟩
      · cases hq
    · cases hq
  · cases hq

def children (h : Heap) (p : ℕ) : List ℕ :=
  ((h.cell p).map (·.children)).getD []

/-- The origin of the chunk at `p`. -/
def origin (h : Heap) (p : ℕ) : Option Origin := (h.cell p).map (·.origin)

/-- The source of the chunk at `p`. -/
def source (h : Heap) (p : ℕ) : Option Source := (h.cell p).map (·.source)

/-- The body of the chunk at `p`. -/
def body (h : Heap) (p : ℕ) : Option ChunkBody := (h.cell p).map (·.body)

/-- `block_height()?`. -/
def blockHeight (h : Heap) (p : ℕ) : Except ChunkError ℕ :=
  match (h.origin p).bind Origin.blockHeight with
  | some height => .ok height
  | none => .error .notBlock

/-- `block_identity()?`. -/
def blockIdentity (h : Heap) (p : ℕ) : Except ChunkError BlockIdentity :=
  match (h.origin p).bind Origin.blockIdentity with
  | some identity => .ok identity
  | none => .error .noIdentity

def blockTxHashes (h : Heap) (p : ℕ) : List Hash :=
  ((h.body p).map txHashes).getD []

def blockLogs (h : Heap) (p : ℕ) : List LogEntry :=
  ((h.body p).map logs).getD []

/-- The delta of a chunk that is still writable (`is_writable`). -/
def writable (h : Heap) (p : ℕ) : Option ChunkDelta :=
  (h.body p).bind asWritable

def frozenState (h : Heap) (p : ℕ) : Option MemKV :=
  match h.body p with
  | some (.frozen delta) => some delta.state
  | _ => none

/-- The state layer of the chunk at `p`. -/
def layer (h : Heap) (p : ℕ) : MemKV :=
  ((h.body p).map ChunkBody.layer).getD Overlay.empty

/-! ## Reads (chunk.rs:476–509) -/

/-- `get_state` with fuel. A dropped parent is the panic "state chunk parent
expired while its view was in use". -/
def getStateFrom (disk : Disk) (h : Heap) (k : Key) : ℕ → ℕ → Option (Option Val)
  | 0, _ => none
  | n + 1, p =>
    match h.cell p with
    | none => none
    | some c =>
      match c.body.layer k with
      | some value => some value
      | none =>
        match c.source with
        | .disk => some (disk k)
        | .parent q => getStateFrom disk h k n q

/-- `StateChunkRef::get_state`. Parents are older, so `p` is fuel enough. -/
def getState (disk : Disk) (h : Heap) (p : ℕ) (k : Key) : Option (Option Val) :=
  getStateFrom disk h k (p + 1) p

/-! ## Creation (chunk.rs:192–287) -/

/-- `StateChunkRef::new_root`: a disk-backed frozen block. -/
def newRoot (h : Heap) (block : Block) : ℕ × Heap :=
  (h.next, h.alloc
    (.block block.height (some ⟨block.hash, block, .fromHeight block.height⟩))
    .disk (.frozen .default) (proper_block block _) (fun _ hq => by cases hq))

/-- Allocate a writable chunk that reads from the live chunk `parent`. -/
def allocOn (h : Heap) (parent : ℕ) (origin : Origin) (horg : origin.Proper)
    {c : StateChunk} (hc : h.cell parent = some c) : ℕ × Heap :=
  (h.next, h.alloc origin (.parent parent) (.writable .default) horg fun q hq => by
    cases hq
    exact h.lt_next hc)

def blockExecOn (h : Heap) (parent : ℕ) (block : Block) (forkChoice : ForkChoiceKey) :
    Except ChunkError (ℕ × Heap) :=
  match hc : h.cell parent with
  | none => .error .execParentNotBlock
  | some c =>
    if c.origin.isBlock then
      .ok (h.allocOn parent
        (.block block.height (some ⟨block.hash, block, forkChoice⟩))
        (proper_block block _) hc)
    else .error .execParentNotBlock

def spawnTxChild (h : Heap) (self : ℕ) (txHash : Hash) : Except ChunkError (ℕ × Heap) :=
  match hc : h.cell self with
  | none => .error .txChildNeedsWritableBlock
  | some c =>
    if c.origin.isBlock && c.body.asWritable.isSome then
      .ok (h.allocOn self (.tx txHash) (proper_tx _) hc)
    else .error .txChildNeedsWritableBlock

/-- The depth of an AST child (chunk.rs:264–271): `u32::checked_add`. -/
def astDepth : Origin → Except ChunkError ℕ
  | .tx _ => .ok 1
  | .ast depth => if depth + 1 < 2 ^ 32 then .ok (depth + 1) else .error .astDepthOverflow
  | .block .. => .error .astChildNeedsTx

def spawnAstChild (h : Heap) (self : ℕ) : Except ChunkError (ℕ × Heap) :=
  match hc : h.cell self with
  | none => .error .astChildNeedsTx
  | some c => do
    let depth ← astDepth c.origin
    if c.body.asWritable.isSome then
      .ok (h.allocOn self (.ast depth) (proper_ast _) hc)
    else .error .astParentFinalized

/-! ## Writes, commit and discard (chunk.rs:281–321, 523–542) -/

/-- `set`; `none` is the panic "attempted to mutate finalized state chunk". -/
def set (h : Heap) (p : ℕ) (k : Key) (v : Val) : Option Heap :=
  (h.writable p).map fun δ => h.setBody p (.writable { δ with state := δ.state.put k v })

/-- `del`, with the same panic. -/
def del (h : Heap) (p : ℕ) (k : Key) : Option Heap :=
  (h.writable p).map fun δ => h.setBody p (.writable { δ with state := δ.state.del k })

/-- `emit_log`, with the same panic. -/
def emitLog (h : Heap) (p : ℕ) (entry : LogEntry) : Option Heap :=
  (h.writable p).map fun δ => h.setBody p (.writable { δ with logs := δ.logs ++ [entry] })

/-- The parent relation a commit accepts: Tx in Block, Ast in Tx or Ast. -/
def commitRelation : Origin → Origin → Bool
  | .tx _, .block .. => true
  | .ast _, .tx _ => true
  | .ast _, .ast _ => true
  | _, _ => false

/-- The hash a committed transaction chunk adds after its own ones. -/
def commitHash : Origin → List Hash
  | .tx txHash => [txHash]
  | _ => []

/-- The parent's delta after a child with origin `origin` and delta `child` was
merged into it. -/
def mergeDelta (origin : Origin) (target child : ChunkDelta) : ChunkDelta where
  state := child.state.onto target.state
  logs := target.logs ++ child.logs
  txHashes := target.txHashes ++ (child.txHashes ++ commitHash origin)

/-- `commit_to_parent`: the parent pointer and the memory after the merge. -/
def commitToParent (h : Heap) (self : ℕ) : Except ChunkError (ℕ × Heap) :=
  match h.cell self with
  | none => .error .commitNotExec
  | some c =>
    if !c.origin.isExec then .error .commitNotExec
    else match h.parent self with
    | none => .error .commitNoParent
    | some parent =>
      match h.cell parent with
      | none => .error .commitNoParent
      | some pc =>
        if !commitRelation c.origin pc.origin then .error .commitBadRelation
        else match pc.body.asWritable with
        | none => .error .commitParentFinalized
        | some target =>
          match c.body.asWritable with
          | none => .error .alreadyFinalized
          | some child =>
            .ok (parent, (h.setBody self .consumed).setBody parent
              (.writable (mergeDelta c.origin target child)))

def discard (h : Heap) (self : ℕ) : Except ChunkError Heap :=
  match h.cell self with
  | none => .error .discardNotExec
  | some c =>
    if !c.origin.isExec then .error .discardNotExec
    else if c.body.asWritable.isSome then .ok (h.setBody self .consumed)
    else .error .alreadyFinalized

/-! ## Fork-tree links (chunk.rs:402–433, 467–478) -/

/-- `attach_block_child`: freeze `child` and retain it. -/
def attachBlockChild (h : Heap) (self child : ℕ) : Except ChunkError Heap :=
  match h.origin self with
  | some (.block ..) =>
    match hpar : h.parent child with
    | none => .error .treeNoParent
    | some parent =>
      if hself : self = parent then do
        let _ ← h.blockIdentity child
        match (h.body child).bind freeze with
        | none => .error .alreadyAttached
        | some body =>
          .ok ((h.setBody child body).pushChild self child
            (hself ▸ (h.parent_lt hpar).1) (next_setBody.symm ▸ (h.parent_lt hpar).2))
      else .error .treeParentMismatch
  | _ => .error .treeParentNotBlock

/-- `remove_block_child`: whether `child` was retained, and the memory without
it. -/
def removeBlockChild (h : Heap) (self child : ℕ) : Bool × Heap :=
  (decide (child ∈ h.children self), h.dropChild self child)

def promoteToRoot (h : Heap) (p : ℕ) : Except ChunkError Heap :=
  match h.cell p with
  | none => .error .promoteNotFrozenBlock
  | some c =>
    if !(c.origin.isBlock && c.body.isFrozen) then .error .promoteNotFrozenBlock
    else if c.source = .disk then .error .alreadyDiskBacked
    else .ok (h.setDisk p)

end Heap

end Hacash
