import Hacash.Chain.Engine

/-!
# What `insert_block` does

`InsertStep` lists the ways a strict `insert_block` can end, and every call is one of them
(`insertStep`).
-/

namespace Hacash

open Lib Heap

variable {svc : Services} {outcomes : Outcomes} {config : EngineConfig} {e e' : Engine}
  {pkg : BlkPkg} {key : ForkChoiceKey} {fastSync planHead : Bool} {chunk : ℕ} {heap : Heap}

namespace Engine

/-- A successful `mapError` succeeded before it. -/
theorem mapError_eq_ok {ε ε' α : Type} {x : Except ε α} {f : ε → ε'} {a : α}
    (hs : x.mapError f = .ok a) : x = .ok a := by
  cases x with
  | error e => cases hs
  | ok b =>
    cases hs
    rfl

/-- What is known of a block that passed the checks before execution. -/
structure Admitted (svc : Services) (e : Engine) (pkg : BlkPkg) (fastSync : Bool)
    (key : ForkChoiceKey) : Prop where
  available : fastSync = false → e.available = true
  above : heightOf e.tree.heap e.tree.root < pkg.block.height
  new : e.tree.find pkg.block.hash = none
  forkKey : ∃ parent identity, e.tree.find pkg.block.prevHash = some parent ∧
    identityOf e.tree.heap parent = some identity ∧
    svc.forkChoiceKey pkg identity.forkChoice = .ok key

theorem admission_next (hs : e.admission svc pkg fastSync = .ok (.next key)) :
    Admitted svc e pkg fastSync key := by
  unfold admission at hs
  dsimp only at hs
  split at hs
  · cases hs
  next h1 =>
  split at hs
  · cases hs
  next h2 =>
  split at hs
  · cases hs
  next h3 =>
  split at hs
  · cases hs
  split at hs
  · cases hs
  next parent hparent =>
  split at hs
  · cases hs
  next identity hid =>
  obtain ⟨key', hkey, hs⟩ := bind_eq_ok hs
  split at hs
  · cases hs
  obtain ⟨_, -, hs⟩ := bind_eq_ok hs
  cases hs
  refine ⟨fun hf => ?_, ?_, ?_, parent, identity, hparent, hid, mapError_eq_ok hkey⟩
  · simpa [hf] using h1
  · omega
  · simpa using h3

/-- What is known of a block that was executed. -/
structure Executed (svc : Services) (e : Engine) (pkg : BlkPkg) (key : ForkChoiceKey)
    (fastSync : Bool) (chunk : ℕ) (heap : Heap) : Prop where
  begun : ∃ parent heap₀ delta,
    e.tree.beginBlockExecution pkg.block.prevHash pkg.block key =
        .ok (some (chunk, parent, heap₀)) ∧
      svc.executeBlock pkg.block (viewOf e.disk heap₀ chunk) fastSync = .ok delta ∧
      heap = heap₀.setBody chunk (.writable delta)

theorem execute_next (hs : e.execute svc pkg key fastSync planHead = .ok (.next (chunk, heap))) :
    Executed svc e pkg key fastSync chunk heap := by
  have hfail : ∀ {err : ServiceError}, executionFailed fastSync planHead err ≠
      .ok (.next (chunk, heap)) := by
    intro err h
    unfold executionFailed at h
    split_ifs at h
    cases h
  unfold execute at hs
  split at hs
  · cases hs
  · cases hs
  next chunk' parent heap₀ hbegin =>
    split at hs
    · exact absurd hs hfail
    next delta hexec =>
      split at hs
      · exact absurd hs hfail
      · cases hs
        exact ⟨parent, heap₀, delta, hbegin, hexec, rfl⟩

/-- The chunk of an executed block, in the memory after it. -/
structure ExecChunk (e : Engine) (pkg : BlkPkg) (key : ForkChoiceKey) (chunk parent : ℕ)
    (delta : ChunkDelta) (heap : Heap) : Prop where
  ext : Heap.Extends e.tree.heap heap
  found : e.tree.find pkg.block.prevHash = some parent
  height : pkg.block.height = heightOf e.tree.heap parent + 1
  fresh : chunk = e.tree.heap.next
  origin : heap.origin chunk =
    some (.block pkg.block.height (some ⟨pkg.block.hash, pkg.block, key⟩))
  source : heap.source chunk = some (.parent parent)
  body : heap.body chunk = some (.writable delta)

theorem Executed.execChunk (ex : Executed svc e pkg key fastSync chunk heap) :
    ∃ parent heap₀ delta, ExecChunk e pkg key chunk parent delta heap ∧
      (∀ q, q ≠ chunk → heap₀.cell q = e.tree.heap.cell q) ∧
      heap₀.source chunk = some (.parent parent) ∧ heap₀.layer chunk = Overlay.empty ∧
      svc.executeBlock pkg.block (viewOf e.disk heap₀ chunk) fastSync = .ok delta := by
  obtain ⟨parent, heap₀, delta, hbegin, hexec, rfl⟩ := ex.begun
  obtain ⟨hfind, hheight, hprev, hon⟩ := beginBlockExecution_ok hbegin
  have ext := (Heap.ExecStep.blockExec hon).extends
  obtain ⟨rfl, hnext, hcell, hold⟩ := blockExecOn_ok hon
  have hw : heap₀.writable e.tree.heap.next = some .default := by
    rw [writable, body, hcell]
    rfl
  refine ⟨parent, heap₀, delta, ?_, hold, by rw [source, hcell]; rfl,
    by rw [layer, body, hcell]; rfl, hexec⟩
  refine
    { ext := ext.trans (.setBody hw), found := hfind, height := hheight, fresh := rfl
      origin := ?_, source := ?_, body := ?_ }
  · rw [origin_setBody, origin, hcell]
    rfl
  · rw [source_setBody, source, hcell]
    rfl
  · exact body_setBody_self hcell

namespace ExecChunk

variable {parent : ℕ} {delta : ChunkDelta}

section

variable (ec : ExecChunk e pkg key chunk parent delta heap)
include ec

theorem identity : identityOf heap chunk = some ⟨pkg.block.hash, pkg.block, key⟩ := by
  rw [identityOf, ec.origin]
  rfl

theorem heightOf_chunk : heightOf heap chunk = pkg.block.height := by
  rw [heightOf, ec.origin]
  rfl

theorem hashOf_chunk : hashOf heap chunk = pkg.block.hash :=
  hashOf_of_identityOf ec.identity

theorem forkKeyOf_chunk : forkKeyOf heap chunk = key :=
  forkKeyOf_of_identityOf ec.identity

end

end ExecChunk

/-- The ways a strict `insert_block` of a block whose body is to be stored can end. -/
inductive InsertStep (svc : Services) (outcomes : Outcomes) (config : EngineConfig) (e : Engine)
    (pkg : BlkPkg) : Except EngineError ApplyResult × Engine → Prop
  | refused {r : Except EngineError ApplyResult} (notAccepted : ∀ job, r ≠ .ok (.accepted job)) :
      InsertStep svc outcomes config e pkg (r, e)
  /-- The body of a side block was stored, but the block was not attached. -/
  | bodyOnly {store : KvBlockStore}
      (stored : e.store.putBlock outcomes.sideBody pkg.block.height pkg.block.hash pkg.data =
        (.ok (), store)) :
      InsertStep svc outcomes config e pkg (.ok .discarded, { e with store })
  | head {key : ForkChoiceKey} {chunk : ℕ} {heap : Heap} {inserted : Inserted} {tree : Tree}
      (adm : Admitted svc e pkg false key) (ex : Executed svc e pkg key false chunk heap)
      (plan : forkKeyOf e.tree.heap e.tree.head < key)
      (ok : ({ e.tree with heap } : Tree).attach pkg.block.prevHash chunk config.unstableBlock =
        .ok (inserted, tree)) :
      InsertStep svc outcomes config e pkg
        (.ok (.accepted { pkg, inserted, persistBody := true }), { e with tree })
  | side {key : ForkChoiceKey} {chunk : ℕ} {heap : Heap} {inserted : Inserted} {tree : Tree}
      {store : KvBlockStore}
      (adm : Admitted svc e pkg false key) (ex : Executed svc e pkg key false chunk heap)
      (plan : ¬ forkKeyOf e.tree.heap e.tree.head < key)
      (stored : e.store.putBlock outcomes.sideBody pkg.block.height pkg.block.hash pkg.data =
        (.ok (), store))
      (ok : ({ e.tree with heap } : Tree).attach pkg.block.prevHash chunk config.unstableBlock =
        .ok (inserted, tree)) :
      InsertStep svc outcomes config e pkg
        (.ok (.accepted { pkg, inserted, persistBody := true }),
          { e with store, tree := tree.enforceSideCapacity config.sideTreeCapacity })

theorem admission_done {r : ApplyResult} (hs : e.admission svc pkg fastSync = .ok (.done r))
    (job : ApplyAccepted) : r ≠ .accepted job := by
  rintro rfl
  unfold admission at hs
  dsimp only at hs
  split at hs
  · cases hs
  split at hs
  · cases hs
  split at hs
  · cases hs
  split at hs
  · cases hs
  split at hs
  · cases hs
  split at hs
  · cases hs
  obtain ⟨key', -, hs⟩ := bind_eq_ok hs
  split at hs
  · cases hs
  obtain ⟨_, -, hs⟩ := bind_eq_ok hs
  cases hs

theorem execute_done {r : ApplyResult}
    (hs : e.execute svc pkg key fastSync planHead = .ok (.done r)) (job : ApplyAccepted) :
    r ≠ .accepted job := by
  rintro rfl
  have hfail : ∀ {err : ServiceError}, executionFailed (α := ℕ × Heap) fastSync planHead err ≠
      .ok (.done (.accepted job)) := by
    intro err h
    unfold executionFailed at h
    split at h <;> cases h
  unfold execute at hs
  split at hs
  · cases hs
  · cases hs
  split at hs
  · exact hfail hs
  split at hs
  · exact hfail hs
  · cases hs

/-- **Every strict `insert_block` is one of these.** -/
theorem insertStep : InsertStep svc outcomes config e pkg
    (e.insertBlock svc outcomes config pkg false true) := by
  unfold insertBlock
  split
  · exact .refused fun _ h => by cases h
  next r hr => exact .refused fun job h => admission_done hr job (by cases h; rfl)
  next key hadm =>
    dsimp only
    split
    · exact .refused fun _ h => by cases h
    next r hr => exact .refused fun job h => execute_done hr job (by cases h; rfl)
    next chunk heap hex =>
      have adm := admission_next hadm
      have ex := execute_next hex
      unfold attachExecuted
      dsimp only
      rw [if_neg Bool.false_ne_true]
      by_cases plan : forkKeyOf e.tree.heap e.tree.head < key
      · rw [if_pos (decide_eq_true plan)]
        split
        · exact .refused fun _ h => by cases h
        next hok => exact .head adm ex plan hok
      · rw [if_neg (by simpa using plan)]
        rw [if_pos rfl]
        rcases hput : e.store.putBlock outcomes.sideBody pkg.block.height pkg.block.hash pkg.data
          with ⟨err | _, store⟩
        · obtain rfl := KvBlockStore.putBlock_error hput
          exact .refused fun _ h => by cases h
        · dsimp only
          split
          · exact .bodyOnly hput
          next hok => exact .side adm ex plan hput hok

end Engine

end Hacash
