import Hacash.Base.Types

/-!
# The block store (`db/src/block_store.rs`)

Bodies under their hash, an index from height to hash, and the height up to which the index is
complete. A write that fails changes nothing.
-/

namespace Hacash

open Lib List Overlay

/-! ## Keys (block_store.rs:10–29) -/

/-- `block_key`: namespace `0x01`. -/
def blockKey (hash : Hash) : Key := 0x01 :: hash.bytes

/-- `height_key`: namespace `0x02`. -/
def heightKey (height : ℕ) : Key := 0x02 :: beBytes 8 height

/-- `_block.cursor`. -/
def keyAvailableCursor : Key :=
  [0x5f, 0x62, 0x6c, 0x6f, 0x63, 0x6b, 0x2e, 0x63, 0x75, 0x72, 0x73, 0x6f, 0x72]

theorem blockKey_inj {a b : Hash} : blockKey a = blockKey b ↔ a = b := by
  obtain ⟨a, ha⟩ := a
  obtain ⟨b, hb⟩ := b
  simp [blockKey]

theorem heightKey_inj {a b : ℕ} (ha : a < 2 ^ 64) (hb : b < 2 ^ 64) :
    heightKey a = heightKey b ↔ a = b := by
  refine ⟨fun h => ?_, fun h => h ▸ rfl⟩
  simp only [heightKey, cons.injEq, true_and] at h
  exact beBytes_injective (w := 8) (by norm_num; exact ha) (by norm_num; exact hb) h

theorem heightKey_ne_blockKey (height : ℕ) (hash : Hash) : heightKey height ≠ blockKey hash := by
  simp [heightKey, blockKey]

theorem blockKey_ne_cursor (hash : Hash) : blockKey hash ≠ keyAvailableCursor := by
  simp [blockKey, keyAvailableCursor]

theorem heightKey_ne_cursor (height : ℕ) : heightKey height ≠ keyAvailableCursor := by
  simp [heightKey, keyAvailableCursor]

/-! ## The store -/

/-- Errors of the block store. -/
inductive StoreError where
  /-- "genesis block must not be stored in BlockStore" -/
  | genesisStored
  /-- "cannot append available block _ after cursor _" -/
  | appendGap (height current : ℕ)
  /-- "canonical reorg path is empty" -/
  | emptyPath
  /-- "canonical reorg path ends at <_, _> instead of <_, _>" -/
  | pathEnd (lastHeight : ℕ) (lastHash : Hash) (height : ℕ) (hash : Hash)
  /-- "canonical reorg path is not contiguous at heights _ and _" -/
  | notContiguous (lower upper : ℕ)
  /-- "genesis block must not be indexed in BlockStore" -/
  | genesisIndexed
  /-- "cannot index missing block _ at height _" -/
  | missingBlock (hash : Hash) (height : ℕ)
  /-- "block height index is malformed: expected 32 bytes, got _" -/
  | malformedIndex (size : ℕ)
  /-- "block available cursor is malformed: expected 8 bytes, got _" -/
  | malformedCursor (size : ℕ)
  /-- "block height index references missing body at height _ hash _" -/
  | missingBody (height : ℕ) (hash : Hash)
  /-- The error of the database's own write. -/
  | writeFailed
  deriving DecidableEq

def readHashRet (disk : Disk) (key : Key) : Except StoreError (Option Hash) :=
  match disk key with
  | none => .ok none
  | some bytes =>
    if h : bytes.length = 32 then .ok (some ⟨bytes, h⟩) else .error (.malformedIndex bytes.length)

/-- `raw_cursor`: a missing cursor is 0. -/
def rawCursor (disk : Disk) : Except StoreError ℕ :=
  match disk keyAvailableCursor with
  | none => .ok 0
  | some raw => if raw.length = 8 then .ok (beValue raw) else .error (.malformedCursor raw.length)

/-- `KvBlockStore`: the database and the cursor in memory. -/
structure KvBlockStore where
  block : Disk
  tip : ℕ

namespace KvBlockStore

def new (block : Disk) : Except StoreError KvBlockStore := do
  let tip ← rawCursor block
  .ok { block, tip }

/-- Write a batch and then move the cursor in memory; a failed write changes nothing. -/
def commit (store : KvBlockStore) (writeOk : Bool) (batch : MemKV) (tip : ℕ) :
    Except StoreError Unit × KvBlockStore :=
  if writeOk then (.ok (), { block := store.block.write batch, tip })
  else (.error .writeFailed, store)

def putBlock (store : KvBlockStore) (writeOk : Bool) (height : ℕ) (hash : Hash) (data : Val) :
    Except StoreError Unit × KvBlockStore :=
  if height = 0 then (.error .genesisStored, store)
  else store.commit writeOk (empty.put (blockKey hash) data) store.tip

def putBlockAvailable (store : KvBlockStore) (writeOk : Bool) (height : ℕ) (hash : Hash)
    (data : Val) : Except StoreError Unit × KvBlockStore :=
  if height = 0 then (.error .genesisStored, store)
  else if height ≠ satAdd64 store.tip 1 then (.error (.appendGap height store.tip), store)
  else
    let batch := empty.put (blockKey hash) data
    let batch := batch.put (heightKey height) hash.bytes
    let batch := batch.put keyAvailableCursor (beBytes 8 height)
    store.commit writeOk batch height

def readByHash (store : KvBlockStore) (hash : Hash) : Option Val := store.block (blockKey hash)

def hashByHeight (store : KvBlockStore) (height : ℕ) : Except StoreError (Option Hash) :=
  readHashRet store.block (heightKey height)

def readByHeight (store : KvBlockStore) (height : ℕ) : Except StoreError (Option (Hash × Val)) :=
  match store.hashByHeight height with
  | .error e => .error e
  | .ok none => .ok none
  | .ok (some hash) =>
    match store.readByHash hash with
    | none => .error (.missingBody height hash)
    | some data => .ok (some (hash, data))

def availableCursor (store : KvBlockStore) : Option ℕ :=
  if 0 < store.tip then some store.tip else none

/-- The loop over `canonical.windows(2)`; the heights are joined by `checked_add`. -/
def checkContiguous : List (ℕ × Hash) → Except StoreError Unit
  | a :: b :: rest =>
    if a.1 < u64Max ∧ a.1 + 1 = b.1 then checkContiguous (b :: rest)
    else .error (.notContiguous a.1 b.1)
  | _ => .ok ()

/-- The loop that looks for the bodies of the path. -/
def checkBodies (store : KvBlockStore) (hash : Hash) : List (ℕ × Hash) → Except StoreError Unit
  | [] => .ok ()
  | (canonicalHeight, canonicalHash) :: rest =>
    if canonicalHeight = 0 then .error .genesisIndexed
    else if canonicalHash ≠ hash ∧ (store.readByHash canonicalHash).isNone then
      .error (.missingBlock canonicalHash canonicalHeight)
    else store.checkBodies hash rest

/-- The checks of `commit_reorg` (block_store.rs:121–153). -/
def checkReorg (store : KvBlockStore) (height : ℕ) (hash : Hash)
    (canonical : List (ℕ × Hash)) : Except StoreError Unit :=
  if height = 0 then .error .genesisStored
  else match canonical.getLast? with
  | none => .error .emptyPath
  | some (lastHeight, lastHash) =>
    if lastHeight ≠ height ∨ lastHash ≠ hash then
      .error (.pathEnd lastHeight lastHash height hash)
    else do
      checkContiguous canonical
      store.checkBodies hash canonical

/-- The batch of `commit_reorg` (block_store.rs:155–167). -/
def reorgBatch (store : KvBlockStore) (height : ℕ) (hash : Hash) (data : Val)
    (canonical : List (ℕ × Hash)) : MemKV :=
  let batch := empty.put (blockKey hash) data
  let batch := batch.putAll (canonical.map fun entry => (heightKey entry.1, entry.2.bytes))
  let batch := batch.delAll ((range' (height + 1) (store.tip - height)).map heightKey)
  batch.put keyAvailableCursor (beBytes 8 height)

def commitReorg (store : KvBlockStore) (writeOk : Bool) (height : ℕ) (hash : Hash) (data : Val)
    (canonical : List (ℕ × Hash)) : Except StoreError Unit × KvBlockStore :=
  match store.checkReorg height hash canonical with
  | .error e => (.error e, store)
  | .ok () => store.commit writeOk (store.reorgBatch height hash data canonical) height

/-! ## What the operations leave behind -/

variable {store store' : KvBlockStore} {writeOk : Bool} {height h : ℕ} {hash x : Hash} {data : Val}
  {canonical : List (ℕ × Hash)} {disk : Disk}

variable {key : Key} {e : StoreError}

theorem readHashRet_of_bytes (hk : disk key = some hash.bytes) :
    readHashRet disk key = .ok (some hash) := by
  simp [readHashRet, hk, hash.size]

theorem readHashRet_of_none (hk : disk key = none) : readHashRet disk key = .ok none := by
  rw [readHashRet, hk]

theorem readHashRet_congr {disk' : Disk} (hk : disk' key = disk key) :
    readHashRet disk' key = readHashRet disk key := by
  rw [readHashRet, readHashRet, hk]

theorem rawCursor_congr {disk' : Disk} (hk : disk' keyAvailableCursor = disk keyAvailableCursor) :
    rawCursor disk' = rawCursor disk := by
  rw [rawCursor, rawCursor, hk]

theorem rawCursor_of_bytes (hh : height < 2 ^ 64)
    (hk : disk keyAvailableCursor = some (beBytes 8 height)) : rawCursor disk = .ok height := by
  simp [rawCursor, hk, beValue_beBytes (w := 8) (n := height) (by norm_num; exact hh)]

theorem commit_ok {batch : MemKV} {tip : ℕ}
    (hs : store.commit writeOk batch tip = (.ok (), store')) :
    writeOk = true ∧ store' = { block := store.block.write batch, tip } := by
  unfold commit at hs
  split at hs
  · next hw => exact ⟨hw, (congrArg Prod.snd hs).symm⟩
  · cases hs

theorem commit_error {batch : MemKV} {tip : ℕ}
    (hs : store.commit writeOk batch tip = (.error e, store')) :
    writeOk = false ∧ store' = store := by
  unfold commit at hs
  split at hs
  · cases hs
  next hw => exact ⟨Bool.not_eq_true _ ▸ hw, (congrArg Prod.snd hs).symm⟩

/-- **A failed reorganisation changes nothing.** -/
theorem commitReorg_error
    (hs : store.commitReorg writeOk height hash data canonical = (.error e, store')) :
    store' = store := by
  unfold commitReorg at hs
  split at hs
  · exact (congrArg Prod.snd hs).symm
  · exact (commit_error hs).2

theorem putBlock_ok (hs : store.putBlock writeOk height hash data = (.ok (), store')) :
    store'.tip = store.tip ∧ rawCursor store'.block = rawCursor store.block ∧
      (∀ h, store'.hashByHeight h = store.hashByHeight h) ∧
      ∀ x, store'.readByHash x = if x = hash then some data else store.readByHash x := by
  unfold putBlock at hs
  split at hs
  · cases hs
  obtain ⟨-, rfl⟩ := commit_ok hs
  have hother : ∀ {k}, k ≠ blockKey hash →
      store.block.write (empty.put (blockKey hash) data) k = store.block k :=
    fun hk => apply_of_none (put_other _ _ hk) _
  refine ⟨rfl, ?_, fun h => ?_, fun x => ?_⟩
  · exact rawCursor_congr (hother (blockKey_ne_cursor hash).symm)
  · exact readHashRet_congr (hother (heightKey_ne_blockKey h hash))
  · show store.block.write _ (blockKey x) = _
    split
    · next hx => exact apply_of_some (hx ▸ put_self ..) _
    · next hx => exact hother fun h => hx (blockKey_inj.mp h)

theorem putBlock_error
    (hs : store.putBlock writeOk height hash data = (.error e, store')) : store' = store := by
  unfold putBlock at hs
  split at hs
  · exact (congrArg Prod.snd hs).symm
  · exact (commit_error hs).2

/-- The branch `canonical` was indexed, up to the block `hash` at `height`, the cursor now. -/
structure Reindexed (store store' : KvBlockStore) (height : ℕ) (hash : Hash) (data : Val)
    (canonical : List (ℕ × Hash)) : Prop where
  tip : store'.tip = height
  cursor : rawCursor store'.block = .ok height
  indexed : ∀ {h c}, (h, c) ∈ canonical → store'.hashByHeight h = .ok (some c)
  dropped : ∀ {h}, height < h → h ≤ store.tip → store'.hashByHeight h = .ok none
  kept : ∀ {h}, h < 2 ^ 64 → (∀ c, (h, c) ∉ canonical) → ¬ (height < h ∧ h ≤ store.tip) →
    store'.hashByHeight h = store.hashByHeight h
  body : ∀ x, store'.readByHash x = if x = hash then some data else store.readByHash x

theorem checkContiguous_ok : ∀ {l : List (ℕ × Hash)}, checkContiguous l = .ok () →
    l.IsChain fun a b => a.1 < u64Max ∧ a.1 + 1 = b.1
  | [], _ => .nil
  | [_], _ => .singleton _
  | a :: b :: rest, hs => by
    unfold checkContiguous at hs
    split at hs
    · next hab => exact .cons_cons hab (checkContiguous_ok hs)
    · cases hs

/-- A contiguous path has increasing heights. -/
theorem pairwise_of_contiguous (hs : checkContiguous canonical = .ok ()) :
    canonical.Pairwise fun a b => a.1 < b.1 := by
  have htrans : IsTrans (ℕ × Hash) fun a b => a.1 < b.1 := ⟨fun _ _ _ => lt_trans⟩
  refine isChain_iff_pairwise.mp ((checkContiguous_ok hs).imp fun a b hab => ?_)
  omega

theorem reindexed_of_batch (hh : height < 2 ^ 64) (htip : store.tip < 2 ^ 64)
    (hpair : canonical.Pairwise fun a b => a.1 < b.1) (hle : ∀ e ∈ canonical, e.1 ≤ height) :
    Reindexed store
      { block := store.block.write (store.reorgBatch height hash data canonical), tip := height }
      height hash data canonical := by
  have hlt : ∀ e ∈ canonical, e.1 < 2 ^ 64 := fun e he => (hle e he).trans_lt hh
  -- the index keys the batch deletes
  have hstale : ∀ {h}, h < 2 ^ 64 →
      (heightKey h ∈ (range' (height + 1) (store.tip - height)).map heightKey ↔
        height < h ∧ h ≤ store.tip) := by
    intro h hlt
    simp only [mem_map, mem_range'_1]
    constructor
    · rintro ⟨a, ha, heq⟩
      obtain rfl := (heightKey_inj (by omega) hlt).mp heq
      omega
    · intro ha
      exact ⟨h, by omega, rfl⟩
  refine
    { tip := rfl, cursor := ?_, indexed := ?_, dropped := ?_, kept := ?_, body := ?_ }
  · have hval : store.block.write (store.reorgBatch height hash data canonical)
        keyAvailableCursor = some (beBytes 8 height) :=
      apply_of_some (put_self ..) _
    exact rawCursor_of_bytes hh hval
  · intro h c hc
    refine readHashRet_of_bytes (apply_of_some ?_ _)
    have hnot : heightKey h ∉ (range' (height + 1) (store.tip - height)).map heightKey := by
      rw [hstale (hlt _ hc)]
      have := hle _ hc
      omega
    rw [reorgBatch, put_other _ _ (heightKey_ne_cursor h), delAll_of_not_mem hnot]
    refine putAll_of_mem (pairwise_map.mpr (hpair.imp_of_mem ?_))
      (mem_map.mpr ⟨(h, c), hc, rfl⟩)
    intro a b ha hb hab heq
    exact hab.ne ((heightKey_inj (hlt a ha) (hlt b hb)).mp heq)
  · intro h hgt hle'
    refine readHashRet_of_none (apply_of_some ?_ _)
    rw [reorgBatch, put_other _ _ (heightKey_ne_cursor h)]
    exact delAll_of_mem ((hstale (hle'.trans_lt htip)).mpr ⟨hgt, hle'⟩)
  · intro h hlt' hnot hout
    refine readHashRet_congr (apply_of_none ?_ _)
    rw [reorgBatch, put_other _ _ (heightKey_ne_cursor h),
      delAll_of_not_mem fun hmem => hout ((hstale hlt').mp hmem),
      putAll_of_not_mem, put_other _ _ (heightKey_ne_blockKey h hash)]
    · rfl
    · intro kv hkv heq
      obtain ⟨e, he, rfl⟩ := mem_map.mp hkv
      obtain rfl := (heightKey_inj (hlt e he) hlt').mp heq
      exact hnot e.2 he
  · intro x
    have hbatch : store.reorgBatch height hash data canonical (blockKey x) =
        (empty.put (blockKey hash) data) (blockKey x) := by
      rw [reorgBatch, put_other _ _ (blockKey_ne_cursor x), delAll_of_not_mem,
        putAll_of_not_mem]
      · intro kv hkv heq
        obtain ⟨e, -, rfl⟩ := mem_map.mp hkv
        exact heightKey_ne_blockKey _ _ heq
      · intro hmem
        obtain ⟨a, -, heq⟩ := mem_map.mp hmem
        exact heightKey_ne_blockKey _ _ heq
    show store.block.write _ (blockKey x) = _
    split
    · next hx =>
      subst hx
      exact apply_of_some (hbatch.trans (put_self ..)) _
    · next hx =>
      refine apply_of_none (hbatch.trans ?_) _
      exact put_other _ _ fun heq => hx (blockKey_inj.mp heq)

/-- A path that ends at `height` in increasing heights does not go above it. -/
theorem le_of_getLast {last : Hash} (hpair : canonical.Pairwise fun a b => a.1 < b.1)
    (hlast : canonical.getLast? = some (height, last)) : ∀ e ∈ canonical, e.1 ≤ height := by
  obtain ⟨pre, rfl⟩ := getLast?_eq_some_iff.mp hlast
  intro e he
  rcases mem_append.mp he with he | he
  · exact ((pairwise_append.mp hpair).2.2 e he _ (mem_singleton_self _)).le
  · rw [mem_singleton.mp he]

theorem commitReorg_ok (hh : height < 2 ^ 64) (htip : store.tip < 2 ^ 64)
    (hs : store.commitReorg writeOk height hash data canonical = (.ok (), store')) :
    Reindexed store store' height hash data canonical := by
  unfold commitReorg at hs
  split at hs
  · cases hs
  next hcheck =>
    obtain ⟨-, rfl⟩ := commit_ok hs
    unfold checkReorg at hcheck
    split_ifs at hcheck
    split at hcheck
    · cases hcheck
    next lastHeight lastHash hlast =>
      split_ifs at hcheck with hend
      rw [not_or, not_not, not_not] at hend
      obtain ⟨_, hcont, -⟩ := bind_eq_ok hcheck
      have hpair := pairwise_of_contiguous hcont
      exact reindexed_of_batch hh htip hpair (le_of_getLast hpair (hend.1 ▸ hlast))

theorem putBlockAvailable_ok (hh : height < u64Max) (htip : store.tip < 2 ^ 64)
    (hs : store.putBlockAvailable writeOk height hash data = (.ok (), store')) :
    height = store.tip + 1 ∧ Reindexed store store' height hash data [(height, hash)] := by
  unfold putBlockAvailable at hs
  split at hs
  · cases hs
  split at hs
  · cases hs
  next hgap =>
    rw [not_not, satAdd64, u64Max] at hgap
    rw [u64Max] at hh
    have heq : height = store.tip + 1 := by omega
    have hzero : store.tip - height = 0 := by omega
    obtain ⟨-, rfl⟩ := commit_ok hs
    refine ⟨heq, ?_⟩
    have h : Reindexed store _ height hash data [(height, hash)] :=
      reindexed_of_batch (by omega) htip (pairwise_singleton _ _)
        fun e he => (by rw [mem_singleton.mp he])
    rwa [reorgBatch, hzero] at h

/-- Only a failed write stops the next block. -/
theorem writeFailed_of_next (hh : height < u64Max) (hnext : height = store.tip + 1)
    (hs : store.putBlockAvailable writeOk height hash data = (.error e, store')) :
    writeOk = false := by
  have hsat : height = satAdd64 store.tip 1 := by
    rw [satAdd64, ← hnext, min_eq_left hh.le]
  rw [putBlockAvailable, if_neg (by omega), if_neg (not_not.mpr hsat)] at hs
  exact (commit_error hs).1

theorem writeFailed_of_checked (hcheck : store.checkReorg height hash canonical = .ok ())
    (hs : store.commitReorg writeOk height hash data canonical = (.error e, store')) :
    writeOk = false := by
  rw [commitReorg, hcheck] at hs
  exact (commit_error hs).1

end KvBlockStore

end Hacash
