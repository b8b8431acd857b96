import Hacash.Chain.Insert

/-!
# The block store follows the fork tree (strict mode)

`StoreInv` relates the cursor, the index and the bodies of the store to the tree between two blocks.
**Key result**: `store_agrees`.
-/

namespace Hacash

open Lib List KvBlockStore Engine Hacash.Tree

variable {t t' : Tree} {store store' : KvBlockStore} {l : List ℕ} {a b x : ℕ} {h : Heap}
  {hash : Hash} {height : ℕ} {data : Val}

/-! ## The branch `back_hashes` reads -/

/-- What the index says of a chunk. -/
def indexEntry (h : Heap) (p : ℕ) : ℕ × Hash := (heightOf h p, hashOf h p)

/-- `back_hashes` from the end of a path reads the path backwards. -/
theorem TreeInv.backHashesFrom_path (inv : TreeInv t) (ha : t.InTree a) :
    ∀ (l : List ℕ) {b : ℕ}, Path t.heap.children a l b →
      backHashesFrom t.heap l.length b = (l.map (indexEntry t.heap)).reverse := by
  intro l
  induction l using reverseRecOn with
  | nil =>
    intro b _
    rfl
  | append_singleton l x ih =>
    intro b hl
    obtain ⟨p, hp, hx, rfl⟩ := Path.snoc_iff.mp hl
    have hpar := inv.parent_child (ha.trans hp.reach) hx
    rw [length_append, length_singleton, backHashesFrom, hpar]
    dsimp only
    rw [ih hp]
    simp [indexEntry]

/-- From the head back to the root, oldest first, `back_hashes` is the canonical branch. -/
theorem TreeInv.backHashes_canonical (inv : TreeInv t) (hl : Path t.heap.children t.root l t.head) :
    (t.backHashes (heightOf t.heap t.head - heightOf t.heap t.root)).reverse =
      l.map (indexEntry t.heap) := by
  have hlen := inv.height_path t.inTree_root hl
  rw [backHashes, hlen, Nat.add_sub_cancel_left,
    inv.backHashesFrom_path t.inTree_root l hl, reverse_reverse]

theorem TreeInv.checkContiguous_path (inv : TreeInv t) : ∀ {l : List ℕ} {a b : ℕ}, t.InTree a →
    Path t.heap.children a l b →
    checkContiguous (l.map (indexEntry t.heap)) = .ok ()
  | [], _, _, _, _ => rfl
  | [_], _, _, _, _ => rfl
  | c :: d :: l, a, b, ha, hl => by
    have hc := ha.tail hl.1
    have hstep := inv.height hc hl.2.1
    obtain ⟨_, _, _, ho, -⟩ := inv.attached hc
    have hlt := heightOf_lt ho
    have ih := inv.checkContiguous_path hc hl.2
    rw [map_cons] at ih
    rw [map_cons, map_cons, checkContiguous, if_pos, ← map_cons]
    · exact ih
    · exact ⟨hlt, hstep.symm⟩

theorem KvBlockStore.checkBodies_of_forall : ∀ {entries : List (ℕ × Hash)},
    (∀ e ∈ entries, e.1 ≠ 0 ∧ (e.2 = hash ∨ (store.readByHash e.2).isSome)) →
      store.checkBodies hash entries = .ok ()
  | [], _ => rfl
  | e :: entries, hall => by
    obtain ⟨h0, hbody⟩ := hall e mem_cons_self
    have hnot : ¬ (e.2 ≠ hash ∧ (store.readByHash e.2).isNone) := by
      rintro ⟨hne, hnone⟩
      rcases hbody with hbody | hbody
      · exact hne hbody
      · rw [Option.isNone_iff_eq_none] at hnone
        rw [hnone] at hbody
        cases hbody
    rw [checkBodies, if_neg h0, if_neg hnot]
    exact checkBodies_of_forall fun e he => hall e (mem_cons_of_mem _ he)

/-! ## The invariant -/

/-- Block store and fork tree between two blocks. -/
structure StoreInv (t : Tree) (store : KvBlockStore) : Prop where
  tip : store.tip = heightOf t.heap t.head
  cursor : rawCursor store.block = .ok store.tip
  /-- Canonical blocks above the root are indexed. -/
  index : ∀ {x}, t.InTree x → x ≠ t.root → Reach t.heap.children x t.head →
    store.hashByHeight (heightOf t.heap x) = .ok (some (hashOf t.heap x))
  above : ∀ {h}, store.tip < h → h < 2 ^ 64 → store.hashByHeight h = .ok none
  /-- Every block of the tree above the root has its body stored, on any branch. -/
  body : ∀ {x}, t.InTree x → x ≠ t.root → (store.readByHash (hashOf t.heap x)).isSome
  indexed : ∀ {h hash}, h < 2 ^ 64 → store.hashByHeight h = .ok (some hash) →
    (store.readByHash hash).isSome

/-- The heights of a tree are below 2^64. -/
theorem TreeInv.heightOf_lt (inv : TreeInv t) (hx : t.InTree x) : heightOf t.heap x < u64Max := by
  obtain ⟨_, _, _, ho, -⟩ := inv.attached hx
  exact Hacash.heightOf_lt ho

theorem TreeInv.not_inTree_linked (inv : TreeInv t) {h' : Heap} {par child : ℕ}
    (hl : Linked t.heap h' par child) : ¬ t.InTree child := by
  intro hin
  obtain ⟨_, _, _, -, hfrozen⟩ := inv.attached hin
  obtain ⟨_, hwritable, -⟩ := hl.froze
  rw [hfrozen] at hwritable
  cases hwritable

namespace StoreInv

section

variable (si : StoreInv t store)
include si

theorem shrink (hhead : t'.head = t.head)
    (hheadIn : t.InTree t.head)
    (hin : ∀ {x}, t'.InTree x → t.InTree x)
    (hroot : ∀ {x}, t'.InTree x → x ≠ t'.root → x ≠ t.root)
    (hreach : ∀ {x}, Reach t'.heap.children x t.head → Reach t.heap.children x t.head)
    (horg : ∀ {x}, t.InTree x → t'.heap.origin x = t.heap.origin x) : StoreInv t' store := by
  have hheight : ∀ {x}, t.InTree x → heightOf t'.heap x = heightOf t.heap x := by
    intro x hx
    rw [heightOf, horg hx, heightOf]
  have hhash : ∀ {x}, t.InTree x → hashOf t'.heap x = hashOf t.heap x := by
    intro x hx
    rw [hashOf, identityOf, horg hx, hashOf, identityOf]
  refine
    { tip := ?_, cursor := si.cursor, index := ?_, above := si.above, body := ?_
      indexed := si.indexed }
  · rw [hhead, hheight hheadIn, si.tip]
  · intro x hx hne hr
    rw [hhead] at hr
    rw [hheight (hin hx), hhash (hin hx)]
    exact si.index (hin hx) (hroot hx hne) (hreach hr)
  · intro x hx hne
    rw [hhash (hin hx)]
    exact si.body (hin hx) (hroot hx hne)

theorem putBlock {writeOk : Bool}
    (hs : store.putBlock writeOk height hash data = (.ok (), store')) :
    StoreInv t store' ∧ (store'.readByHash hash).isSome := by
  obtain ⟨htip, hcur, hidx, hbody⟩ := putBlock_ok hs
  have hmono : ∀ {x}, (store.readByHash x).isSome → (store'.readByHash x).isSome := by
    intro x hx
    rw [hbody]
    split
    · rfl
    · exact hx
  refine ⟨⟨htip.trans si.tip, ?_, ?_, ?_, ?_, ?_⟩, by rw [hbody, if_pos rfl]; rfl⟩
  · rw [hcur, htip, si.cursor]
  · intro x hx hne hr
    rw [hidx, si.index hx hne hr]
  · intro h hgt hlt
    rw [hidx]
    exact si.above (htip ▸ hgt) hlt
  · exact fun hx hne => hmono (si.body hx hne)
  · intro h c hlt hc
    rw [hidx] at hc
    exact hmono (si.indexed hlt hc)

variable {h' : Heap} {par chunk : ℕ} {canonical : List (ℕ × Hash)}

section

variable (inv : TreeInv t)
include inv

/-- A side block with its body stored. -/
theorem addSide (hl : Linked t.heap h' par chunk)
    (hpar : t.InTree par) (hbody : (store.readByHash (hashOf t.heap chunk)).isSome) :
    StoreInv { t with heap := h' } store := by
  have hnew := inv.not_inTree_linked hl
  have hin : ∀ {x}, ({ t with heap := h' } : Tree).InTree x → t.InTree x ∨ x = chunk :=
    fun hx => ((inv.reach_link hl hpar).mp hx).imp_right fun h => h.2
  refine
    { tip := si.tip.trans (hl.heightOf_eq _).symm, cursor := si.cursor, index := ?_
      above := si.above, body := ?_, indexed := si.indexed }
  · intro x hx hne hr
    -- the side block is not on the way to the head
    have hr' : Reach t.heap.children x t.head := by
      rcases (inv.reach_link hl hpar).mp hr with h | ⟨-, h⟩
      · exact h
      · exact absurd (h ▸ inv.inTree_head) hnew
    have hx' : t.InTree x := by
      rcases hin hx with h | rfl
      · exact h
      · rw [Reach.eq_of_leaf (inv.children_linked hl hpar) hr']
        exact inv.inTree_head
    show store.hashByHeight (heightOf h' x) = .ok (some (hashOf h' x))
    rw [hl.heightOf_eq, hl.hashOf_eq]
    exact si.index hx' hne hr'
  · intro x hx hne
    show (store.readByHash (hashOf h' x)).isSome
    rw [hl.hashOf_eq]
    rcases hin hx with hx | rfl
    · exact si.body hx hne
    · exact hbody

/-- **A new head and its batch.** The branch is written as `canonical`, or was indexed before. -/
theorem newHead (hl : Linked t.heap h' par chunk)
    (hpar : t.InTree par) (hstep : heightOf t.heap chunk = heightOf t.heap par + 1)
    (re : KvBlockStore.Reindexed store store' (heightOf t.heap chunk) (hashOf t.heap chunk) data
      canonical)
    (hlast : indexEntry t.heap chunk ∈ canonical)
    (hle : ∀ e ∈ canonical, e.1 ≤ heightOf t.heap chunk)
    (hbodies : ∀ e ∈ canonical, e.2 = hashOf t.heap chunk ∨ (store.readByHash e.2).isSome)
    (hbranch : ∀ {x}, t.InTree x → x ≠ t.root → Reach t.heap.children x par →
      indexEntry t.heap x ∈ canonical ∨
        (∀ c, (heightOf t.heap x, c) ∉ canonical) ∧ Reach t.heap.children x t.head)
    (hheap : t'.heap = h') (hhead : t'.head = chunk) (hroot : t'.root = t.root) :
    StoreInv t' store' := by
  have hmax : u64Max < 2 ^ 64 := by decide
  have hin : ∀ {x}, t'.InTree x → t.InTree x ∨ x = chunk := by
    intro x hx
    rw [Tree.InTree, hheap, hroot] at hx
    exact ((inv.reach_link hl hpar).mp hx).imp_right fun h => h.2
  have hup : ∀ {x}, t.InTree x → Reach t'.heap.children x t'.head →
      Reach t.heap.children x par := by
    intro x hx hr
    rw [hheap, hhead] at hr
    rcases (inv.reach_link hl hpar).mp hr with h | h
    · exact absurd (hx.trans h) (inv.not_inTree_linked hl)
    · exact h.1
  have hmono : ∀ {x}, (store.readByHash x).isSome → (store'.readByHash x).isSome := by
    intro x hx
    rw [re.body]
    split
    · rfl
    · exact hx
  have hnew : (store'.readByHash (hashOf t.heap chunk)).isSome := by
    rw [re.body, if_pos rfl]
    rfl
  have hheight : ∀ x, heightOf t'.heap x = heightOf t.heap x := fun x => hheap ▸ hl.heightOf_eq x
  have hhash : ∀ x, hashOf t'.heap x = hashOf t.heap x := fun x => hheap ▸ hl.hashOf_eq x
  refine
    { tip := ?_, cursor := ?_, index := ?_, above := ?_, body := ?_, indexed := ?_ }
  · rw [hhead, hheight, re.tip]
  · rw [re.cursor, re.tip]
  · intro x hx hne hr
    rw [hroot] at hne
    rw [hheight, hhash]
    rcases hin hx with hx | rfl
    · rcases hbranch hx hne (hup hx hr) with hmem | ⟨hnot, hr'⟩
      · exact re.indexed hmem
      · have h1 := inv.height_le hx (hup hx hr)
        have h2 := inv.heightOf_lt hx
        rw [re.kept (h2.trans hmax) hnot (by omega)]
        exact si.index hx hne hr'
    · exact re.indexed hlast
  · intro h hgt hlt
    rw [re.tip] at hgt
    by_cases hold : h ≤ store.tip
    · exact re.dropped hgt hold
    · rw [re.kept hlt (fun c hc => absurd (hle _ hc) (not_le.mpr hgt)) fun h => hold h.2]
      exact si.above (not_le.mp hold) hlt
  · intro x hx hne
    rw [hroot] at hne
    rw [hhash]
    rcases hin hx with hx | rfl
    · exact hmono (si.body hx hne)
    · exact hnew
  · intro h c hlt hc
    by_cases hmem : ∃ c', (h, c') ∈ canonical
    · obtain ⟨c', hmem⟩ := hmem
      rw [re.indexed hmem, Except.ok.injEq, Option.some.injEq] at hc
      subst hc
      rcases hbodies _ hmem with heq | hb
      · obtain rfl : c' = hashOf t.heap chunk := heq
        exact hnew
      · exact hmono hb
    · by_cases hdrop : heightOf t.heap chunk < h ∧ h ≤ store.tip
      · rw [re.dropped hdrop.1 hdrop.2] at hc
        cases hc
      · rw [re.kept hlt (fun c' h => hmem ⟨c', h⟩) hdrop] at hc
        exact hmono (si.indexed hlt hc)

/-- Execution outside the tree. -/
theorem executed (ext : Heap.Extends t.heap h') : StoreInv { t with heap := h' } store := by
  have hback : ∀ {x y}, Reach h'.children x y → Reach t.heap.children x y :=
    fun hr => hr.mono fun _ _ hc => ext.children_eq ▸ hc
  refine si.shrink rfl inv.inTree_head hback (fun _ hne => hne) hback fun hx => ?_
  obtain ⟨c, hc⟩ := Option.isSome_iff_exists.mp (inv.isSome_cell hx)
  exact ext.origin_eq hc

/-- Pruned side branches. -/
theorem prune (pr : Pruned t.heap h' t.head) : StoreInv { t with heap := h' } store :=
  si.shrink rfl inv.inTree_head pr.reach_of_reach (fun _ hne => hne) pr.reach_of_reach
    fun _ => pr.origin_eq _

theorem enforceSideCapacity (capacity : ℕ) : StoreInv (t.enforceSideCapacity capacity) store := by
  obtain ⟨h', heq, pr⟩ := inv.enforceSideCapacity_pruned capacity
  rw [heq]
  exact si.prune inv pr

/-- A moved root. -/
theorem promote {job : RollJob} (hat : JobAt t.heap t.root job) :
    StoreInv { t with heap := t.heap.setDisk job.newRoot, root := job.newRoot } store := by
  have hback : ∀ {x y}, Reach (t.heap.setDisk job.newRoot).children x y →
      Reach t.heap.children x y :=
    fun hr => hr.mono fun _ _ hc => Heap.children_setDisk ▸ hc
  refine si.shrink rfl inv.inTree_head (fun hx => hat.path.reach.trans (hback hx)) ?_ hback
    fun _ => Heap.origin_setDisk
  intro x hx _ heq
  have h1 := hat.lt_newRoot
  have h2 : job.newRoot ≤ x := Heap.le_of_reach (hback hx)
  omega

end

end

end StoreInv

/-! ## Persisting an attached block -/

/-- `commit_reorg` accepts the canonical branch if its bodies, but for the head's, are stored. -/
theorem checkReorg_path (inv : TreeInv t) (hl : Path t.heap.children t.root l t.head)
    (hne : t.head ≠ t.root)
    (hbody : ∀ x ∈ l, hashOf t.heap x = hashOf t.heap t.head ∨
      (store.readByHash (hashOf t.heap x)).isSome) :
    store.checkReorg (heightOf t.heap t.head) (hashOf t.heap t.head)
      (l.map (indexEntry t.heap)) = .ok () := by
  obtain ⟨l', rfl⟩ : ∃ l', l = l' ++ [t.head] := by
    obtain ⟨pre, hpre⟩ := hl.cons_eq_snoc
    cases pre with
    | nil =>
      simp only [nil_append, cons.injEq] at hpre
      exact absurd hpre.1.symm hne
    | cons c pre =>
      simp only [cons_append, cons.injEq] at hpre
      exact ⟨pre, hpre.2⟩
  have hpos : ∀ x ∈ l' ++ [t.head], heightOf t.heap x ≠ 0 := by
    intro x hx
    have := inv.height_lt_of_mem t.inTree_root hl hx
    omega
  have hlast : ((l' ++ [t.head]).map (indexEntry t.heap)).getLast? =
      some (heightOf t.heap t.head, hashOf t.heap t.head) := by
    rw [map_append]
    exact getLast?_concat
  rw [checkReorg, if_neg (hpos _ (by simp)), hlast]
  dsimp only
  rw [if_neg (by simp), inv.checkContiguous_path t.inTree_root hl]
  refine checkBodies_of_forall fun e he => ?_
  obtain ⟨x, hx, rfl⟩ := mem_map.mp he
  exact ⟨hpos x hx, hbody x hx⟩

variable {svc : Services} {outcomes : Outcomes} {config : EngineConfig} {e e' : Engine}
  {pkg : BlkPkg} {ins : Inserted}

/-- The invariant of the engine between two blocks: no root roll is left over, and the
store fits the tree. -/
structure EngineInv (e : Engine) : Prop where
  run : RunInv ⟨e.tree, [], []⟩
  store : StoreInv e.tree e.store

theorem RunInv.forget {planned : List RollJob} (inv : RunInv ⟨t, planned, []⟩) :
    RunInv ⟨t, [], []⟩ :=
  ⟨inv.tree, inv.pending, fun hj => by cases hj⟩

theorem EngineInv.quiet (inv : EngineInv e) : e.tree.scheduledRoot = e.tree.root :=
  (inv.run.pending : e.tree.root = e.tree.scheduledRoot).symm

/-- A new head, attached in strict mode and not persisted yet. -/
structure NewHead (t : Tree) (pkg : BlkPkg) (par chunk : ℕ) (h' : Heap) (ins : Inserted)
    (t' : Tree) : Prop where
  linked : Linked t.heap h' par chunk
  parent : t.InTree par
  step : heightOf t.heap chunk = heightOf t.heap par + 1
  height : heightOf t.heap chunk = pkg.block.height
  hash : hashOf t.heap chunk = pkg.block.hash
  heap : t'.heap = h'
  head : t'.head = chunk
  root : t'.root = t.root
  isHead : ins.isHead = true
  reorg : ins.reorg = decide (par ≠ t.head)
  run : RunInv ⟨t', ins.roll.toList, ins.roll.toList⟩

variable {chunk : ℕ} {h' : Heap}

/-- **Persisting a new head** keeps store and tree together, and only a failed write stops it. -/
theorem NewHead.persistBlock (outcomes : Outcomes) (config : EngineConfig) {par : ℕ}
    (hn : NewHead t pkg par chunk h' ins t') (inv : TreeInv t) (si : StoreInv t e.store) :
    (∃ err store, persistBlock outcomes config { e with tree := t' }
        { pkg, inserted := ins, persistBody := true } = (.error err, { e with tree := t', store }) ∧
        outcomes.canonical = false) ∨
      ∃ tree store, persistBlock outcomes config { e with tree := t' }
          { pkg, inserted := ins, persistBody := true } = (.ok (), { e with tree, store }) ∧
        RunInv ⟨tree, ins.roll.toList, ins.roll.toList⟩ ∧ StoreInv tree store := by
  have hmax : u64Max < 2 ^ 64 := by decide
  have hheight := pkg.block.height_lt
  have htip : e.store.tip < 2 ^ 64 := by
    rw [si.tip]
    exact (inv.heightOf_lt inv.inTree_head).trans hmax
  have hchunkHeight : heightOf t'.heap t'.head = pkg.block.height := by
    rw [hn.heap, hn.head, hn.linked.heightOf_eq, hn.height]
  have hchunkHash : hashOf t'.heap t'.head = pkg.block.hash := by
    rw [hn.heap, hn.head, hn.linked.hashOf_eq, hn.hash]
  have hentry : ∀ x, indexEntry t'.heap x = indexEntry t.heap x := by
    intro x
    rw [indexEntry, indexEntry, hn.heap, hn.linked.heightOf_eq, hn.linked.hashOf_eq]
  unfold Engine.persistBlock
  dsimp only
  rw [if_neg (by decide), hn.isHead, hn.reorg, Bool.true_and]
  by_cases hext : par = t.head
  · -- the block extends the head
    rw [if_neg (by simpa using hext), if_pos rfl]
    rcases hput : e.store.putBlockAvailable outcomes.canonical pkg.block.height pkg.block.hash
      pkg.data with ⟨err | _, store⟩
    · have hnext : pkg.block.height = e.store.tip + 1 := by
        rw [si.tip, ← hext, ← hn.height, hn.step]
      exact .inl ⟨_, store, rfl, writeFailed_of_next hheight hnext hput⟩
    · right
      obtain ⟨-, re⟩ := putBlockAvailable_ok hheight htip hput
      refine ⟨t', store, rfl, hn.run, ?_⟩
      rw [← hn.height, ← hn.hash] at re
      refine si.newHead inv hn.linked hn.parent hn.step re (mem_singleton_self _) ?_ ?_ ?_
        hn.heap hn.head hn.root
      · intro e he
        rw [mem_singleton.mp he]
      · intro e he
        rw [mem_singleton.mp he]
        exact .inl rfl
      · intro x hx hne hr
        refine .inr ⟨fun c hc => ?_, hext ▸ hr⟩
        have h1 := congrArg Prod.fst (mem_singleton.mp hc)
        have h2 := inv.height_le hx hr
        have h3 := hn.step
        dsimp only at h1
        omega
  · -- the block is on another branch
    rw [if_pos (by simpa using hext)]
    have ht' : TreeInv t' := hn.run.tree
    obtain ⟨l, hl⟩ := ht'.inTree_head.exists_path
    have hback : (t'.backHashes (pkg.block.height - heightOf t'.heap t'.root)).reverse =
        l.map (indexEntry t.heap) := by
      rw [← hchunkHeight, ht'.backHashes_canonical hl]
      exact map_congr_left fun x _ => hentry x
    rw [hback]
    have hin : ∀ {x}, x ∈ l → t.InTree x ∧ x ≠ t.root ∨ x = chunk := by
      intro x hx
      have hlt := ht'.height_lt_of_mem (inTree_root _) hl hx
      have hreach := (hl.reach_of_mem hx).1
      rw [hn.heap, hn.root] at hlt hreach
      refine ((inv.reach_link hn.linked hn.parent).mp hreach).imp (fun h => ⟨h, ?_⟩) fun h => h.2
      rintro rfl
      exact lt_irrefl _ hlt
    have hbody : ∀ x ∈ l, hashOf t.heap x = pkg.block.hash ∨
        (e.store.readByHash (hashOf t.heap x)).isSome := by
      intro x hx
      rcases hin hx with ⟨hx, hne⟩ | rfl
      · exact .inr (si.body hx hne)
      · exact .inl hn.hash
    have hcheck : e.store.checkReorg pkg.block.height pkg.block.hash
        (l.map (indexEntry t.heap)) = .ok () := by
      have hne : t'.head ≠ t'.root := by
        rw [hn.head, hn.root]
        exact fun h => inv.not_inTree_linked hn.linked (h ▸ t.inTree_root)
      have : e.store.checkReorg _ _ _ = .ok () := checkReorg_path ht' hl hne fun x hx => by
        rw [hchunkHash, hn.heap, hn.linked.hashOf_eq]
        exact hbody x hx
      rwa [hchunkHeight, hchunkHash, map_congr_left fun x _ => hentry x] at this
    rcases hput : e.store.commitReorg outcomes.canonical pkg.block.height pkg.block.hash
      pkg.data (l.map (indexEntry t.heap)) with ⟨err | _, store⟩
    · exact .inl ⟨_, store, rfl, writeFailed_of_checked hcheck hput⟩
    · right
      have re := commitReorg_ok (hheight.trans hmax) htip hput
      rw [← hn.height, ← hn.hash] at re
      -- the blocks on the way to the new head are those written
      have hon : ∀ {x}, t'.InTree x → x ≠ t.root → Reach t'.heap.children x t'.head →
          indexEntry t.heap x ∈ l.map (indexEntry t.heap) :=
        fun hx hne hr => mem_map.mpr ⟨_, ht'.mem_path (inTree_root _) hl hx (hn.root ▸ hne) hr, rfl⟩
      have hsi : StoreInv t' store := by
        refine si.newHead inv hn.linked hn.parent hn.step re ?_ ?_ ?_ ?_ hn.heap hn.head hn.root
        · rw [← hn.head]
          refine hon ht'.inTree_head ?_ (Reach.refl _)
          rw [hn.head]
          exact fun h => inv.not_inTree_linked hn.linked (h ▸ t.inTree_root)
        · intro e he
          obtain ⟨x, hx, rfl⟩ := mem_map.mp he
          have hle := ht'.height_le (hl.reach_of_mem hx).1 (hl.reach_of_mem hx).2
          rwa [hn.heap, hn.head, hn.linked.heightOf_eq, hn.linked.heightOf_eq] at hle
        · intro e he
          obtain ⟨x, hx, rfl⟩ := mem_map.mp he
          rw [hn.hash]
          exact hbody x hx
        · intro x hx hne hr
          refine .inl (hon ?_ hne ?_)
          · rw [Tree.InTree, hn.heap, hn.root]
            exact (inv.reach_link hn.linked hn.parent).mpr (.inl hx)
          · rw [hn.heap, hn.head]
            exact (inv.reach_link hn.linked hn.parent).mpr (.inr ⟨hr, rfl⟩)
      exact ⟨_, store, rfl, runInv_op hn.run (.enforceSideCapacity _),
        hsi.enforceSideCapacity ht' _⟩

/-- **The root roll a block has planned.** Only a failed write stops it. -/
theorem rollPlanned_inv (outcomes : Outcomes) {roll : Option RollJob} {job : ApplyAccepted}
    (hjob : job.inserted.roll = roll) (run : RunInv ⟨e.tree, roll.toList, roll.toList⟩)
    (si : StoreInv e.tree e.store) :
    (∃ err e', e.rollPlanned outcomes job = (.error err, e') ∧ outcomes.rootBatch = false) ∨
      ∃ e', e.rollPlanned outcomes job = (.ok (), e') ∧ EngineInv e' := by
  unfold rollPlanned
  rw [hjob]
  cases roll with
  | none => exact .inr ⟨e, rfl, run, si⟩
  | some roll =>
    obtain ⟨hvalid, hcommit⟩ := run.commitRoll_head rfl
    have run' := run.committed_head rfl
    rw [run.committed_eq rfl] at run'
    dsimp only [rollRoot]
    rw [hvalid]
    dsimp only
    cases hw : outcomes.rootBatch with
    | false => exact .inl ⟨_, _, rfl, rfl⟩
    | true =>
      rw [if_neg (by decide), hcommit]
      exact .inr ⟨_, rfl, run'.forget, si.promote run.tree run.pending.1⟩

/-- **Persisting keeps store and tree together**; only a failed write stops it. -/
theorem NewHead.persistOne {par : ℕ} (hn : NewHead t pkg par chunk h' ins t')
    (inv : TreeInv t) (si : StoreInv t e.store) :
    let r := persistOne outcomes config { e with tree := t' }
      { pkg, inserted := ins, persistBody := true }
    EngineInv r.2 ∧ (∃ a, r.1 = .ok a) ∨ r.2.fatal = true ∧ ¬ outcomes.writesOk := by
  unfold Engine.persistOne
  rcases hn.persistBlock outcomes config inv si with
    ⟨err, store, heq, hw⟩ | ⟨tree, store, heq, run, si'⟩
  · rw [heq]
    exact .inr ⟨rfl, fun h => by rw [h.2.1] at hw; cases hw⟩
  · rw [heq]
    dsimp only
    have hroll := rollPlanned_inv (e := { e with tree, store }) outcomes
      (rfl : (ApplyAccepted.mk pkg ins true).inserted.roll = ins.roll) run si'
    rcases hroll with ⟨err, e', heq', hw⟩ | ⟨e', heq', inv'⟩
    · rw [heq']
      exact .inr ⟨rfl, fun h => by rw [h.2.2] at hw; cases hw⟩
    · rw [heq']
      refine .inl ⟨?_, _, rfl⟩
      dsimp only
      split
      · exact ⟨inv'.run, inv'.store⟩
      · exact inv'

/-! ## Runs of the engine -/

theorem RunInv.forkKeyOf_head {r : TreeRun} (inv : RunInv r) (ext : Heap.Extends r.tree.heap h') :
    forkKeyOf h' r.tree.head = forkKeyOf r.tree.heap r.tree.head := by
  obtain ⟨c, hc⟩ := Option.isSome_iff_exists.mp (inv.tree.isSome_cell inv.tree.inTree_head)
  rw [forkKeyOf, identityOf, ext.origin_eq hc, forkKeyOf, identityOf]

section

variable {heap : Heap} {key : ForkChoiceKey} (inv : EngineInv e)
  (ex : Engine.Executed svc e pkg key false chunk heap)
include inv ex

theorem EngineInv.newHead (plan : forkKeyOf e.tree.heap e.tree.head < key)
    (ok : ({ e.tree with heap } : Tree).attach pkg.block.prevHash chunk config.unstableBlock =
      .ok (ins, t')) :
    ∃ par h', NewHead { e.tree with heap } pkg par chunk h' ins t' := by
  obtain ⟨parent, heap₀, delta, ec, -⟩ := ex.execChunk
  have run := inv.run.extends ec.ext
  obtain ⟨par, h', chk, l, pub⟩ := attachInner_ok ok
  have run' := run.attached chk l pub fun _ => inv.quiet
  have hkey : forkKeyOf heap e.tree.head < forkKeyOf heap chunk := by
    rw [ec.forkKeyOf_chunk, inv.run.forkKeyOf_head ec.ext]
    exact plan
  have hpar := (run.tree.find_eq_some chk.find).1
  cases pub with
  | side hnot => exact absurd hkey hnot
  | head | roll =>
    exact ⟨par, h', l, hpar, chk.height, ec.heightOf_chunk, ec.hashOf_chunk, rfl, rfl, rfl, rfl,
      rfl, run'⟩

theorem EngineInv.side (plan : ¬ forkKeyOf e.tree.heap e.tree.head < key)
    (stored : e.store.putBlock outcomes.sideBody pkg.block.height pkg.block.hash pkg.data =
      (.ok (), store))
    (ok : ({ e.tree with heap } : Tree).attach pkg.block.prevHash chunk config.unstableBlock =
      .ok (ins, t')) :
    ins.isHead = false ∧ ins.roll = none ∧
      EngineInv { e with store, tree := t'.enforceSideCapacity config.sideTreeCapacity } := by
  obtain ⟨parent, heap₀, delta, ec, -⟩ := ex.execChunk
  have run := inv.run.extends ec.ext
  obtain ⟨par, h', chk, l, pub⟩ := attachInner_ok ok
  have run' := run.attached chk l pub fun _ => inv.quiet
  have hkey : ¬ forkKeyOf heap e.tree.head < forkKeyOf heap chunk := by
    rw [ec.forkKeyOf_chunk, inv.run.forkKeyOf_head ec.ext]
    exact plan
  have hpar := (run.tree.find_eq_some chk.find).1
  cases pub with
  | side =>
    obtain ⟨si, hbody⟩ := (inv.store.executed inv.run.tree ec.ext).putBlock stored
    have hbody' : (store.readByHash (hashOf heap chunk)).isSome := by
      rw [ec.hashOf_chunk]
      exact hbody
    exact ⟨rfl, rfl, runInv_op run' (.enforceSideCapacity _),
      (si.addSide run.tree l hpar hbody').enforceSideCapacity run'.tree _⟩
  | head hk | roll hk => exact absurd hk hkey

end

/-- A side block is persisted already. -/
theorem EngineInv.persistOne_side {job : ApplyAccepted} (inv : EngineInv e)
    (hhead : job.inserted.isHead = false) (hroll : job.inserted.roll = none) :
    EngineInv (e.persistOne outcomes config job).2 := by
  have hstore : e.persistBlock outcomes config job = (.ok (), e) := by
    unfold persistBlock
    rw [hhead]
    cases job.persistBody <;> rfl
  have hrolled : e.rollPlanned outcomes job = (.ok (), e) := by
    unfold rollPlanned
    rw [hroll]
  unfold persistOne
  rw [hstore]
  dsimp only
  rw [hrolled]
  dsimp only
  split
  · exact ⟨inv.run, inv.store⟩
  · exact inv

/-- **One block.** Store and tree stay together, unless a write failed, which is fatal. -/
theorem engineInv_discover (svc : Services) (outcomes : Outcomes) (config : EngineConfig)
    (pkg : BlkPkg) (inv : EngineInv e) :
    EngineInv (e.discover svc outcomes config pkg).2 ∨
      (e.discover svc outcomes config pkg).2.fatal = true ∧ ¬ outcomes.writesOk := by
  have hfail : ∀ {err}, EngineInv (e.failed err).2 := by
    intro err
    unfold failed
    dsimp only
    split
    · exact ⟨inv.run, inv.store⟩
    · exact inv
  unfold discover
  split
  · exact .inl inv
  split
  · exact .inl inv
  split
  · exact .inl inv
  split
  · exact .inl hfail
  split
  · exact .inl hfail
  · exact .inl inv
  unfold insertAndPersist
  have hstep : Engine.InsertStep svc outcomes config e pkg
    (e.insertBlock svc outcomes config pkg false true) := insertStep
  generalize e.insertBlock svc outcomes config pkg false true = r at hstep
  cases hstep with
  | @refused r hnot =>
    left
    rcases r with err | (job | hash | parent | _)
    · exact hfail
    · exact absurd rfl (hnot job)
    · exact inv
    · exact inv
    · exact inv
  | bodyOnly stored => exact .inl ⟨inv.run, (inv.store.putBlock stored).1⟩
  | head adm ex plan ok =>
    obtain ⟨par, h', hn⟩ := inv.newHead ex plan ok
    obtain ⟨parent, heap₀, delta, ec, -⟩ := ex.execChunk
    refine (hn.persistOne ?_ ?_).imp And.left id
    · exact inv.run.tree.extends ec.ext
    · exact inv.store.executed inv.run.tree ec.ext
  | side adm ex plan stored ok =>
    left
    obtain ⟨hhead, hroll, inv'⟩ := inv.side ex plan stored ok
    exact inv'.persistOne_side hhead hroll

/-- Nothing is indexed above the height `height` of the root, and what is indexed has a body. -/
structure FreshStore (store : KvBlockStore) (height : ℕ) : Prop where
  tip : store.tip = height
  cursor : rawCursor store.block = .ok height
  above : ∀ {h}, height < h → h < 2 ^ 64 → store.hashByHeight h = .ok none
  indexed : ∀ {h hash}, h < 2 ^ 64 → store.hashByHeight h = .ok (some hash) →
    (store.readByHash hash).isSome

/-- An engine that some sequence of blocks leads to. Checks, execution and the outcomes of writes
are arbitrary. -/
inductive EngineReachable (config : EngineConfig) : Engine → Prop
  | start {t : Tree} {rootBlock : Block} {store : KvBlockStore} {disk : Disk}
      (fresh : FreshStore store rootBlock.height) :
      EngineReachable config ⟨t.resetRoot rootBlock, store, disk, true, false⟩
  | discover {e : Engine} (h : EngineReachable config e) (svc : Services) (outcomes : Outcomes)
      (pkg : BlkPkg) : EngineReachable config (e.discover svc outcomes config pkg).2

theorem eq_root_of_inTree_resetRoot {rootBlock : Block} (hx : (t.resetRoot rootBlock).InTree x) :
    x = (t.resetRoot rootBlock).root := by
  have hcell : (t.resetRoot rootBlock).heap.cell t.heap.next = _ :=
    t.heap.cell_newRoot rootBlock
  have hleaf : (t.resetRoot rootBlock).heap.children (t.resetRoot rootBlock).root = [] := by
    show (t.resetRoot rootBlock).heap.children t.heap.next = []
    rw [Heap.children, hcell]
    rfl
  exact (Reach.eq_of_leaf hleaf hx).symm

theorem heightOf_resetRoot (t : Tree) (rootBlock : Block) :
    heightOf (t.resetRoot rootBlock).heap (t.resetRoot rootBlock).head = rootBlock.height := by
  have hcell : (t.resetRoot rootBlock).heap.cell t.heap.next = _ :=
    t.heap.cell_newRoot rootBlock
  show heightOf (t.resetRoot rootBlock).heap t.heap.next = _
  rw [heightOf, Heap.origin, hcell]
  rfl

theorem engineInv_start {rootBlock : Block} {disk : Disk}
    (fresh : FreshStore store rootBlock.height) :
    EngineInv ⟨t.resetRoot rootBlock, store, disk, true, false⟩ where
  run := runInv_init t rootBlock
  store :=
    { tip := fresh.tip.trans (heightOf_resetRoot t rootBlock).symm
      cursor := fresh.cursor.trans (by rw [fresh.tip])
      index := fun hx hne _ => absurd (eq_root_of_inTree_resetRoot hx) hne
      above := fun hgt => fresh.above (fresh.tip ▸ hgt)
      body := fun hx hne => absurd (eq_root_of_inTree_resetRoot hx) hne
      indexed := fresh.indexed }

/-- **The invariant along every run**, up to the first failed write. -/
theorem engineInv_of_reachable (hs : EngineReachable config e) : EngineInv e ∨ e.fatal = true := by
  induction hs with
  | start fresh => exact .inl (engineInv_start fresh)
  | @discover e _ svc outcomes pkg ih =>
    by_cases hfatal : e.fatal = true
    · right
      rw [discover, if_pos hfatal]
      exact hfatal
    · have inv := ih.resolve_right hfatal
      exact (engineInv_discover svc outcomes config pkg inv).imp_right And.left

/-- Block store and fork tree agree: the cursor is the head's height; the index above the root is
the canonical branch and ends at the cursor; every indexed hash has a body. -/
structure StoreAgrees (t : Tree) (store : KvBlockStore) : Prop where
  cursor : store.tip = heightOf t.heap t.head ∧ rawCursor store.block = .ok store.tip
  index : ∀ h, heightOf t.heap t.root < h → h ≤ heightOf t.heap t.head →
    ∃ x, t.InTree x ∧ Reach t.heap.children x t.head ∧ heightOf t.heap x = h ∧
      store.hashByHeight h = .ok (some (hashOf t.heap x))
  above : ∀ h, heightOf t.heap t.head < h → h < 2 ^ 64 → store.hashByHeight h = .ok none
  body : ∀ h hash, h < 2 ^ 64 → store.hashByHeight h = .ok (some hash) →
    (store.readByHash hash).isSome

theorem EngineInv.agrees (inv : EngineInv e) : StoreAgrees e.tree e.store where
  cursor := ⟨inv.store.tip, inv.store.cursor⟩
  index h hgt hle := by
    have ht : TreeInv e.tree := inv.run.tree
    obtain ⟨l, hl⟩ := ht.inTree_head.exists_path
    obtain ⟨x, hx, rfl⟩ := ht.exists_height e.tree.inTree_root hl hgt hle
    obtain ⟨hin, hr⟩ := hl.reach_of_mem hx
    exact ⟨x, hin, hr, rfl, inv.store.index hin (fun h => by rw [h] at hgt; omega) hr⟩
  above h hgt := inv.store.above (inv.store.tip ▸ hgt)
  body _ _ := inv.store.indexed

/-- **The block store follows the fork tree.** Block store and fork tree agree in every state of an
engine that takes blocks, and after the next block, if its writes succeed. A reorganisation that
fails has changed neither the height index nor the cursor. -/
theorem store_agrees (hs : EngineReachable config e) (hf : e.fatal = false) :
    StoreAgrees e.tree e.store ∧
      (∀ svc outcomes pkg, Outcomes.writesOk outcomes →
        StoreAgrees (e.discover svc outcomes config pkg).2.tree
          (e.discover svc outcomes config pkg).2.store) ∧
      ∀ (store store' : KvBlockStore) (writeOk : Bool) (height : ℕ) (hash : Hash) (data : Val)
        (canonical : List (ℕ × Hash)) (err : StoreError),
        store.commitReorg writeOk height hash data canonical = (.error err, store') →
          store' = store := by
  have inv := (engineInv_of_reachable hs).resolve_right (by rw [hf]; decide)
  refine ⟨inv.agrees, fun svc outcomes pkg hw => ?_, fun store store' writeOk height hash data
    canonical err h => commitReorg_error h⟩
  rcases engineInv_discover svc outcomes config pkg inv with inv' | ⟨-, hnot⟩
  · exact inv'.agrees
  · exact absurd hw hnot

/-- Checks that accept every block, and an execution that writes nothing. -/
def sampleServices : Services where
  checkIntrinsic _ := .ok ()
  checkBlockArrive _ := .ok ()
  checkBlockAdmission _ := .ok true
  forkChoiceKey pkg _ := .ok (.fromHeight pkg.block.height)
  verifyBlock _ _ := .ok ()
  checkBlockBeforeExecute _ _ _ := .ok ()
  executeBlock _ _ _ := .ok .default
  checkBlockAfterExecute _ _ _ _ := .ok ()

/-- An engine at `sampleRoot` with an empty block store. -/
def sampleEngine : Engine :=
  ⟨(new .empty sampleRoot).resetRoot sampleRoot, ⟨fun _ => none, 0⟩, fun _ => none, true,
    false⟩

/-- `sampleEngine` after `sampleChild`. -/
def sampleEngineNext : Engine :=
  (sampleEngine.discover sampleServices ⟨true, true, true, true⟩ ⟨4, 8⟩ ⟨sampleChild, [7]⟩).2

/-- The first block of an engine is indexed, and it is the head. -/
theorem store_agrees_sampleEngine :
    sampleEngineNext.fatal = false ∧ sampleEngineNext.store.tip = 1 ∧
      StoreAgrees sampleEngineNext.tree sampleEngineNext.store := by
  have hstart : EngineReachable ⟨4, 8⟩ sampleEngine :=
    .start ⟨rfl, rfl, fun _ _ => rfl, fun _ h => by cases h⟩
  have hfatal : sampleEngineNext.fatal = false := by decide
  exact ⟨hfatal, by decide, (store_agrees (hstart.discover _ _ _) hfatal).1⟩

/-- **The block store serves the canonical chain.** In every state of an engine that takes blocks,
opening its database again gives its store, and a height above the root is read as the block of
the canonical branch, with a body, or as nothing above the head. -/
theorem store_serves_chain (hs : EngineReachable config e) (hf : e.fatal = false) :
    KvBlockStore.new e.store.block = .ok e.store ∧
      ∀ h < 2 ^ 64, heightOf e.tree.heap e.tree.root < h →
        if h ≤ heightOf e.tree.heap e.tree.head then
          ∃ x data, e.tree.InTree x ∧ Reach e.tree.heap.children x e.tree.head ∧
            heightOf e.tree.heap x = h ∧
            e.store.readByHeight h = .ok (some (hashOf e.tree.heap x, data))
        else e.store.readByHeight h = .ok none := by
  have agrees := ((engineInv_of_reachable hs).resolve_right (by rw [hf]; decide)).agrees
  refine ⟨by rw [KvBlockStore.new, agrees.cursor.2]; rfl, fun h hlt hroot => ?_⟩
  split_ifs with hhead
  · obtain ⟨x, hin, hreach, hx, hidx⟩ := agrees.index h hroot hhead
    obtain ⟨data, hdata⟩ := Option.isSome_iff_exists.mp (agrees.body h _ hlt hidx)
    exact ⟨x, data, hin, hreach, hx, by simp only [readByHeight, hidx, hdata]⟩
  · rw [readByHeight, agrees.above h (not_le.mp hhead) hlt]

theorem store_serves_sampleEngine :
    ∃ hash data, sampleEngineNext.store.readByHeight 1 = .ok (some (hash, data)) := by
  have hstart : EngineReachable ⟨4, 8⟩ sampleEngine :=
    .start ⟨rfl, rfl, fun _ _ => rfl, fun _ h => by cases h⟩
  have hread := (store_serves_chain (hstart.discover sampleServices ⟨true, true, true, true⟩
    ⟨sampleChild, [7]⟩) (by decide)).2 1 (by decide) (by decide)
  rw [if_pos (by decide)] at hread
  obtain ⟨x, data, -, -, -, h⟩ := hread
  exact ⟨_, data, h⟩

end Hacash
