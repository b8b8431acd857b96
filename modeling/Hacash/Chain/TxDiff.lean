import Hacash.Chain.Optimistic

/-!
# Confirmed and reverted transactions (`canonical_tx_diff`, tree.rs:457–509)

`canonical_tx_diff` compares the segments of two heads below their common ancestor. **Key result**:
`canonicalTxs_tracked`, on a condition that is needed (`canonicalTxs_lost`).
-/

namespace Hacash

open Lib List Heap Relation

variable {t : Tree} {a b c x y old new : ℕ} {l lo ln : List ℕ}

/-! ## Climbing to the common ancestor -/

/-- `lo` and `ln` lead from their last common ancestor to `a` and to `b`. -/
structure ForkAt (t : Tree) (a b c : ℕ) (lo ln : List ℕ) : Prop where
  common : t.InTree c
  left : Path t.heap.children c lo a
  right : Path t.heap.children c ln b
  leftOnly : ∀ x ∈ lo, ¬ Reach t.heap.children x b
  rightOnly : ∀ x ∈ ln, ¬ Reach t.heap.children x a

namespace TreeInv

variable (inv : TreeInv t)
include inv

theorem eq_of_reach (ha : t.InTree a) (hab : Reach t.heap.children a b)
    (hle : heightOf t.heap b ≤ heightOf t.heap a) : a = b := by
  obtain ⟨l, hl⟩ := hab.exists_path
  have hlen := inv.height_path ha hl
  obtain rfl : l = [] := eq_nil_of_length_eq_zero (by omega)
  exact hl

theorem reach_parent (hx : t.InTree x) (hp : t.InTree b) (hc : c ∈ t.heap.children b)
    (hr : Reach t.heap.children x c) (hne : x ≠ c) : Reach t.heap.children x b := by
  rcases hr.cases_tail with h | ⟨q, hq, hcq⟩
  · exact absurd h hne
  · rwa [inv.isTree.unique (hx.trans hq) hp hcq hc] at hq

theorem leftOnly_step {pa pb : ℕ} (hc : t.InTree c) (hpb : t.InTree pb)
    (hl : Path t.heap.children c l pa) (hca : a ∈ t.heap.children pa)
    (hcb : b ∈ t.heap.children pb) (heq : heightOf t.heap a = heightOf t.heap b) (hne : a ≠ b)
    (honly : ∀ x ∈ l, ¬ Reach t.heap.children x pb) :
    ∀ x ∈ l ++ [a], ¬ Reach t.heap.children x b := by
  intro x hx hxb
  have hpa : t.InTree pa := hc.trans hl.reach
  have hha := inv.height hpa hca
  rcases mem_append.mp hx with hx | hx
  · obtain ⟨hcx, hxpa⟩ := hl.reach_of_mem hx
    have hle := inv.height_le (hc.trans hcx) hxpa
    have hxb' : x ≠ b := by
      rintro rfl
      omega
    exact honly x hx (inv.reach_parent (hc.trans hcx) hpb hcb hxb hxb')
  · obtain rfl := mem_singleton.mp hx
    exact hne (inv.eq_of_reach (hpa.tail hca) hxb heq.ge)

theorem climbBoth_fork : ∀ (n : ℕ) (ob nb : List ℕ) {a b : ℕ}, t.InTree a → t.InTree b →
    heightOf t.heap a = heightOf t.heap b → a < n →
    ∃ c lo ln, ForkAt t a b c lo ln ∧ climbBoth t.heap n ob nb a b = some (lo ++ ob, ln ++ nb)
  | 0, _, _, _, _, _, _, _, hn => absurd hn (Nat.not_lt_zero _)
  | n + 1, ob, nb, a, b, ha, hb, heq, hn => by
    by_cases hab : a = b
    · subst hab
      refine ⟨a, [], [], ⟨ha, rfl, rfl, by simp, by simp⟩, ?_⟩
      rw [climbBoth, if_pos rfl]
      rfl
    · -- two different blocks of one height: neither is the root
      have hroot : ∀ {u v}, t.InTree v → heightOf t.heap u = heightOf t.heap v →
          u ≠ v → u ≠ t.root := by
        rintro u v hv huv hne rfl
        exact hne (inv.eq_of_reach t.inTree_root hv huv.ge)
      obtain ⟨pa, hpa, hca, hpara⟩ := inv.exists_parent ha (hroot hb heq hab)
      obtain ⟨pb, hpb, hcb, hparb⟩ := inv.exists_parent hb (hroot ha heq.symm (Ne.symm hab))
      have h1 := inv.height hpa hca
      have h2 := inv.height hpb hcb
      have hlt := (mem_children_lt hca).1
      obtain ⟨c, lo, ln, fork, hclimb⟩ :=
        climbBoth_fork n (a :: ob) (b :: nb) hpa hpb (by omega) (by omega)
      refine ⟨c, lo ++ [a], ln ++ [b], ⟨fork.common, ?_, ?_, ?_, ?_⟩, ?_⟩
      · exact Path.snoc_iff.mpr ⟨pa, fork.left, hca, rfl⟩
      · exact Path.snoc_iff.mpr ⟨pb, fork.right, hcb, rfl⟩
      · exact inv.leftOnly_step fork.common hpb fork.left hca hcb heq hab fork.leftOnly
      · exact inv.leftOnly_step fork.common hpa fork.right hcb hca heq.symm (Ne.symm hab)
          fork.rightOnly
      · rw [climbBoth, if_neg hab, hpara, hparb]
        dsimp only
        rw [hclimb, append_assoc, append_assoc]
        rfl

/-- A segment that starts below the fork, continued up to `old`, stays off the branch of `new`. -/
theorem leftOnly_append (hc : t.InTree c) (ha : t.InTree a) (hb : t.InTree b)
    (hlo : Path t.heap.children c lo a) (hl : Path t.heap.children a l old)
    (hbn : Reach t.heap.children b new) (heq : heightOf t.heap a = heightOf t.heap b)
    (hupper : l ≠ [] → heightOf t.heap new ≤ heightOf t.heap a)
    (honly : ∀ x ∈ lo, ¬ Reach t.heap.children x b) :
    ∀ x ∈ lo ++ l, ¬ Reach t.heap.children x new := by
  intro x hx hxn
  rcases mem_append.mp hx with hx | hx
  · obtain ⟨hcx, hxa⟩ := hlo.reach_of_mem hx
    have hle := inv.height_le (hc.trans hcx) hxa
    rcases inv.isTree.linear (hc.trans hcx) hb hxn hbn with h | h
    · exact honly x hx h
    · exact honly x hx (inv.eq_of_reach hb h (by omega) ▸ Reach.refl _)
  · have hlt := inv.height_lt_of_mem ha hl hx
    have hle := inv.height_le (ha.trans (hl.reach_of_mem hx).1) hxn
    have := hupper (ne_nil_of_mem hx)
    omega

/-- **The two segments** start at the last common ancestor and hold exactly the blocks that only
one of the heads descends from. -/
theorem canonicalTxDiff_fork (ho : t.InTree old) (hn : t.InTree new) :
    ∃ c lo ln, ForkAt t old new c lo ln ∧
      canonicalTxDiff t.heap old new = some
        { confirmed := (ln.flatMap t.heap.blockTxHashes).filter
            (· ∉ lo.flatMap t.heap.blockTxHashes)
          reverted := (lo.flatMap t.heap.blockTxHashes).filter
            (· ∉ ln.flatMap t.heap.blockTxHashes) } := by
  -- the longer side first climbs to the height of the other
  obtain ⟨l₁, a, ha, hl₁, hclimb₁, hha⟩ := inv.climb_to ho
    (inv.height_le t.inTree_root hn) (Nat.lt_succ_self old)
  obtain ⟨l₂, b, hb, hl₂, hclimb₂, hhb⟩ := inv.climb_to hn
    (inv.height_le t.inTree_root ha) (Nat.lt_succ_self new)
  have hab : heightOf t.heap a = heightOf t.heap b := by omega
  obtain ⟨c, lo, ln, fork, hboth⟩ :=
    inv.climbBoth_fork (a + 1) l₁ l₂ ha hb hab (Nat.lt_succ_self a)
  have hupper : ∀ {l : List ℕ} {u v : ℕ}, t.InTree u → Path t.heap.children u l v → l ≠ [] →
      heightOf t.heap u < heightOf t.heap v := by
    intro l u v hu hl hne
    have := inv.height_path hu hl
    have := length_pos_iff.mpr hne
    omega
  refine ⟨c, lo ++ l₁, ln ++ l₂,
    ⟨fork.common, fork.left.append hl₁, fork.right.append hl₂, ?_, ?_⟩, ?_⟩
  · refine inv.leftOnly_append fork.common ha hb fork.left hl₁ hl₂.reach hab ?_ fork.leftOnly
    intro hne
    have := hupper ha hl₁ hne
    omega
  · refine inv.leftOnly_append fork.common hb ha fork.right hl₂ hl₁.reach hab.symm ?_
      fork.rightOnly
    intro hne
    have := hupper hb hl₂ hne
    omega
  · simp only [canonicalTxDiff, hclimb₁, hclimb₂, hboth, Option.bind_eq_bind, Option.bind_some]

/-- The left segment is what only `a` descends from. -/
theorem mem_left (fork : ForkAt t a b c lo ln) :
    x ∈ lo ↔ t.InTree x ∧ Reach t.heap.children x a ∧ ¬ Reach t.heap.children x b := by
  constructor
  · intro hx
    obtain ⟨hcx, hxa⟩ := fork.left.reach_of_mem hx
    exact ⟨fork.common.trans hcx, hxa, fork.leftOnly x hx⟩
  · rintro ⟨hx, hxa, hxb⟩
    rcases inv.isTree.linear fork.common hx fork.left.reach hxa with h | h
    · refine inv.mem_path fork.common fork.left h ?_ hxa
      rintro rfl
      exact hxb fork.right.reach
    · exact absurd (h.trans fork.right.reach) hxb

end TreeInv

theorem ForkAt.symm (fork : ForkAt t a b c lo ln) : ForkAt t b a c ln lo :=
  ⟨fork.common, fork.right, fork.left, fork.rightOnly, fork.leftOnly⟩

/-! ## Folding the lists over a run -/

/-- The canonical chain of the tree, oldest first: from the durable root to the head. -/
def Tree.canonicalChain (t : Tree) : List ℕ := Tree.ancestry t.heap (t.head + 1) [] t.head

/-- A run of the fork tree, with what a subscriber of the attach results keeps. -/
structure TxRun where
  run : TreeRun
  /-- The transactions of the canonical blocks below the durable root, which the tree
  has let go of. -/
  below : List Hash
  /-- The set the lists are folded into. -/
  known : Finset Hash

namespace TxRun

/-- The transaction hashes on the canonical chain. -/
def canonicalTxs (s : TxRun) : List Hash :=
  s.below ++ s.run.tree.canonicalChain.flatMap s.run.tree.heap.blockTxHashes

/-- After an attach: reverted hashes leave the set, confirmed ones enter it. -/
def attached (s : TxRun) (ins : Inserted) (t : Tree) : TxRun where
  run := s.run.attached ins t
  below := s.below
  known := (s.known \ ins.revertedTxs.toFinset) ∪ ins.confirmedTxs.toFinset

/-- After `commit_roll(job)`: the blocks under the new root leave the tree. -/
def committed (s : TxRun) (job : RollJob) : TxRun where
  run := s.run.committed job
  below := s.below ++
    (s.run.tree.canonicalChain.takeWhile (· ≠ (s.run.committed job).tree.root)).flatMap
      s.run.tree.heap.blockTxHashes
  known := s.known

/-- A freshly reset tree over the canonical blocks that hold `below`. -/
def init (t : Tree) (rootBlock : Block) (below : List Hash) : TxRun where
  run := ⟨t.resetRoot rootBlock, [], []⟩
  below := below
  known := below.toFinset

end TxRun

open TxRun

/-- A call that the tree accepts, in any order: a strict attach does not look at the planned rolls,
and `commit_roll` checks its job itself. -/
inductive TreeCall : TreeRun → TreeRun → Prop
  | op {r r' : TreeRun} (h : TreeOp r r') : TreeCall r r'
  | attach {r : TreeRun} {parentHash : Hash} {chunk window : ℕ} {linear : Bool} {ins : Inserted}
      {t : Tree} (ok : r.tree.attachInner parentHash chunk window linear = .ok (ins, t)) :
      TreeCall r (r.attached ins t)
  | commitRoll {r : TreeRun} (job : RollJob) : TreeCall r (r.committed job)

/-- A run of the tree from a reset. -/
def TreeCalled (r : TreeRun) : Prop :=
  ∃ (t : Tree) (rootBlock : Block), ReflTransGen TreeCall ⟨t.resetRoot rootBlock, [], []⟩ r

/-- One step. The operations of `silent` return no lists; none of them moves the head. -/
inductive TxStep : TxRun → TxRun → Prop
  | attach {s : TxRun} {parentHash : Hash} {chunk window : ℕ} {linear : Bool}
      {ins : Inserted} {t : Tree}
      (ok : s.run.tree.attachInner parentHash chunk window linear = .ok (ins, t)) :
      TxStep s (s.attached ins t)
  | silent {s : TxRun} {run : TreeRun} (op : TreeOp s.run run)
      (head : run.tree.head = s.run.tree.head) : TxStep s { s with run }
  | commitRoll {s : TxRun} (job : RollJob) : TxStep s (s.committed job)

/-- No hash that a step takes out of the set occurs in a canonical block that stays. -/
def KeepsShared (s s' : TxRun) : Prop :=
  ∀ x ∈ s.known, x ∉ s'.known → x ∉ s.below ∧
    ∀ p ∈ s.run.tree.canonicalChain, p ∈ s'.run.tree.canonicalChain →
      x ∉ s.run.tree.heap.blockTxHashes p

/-- A state some run of such steps reaches. -/
def TxReachable (s : TxRun) : Prop :=
  ∃ (t : Tree) (rootBlock : Block) (below : List Hash),
    ReflTransGen (fun s s' => TxStep s s' ∧ KeepsShared s s')
      (.init t rootBlock below) s

variable {s s' : TxRun} {r r' : TreeRun} {job : RollJob}

theorem TreeInv.canonicalChain_eq (inv : TreeInv t.durable)
    (hl : Path t.heap.children t.root l t.head) : t.canonicalChain = t.root :: l :=
  inv.ancestry_head hl

theorem Grows.blockTxHashes_eq (grows : Grows r r') (inv : TreeInv r.tree.durable)
    (hx : r.tree.InTree x) :
    r'.tree.heap.blockTxHashes x = r.tree.heap.blockTxHashes x := by
  obtain ⟨c', hc'⟩ := Option.isSome_iff_exists.mp (grows.alive hx)
  obtain ⟨c, hc, -, -, hb⟩ := grows.cell (inv.settled hx) hc'
  simp only [blockTxHashes, body, hc, hc', Option.map_some, hb]

theorem canonicalChain_congr {t' : Tree} (inv : TreeInv t.durable) (inv' : TreeInv t'.durable)
    (hroot : t'.root = t.root) (hhead : t'.head = t.head)
    (hkeep : ∀ a c, t.InTree a → c ∈ t.heap.children a → Reach t.heap.children c t.head →
      c ∈ t'.heap.children a)
    (htxs : ∀ {x}, t.InTree x → t'.heap.blockTxHashes x = t.heap.blockTxHashes x) :
    t'.canonicalChain.flatMap t'.heap.blockTxHashes =
      t.canonicalChain.flatMap t.heap.blockTxHashes := by
  obtain ⟨l, hl⟩ : ∃ l, Path t.heap.children t.root l t.head := inv.inTree_head.exists_path
  have hl' : Path t'.heap.children t'.root l t'.head := by
    rw [hroot, hhead]
    exact hl.keep (Reach.refl _) hkeep
  rw [inv.canonicalChain_eq hl, inv'.canonicalChain_eq hl', hroot]
  refine flatMap_congr fun x hx => htxs ?_
  rcases mem_cons.mp hx with rfl | hx
  · exact t.inTree_root
  · exact (hl.reach_of_mem hx).1

/-! ## What one step keeps -/

/-- **Every operation keeps the tree above the durable root.** -/
theorem TreeOp.durable (inv : TreeInv r.tree.durable) (op : TreeOp r r') :
    TreeInv r'.tree.durable := by
  cases op with
  | exec ok => exact inv.extends ok.extends
  | drop out => exact inv.free out
  | attach _ ok | attachLinear ok =>
    obtain ⟨parent, heap, chk, hl, pub⟩ := attachInner_ok ok
    exact inv.published_durable chk hl pub
  | attachSide ok =>
    obtain ⟨parent, heap, chk, hl, rfl⟩ := attachSide_ok ok
    have chk' : LinkChecked r.tree.durable _ _ _ _ _ parent :=
      ⟨chk.find, chk.height, chk.new, chk.onHead, chk.parent⟩
    exact (inv.linkChecked chk' hl).2
  | enforceSideCapacity capacity =>
    obtain ⟨heap, heq, pr⟩ := inv.enforceSideCapacity_pruned capacity
    have heq' : (r.tree.enforceSideCapacity capacity).durable = { r.tree.durable with heap } := heq
    rw [heq']
    exact inv.prune pr
  | resetRoot rootBlock => exact (treeInv_resetRoot r.tree rootBlock).durable

theorem TreeInv.durable_committed (inv : TreeInv r.tree.durable) (job : RollJob) :
    TreeInv (r.committed job).tree.durable := by
  rcases inv.commitRoll_durable job with ⟨e, he⟩ | ⟨-, -, -, hok, inv'⟩
  · simp only [TreeRun.committed, he]
    exact inv
  · simp only [TreeRun.committed, hok]
    exact inv'

theorem TreeCall.durable (inv : TreeInv r.tree.durable) (call : TreeCall r r') :
    TreeInv r'.tree.durable := by
  cases call with
  | op h => exact h.durable inv
  | attach ok =>
    obtain ⟨parent, heap, chk, hl, pub⟩ := attachInner_ok ok
    exact inv.published_durable chk hl pub
  | commitRoll job => exact inv.durable_committed job

/-- **Every run keeps the tree above the durable root.** -/
theorem TreeCalled.durable (hr : TreeCalled r) : TreeInv r.tree.durable := by
  obtain ⟨t, rootBlock, hrun⟩ := hr
  induction hrun with
  | refl => exact (treeInv_resetRoot t rootBlock).durable
  | tail _ hcall ih => exact hcall.durable ih

theorem canonicalChain_op (inv : TreeInv r.tree.durable) (op : TreeOp r r')
    (hhead : r'.tree.head = r.tree.head) :
    r'.tree.canonicalChain.flatMap r'.tree.heap.blockTxHashes =
      r.tree.canonicalChain.flatMap r.tree.heap.blockTxHashes := by
  have inv' := op.durable inv
  have hgrows : Grows r r' → r'.tree.canonicalChain.flatMap r'.tree.heap.blockTxHashes =
      r.tree.canonicalChain.flatMap r.tree.heap.blockTxHashes := fun grows =>
    canonicalChain_congr inv inv' grows.root_eq hhead
      (fun _ _ ha hc _ => grows.edge ha hc) (grows.blockTxHashes_eq inv)
  cases op with
  | exec ok => exact hgrows (.extends inv ok.extends)
  | drop out => exact hgrows (.free inv out)
  | attach _ ok | attachLinear ok => exact hgrows (.attached inv ok)
  | attachSide ok =>
    obtain ⟨parent, heap, chk, hl, rfl⟩ := attachSide_ok ok
    exact hgrows (.linked inv hl (inv.find_eq_some chk.find).1 rfl rfl
      (Or.inl ⟨rfl, rfl⟩) ⟨[], (append_nil _).symm⟩ fun hj => hj)
  | enforceSideCapacity capacity =>
    obtain ⟨heap, heq, pr⟩ := inv.enforceSideCapacity_pruned capacity
    have hheap : (r.tree.enforceSideCapacity capacity).heap = heap := congrArg Tree.heap heq
    refine canonicalChain_congr inv inv' rfl rfl (fun a c _ hc hr => ?_) fun {x} _ => ?_
    · show c ∈ (r.tree.enforceSideCapacity capacity).heap.children a
      rw [hheap]
      exact pr.keep hc hr
    · simp only [blockTxHashes, hheap, pr.body_eq]
      rfl
  | resetRoot rootBlock =>
    -- the new root is a fresh chunk, and so is the head
    have hnew : r.tree.heap.next = r.tree.head := hhead
    have hlt : r.tree.head < r.tree.heap.next := inv.lt_next inv.inTree_head
    exact absurd hlt (by omega)

theorem TxRun.canonicalTxs_committed (inv : TreeInv s.run.tree.durable) (job : RollJob) :
    (s.committed job).canonicalTxs = s.canonicalTxs := by
  obtain ⟨l, hl⟩ : ∃ l, Path s.run.tree.heap.children s.run.tree.root l s.run.tree.head :=
    inv.inTree_head.exists_path
  have hchain := inv.canonicalChain_eq hl
  rcases inv.commitRoll_durable job with ⟨e, hcommit⟩ | ⟨hne, hpath, hreach, hcommit, -⟩
  · have hs : s.run.committed job = s.run := by
      simp only [TreeRun.committed, hcommit]
    have hnone : s.run.tree.canonicalChain.takeWhile (· ≠ s.run.tree.root) = [] := by
      rw [hchain]
      simp
    simp only [canonicalTxs, committed, hs, hnone, flatMap_nil, append_nil]
  · have inv' := inv.durable_committed job
    have heq : (s.run.committed job).tree = { s.run.tree with
        heap := s.run.tree.heap.setDisk job.newRoot, root := job.newRoot } := by
      simp only [TreeRun.committed, hcommit]
    -- the chain splits at the new root
    obtain ⟨l', hl'⟩ := hreach.exists_path
    have hsplit : l = job.chain ++ l' :=
      inv.isTree.path_unique s.run.tree.inTree_root hl (hpath.append hl')
    obtain hnil | ⟨pre, last, hpre⟩ := eq_nil_or_concat job.chain
    · exact absurd hnil hne
    rw [concat_eq_append] at hpre
    rw [hpre] at hpath
    obtain ⟨q, hq, hlast, rfl⟩ := Path.snoc_iff.mp hpath
    have hpre' : ∀ x ∈ s.run.tree.root :: pre, x ≠ job.newRoot := by
      intro x hx
      have hxq : Reach s.run.tree.heap.children x q := by
        rcases mem_cons.mp hx with rfl | hx
        · exact hq.reach
        · exact (hq.reach_of_mem hx).2
      have h1 := le_of_reach hxq
      have h2 := (mem_children_lt hlast).1
      omega
    have hl'' : Path (s.run.committed job).tree.heap.children
        (s.run.committed job).tree.root l' (s.run.committed job).tree.head := by
      rw [heq]
      exact hl'.mono fun a c hc => children_setDisk.symm ▸ hc
    have hchain' := inv'.canonicalChain_eq hl''
    have htxs : (s.run.committed job).tree.heap.blockTxHashes =
        s.run.tree.heap.blockTxHashes := by
      funext x
      simp only [heq, blockTxHashes, body_setDisk]
    have hsplit' : s.run.tree.canonicalChain =
        (s.run.tree.root :: pre) ++ job.newRoot :: l' := by
      rw [hchain, hsplit, hpre]
      simp
    have hnew : (s.run.committed job).tree.root = job.newRoot := by rw [heq]
    have htake : s.run.tree.canonicalChain.takeWhile (· ≠ job.newRoot) =
        s.run.tree.root :: pre := by
      rw [hsplit', takeWhile_append_of_pos (by simpa using hpre')]
      simp
    simp only [canonicalTxs, committed, hchain', htxs, hnew, htake]
    rw [hsplit', flatMap_append, append_assoc]

variable {chunk : ℕ} {ins : Inserted}

/-- The lists an attach returns: those of `canonical_tx_diff` if the head moved, and none
otherwise. -/
theorem Published.lists {t' : Tree} {h' : Heap} {parent window : ℕ} {linear : Bool}
    (pub : Published t h' parent chunk window linear ins t') :
    (t'.head = t.head ∧ ins.confirmedTxs = [] ∧ ins.revertedTxs = []) ∨
      canonicalTxDiff t'.heap t.head t'.head = some ⟨ins.confirmedTxs, ins.revertedTxs⟩ := by
  cases pub with
  | side _ _ => exact Or.inl ⟨rfl, rfl, rfl⟩
  | head _ _ txs | roll _ _ txs _ => exact Or.inr txs

/-- Out with what is only on the left, in with what is only on the right: the left branch becomes
the right one, if nothing is lost that both share. -/
theorem mem_fold {known : Finset Hash} {shared left right : List Hash} {x : Hash}
    (hknown : ∀ y, y ∈ known ↔ y ∈ shared ∨ y ∈ left)
    (hkeep : x ∈ shared → x ∉ left.filter (· ∉ right)) :
    x ∈ (known \ (left.filter (· ∉ right)).toFinset) ∪
        (right.filter (· ∉ left)).toFinset ↔ x ∈ shared ∨ x ∈ right := by
  simp only [Finset.mem_union, Finset.mem_sdiff, mem_toFinset, hknown, mem_filter,
    decide_eq_true_eq, not_and, not_not] at hkeep ⊢
  by_cases hl : x ∈ left <;> by_cases hr : x ∈ right <;> by_cases hs : x ∈ shared <;>
    simp_all

/-- The chains before and after a head change: a shared part, and the two segments the
lists are computed from. -/
structure ChainFork (s : TxRun) (ins : Inserted) (t : Tree) (shared lo ln : List ℕ) : Prop where
  before : s.run.tree.canonicalChain = shared ++ lo
  after : t.canonicalChain = shared ++ ln
  txs : ∀ p ∈ shared ++ lo, s.run.tree.heap.blockTxHashes p = t.heap.blockTxHashes p
  confirmed : ins.confirmedTxs = (ln.flatMap t.heap.blockTxHashes).filter
    (· ∉ lo.flatMap t.heap.blockTxHashes)
  reverted : ins.revertedTxs = (lo.flatMap t.heap.blockTxHashes).filter
    (· ∉ ln.flatMap t.heap.blockTxHashes)

theorem exists_chainFork (inv : TreeInv s.run.tree.durable) (inv' : TreeInv t.durable)
    (grows : Grows s.run (s.run.attached ins t))
    (hdiff : canonicalTxDiff t.heap s.run.tree.head t.head =
      some ⟨ins.confirmedTxs, ins.revertedTxs⟩) :
    ∃ shared lo ln, ChainFork s ins t shared lo ln := by
  have hroot : t.root = s.run.tree.root := grows.root_eq
  obtain ⟨l, hl⟩ : ∃ l, Path s.run.tree.heap.children s.run.tree.root l s.run.tree.head :=
    inv.inTree_head.exists_path
  have hl' : Path t.heap.children t.root l s.run.tree.head :=
    hroot ▸ hl.keep (Reach.refl _) fun _ _ ha hc _ => grows.edge ha hc
  obtain ⟨c, lo, ln, fork, hfork⟩ :=
    inv'.canonicalTxDiff_fork (hl'.reach : t.durable.InTree _) inv'.inTree_head
  replace hfork := hdiff.symm.trans hfork
  rw [Option.some.injEq, CanonicalTxDiff.mk.injEq] at hfork
  obtain ⟨lc, hlc⟩ := fork.common.exists_path
  obtain rfl : l = lc ++ lo :=
    inv'.isTree.path_unique t.inTree_root hl' (hlc.append fork.left)
  refine ⟨t.root :: lc, lo, ln, ?_, ?_, fun p hp => ?_, hfork.1, hfork.2⟩
  · rw [inv.canonicalChain_eq hl, hroot, cons_append]
  · rw [inv'.canonicalChain_eq (hlc.append fork.right), cons_append]
  · refine (grows.blockTxHashes_eq inv ?_).symm
    rw [cons_append, hroot] at hp
    rcases mem_cons.mp hp with rfl | hp
    · exact s.run.tree.inTree_root
    · exact (hl.reach_of_mem hp).1

theorem ChainFork.known_attached {shared : List ℕ}
    (fork : ChainFork s ins t shared lo ln) (hknown : s.known = s.canonicalTxs.toFinset)
    (keeps : KeepsShared s (s.attached ins t)) :
    (s.attached ins t).known = (s.attached ins t).canonicalTxs.toFinset := by
  have hold : s.canonicalTxs = (s.below ++ shared.flatMap t.heap.blockTxHashes) ++
      lo.flatMap t.heap.blockTxHashes := by
    rw [canonicalTxs, fork.before, flatMap_congr fork.txs, flatMap_append,
      append_assoc]
  have hnew : (s.attached ins t).canonicalTxs =
      (s.below ++ shared.flatMap t.heap.blockTxHashes) ++
        ln.flatMap t.heap.blockTxHashes := by
    show s.below ++ t.canonicalChain.flatMap t.heap.blockTxHashes = _
    rw [fork.after, flatMap_append, append_assoc]
  have hknown' : (s.attached ins t).known =
      (s.known \ ins.revertedTxs.toFinset) ∪ ins.confirmedTxs.toFinset := rfl
  ext x
  rw [hnew, mem_toFinset, mem_append, hknown', fork.confirmed, fork.reverted]
  refine mem_fold (fun y => ?_) fun hx hrev => ?_
  · rw [hknown, mem_toFinset, hold, mem_append]
  · -- a reverted hash of a shared block is one the condition excludes
    have hin : x ∈ s.known := by
      rw [hknown, mem_toFinset, hold]
      exact mem_append_left _ hx
    have hout : x ∉ (s.attached ins t).known := by
      have hleft := (mem_filter.mp hrev).1
      rw [hknown', fork.confirmed, fork.reverted]
      simp only [Finset.mem_union, Finset.mem_sdiff, mem_toFinset, hrev,
        mem_filter, hleft, not_true_eq_false, decide_false, and_false, or_self,
        not_false_eq_true, Bool.false_eq_true]
    obtain ⟨hbelow, hshared⟩ := keeps x hin hout
    rcases mem_append.mp hx with hx | hx
    · exact hbelow hx
    · obtain ⟨p, hp, hxp⟩ := mem_flatMap.mp hx
      refine hshared p ?_ ?_ ?_
      · exact fork.before ▸ mem_append_left _ hp
      · show p ∈ t.canonicalChain
        exact fork.after ▸ mem_append_left _ hp
      · rw [fork.txs p (mem_append_left _ hp)]
        exact hxp

/-- **An attach keeps the set in step with the chain.** -/
theorem TxRun.known_attached {parentHash : Hash} {window : ℕ} {linear : Bool}
    (inv : TreeInv s.run.tree.durable) (inv' : TreeInv t.durable)
    (hknown : s.known = s.canonicalTxs.toFinset)
    (ok : s.run.tree.attachInner parentHash chunk window linear = .ok (ins, t))
    (keeps : KeepsShared s (s.attached ins t)) :
    (s.attached ins t).known = (s.attached ins t).canonicalTxs.toFinset := by
  have grows := Grows.attached inv ok
  obtain ⟨parent, heap, chk, hlink, pub⟩ := attachInner_ok ok
  rcases pub.lists with ⟨hhead, hconf, hrev⟩ | hdiff
  · have hchain := canonicalChain_congr inv inv' grows.root_eq hhead
      (fun _ _ ha hc _ => grows.edge ha hc) (grows.blockTxHashes_eq inv)
    simp only [attached, hconf, hrev, canonicalTxs, TreeRun.attached, hchain]
    rw [hknown, canonicalTxs, toFinset_nil, Finset.sdiff_empty, Finset.union_empty]
  · obtain ⟨shared, lo, ln, fork⟩ := exists_chainFork inv inv' grows hdiff
    exact fork.known_attached hknown keeps

/-- The set follows the canonical chain. -/
structure TxInv (s : TxRun) : Prop where
  tree : TreeInv s.run.tree.durable
  known : s.known = s.canonicalTxs.toFinset

theorem txInv_init (t : Tree) (rootBlock : Block) (below : List Hash) :
    TxInv (.init t rootBlock below) where
  tree := (treeInv_resetRoot t rootBlock).durable
  known := by
    have hcell := t.heap.cell_newRoot rootBlock
    have inv := (treeInv_resetRoot t rootBlock).durable
    have htxs : (t.resetRoot rootBlock).heap.blockTxHashes (t.resetRoot rootBlock).root = [] := by
      show (t.heap.newRoot rootBlock).2.blockTxHashes t.heap.next = []
      rw [blockTxHashes, body, hcell]
      rfl
    have hl : Path (t.resetRoot rootBlock).heap.children (t.resetRoot rootBlock).root []
        (t.resetRoot rootBlock).head := rfl
    simp only [init, canonicalTxs, inv.canonicalChain_eq hl, flatMap_cons,
      htxs, flatMap_nil, append_nil]

/-- **Every step keeps the set in step with the chain.** -/
theorem txInv_step (inv : TxInv s) (step : TxStep s s') (keeps : KeepsShared s s') : TxInv s' := by
  cases step with
  | attach ok =>
    have htree := (TreeCall.attach ok).durable inv.tree
    exact ⟨htree, known_attached inv.tree htree inv.known ok keeps⟩
  | silent op head =>
    refine ⟨op.durable inv.tree, ?_⟩
    simp only [canonicalTxs, canonicalChain_op inv.tree op head]
    exact inv.known
  | commitRoll job =>
    refine ⟨inv.tree.durable_committed job, ?_⟩
    rw [canonicalTxs_committed inv.tree job]
    exact inv.known

/-- **The set follows the chain along every run.** -/
theorem txInv_of_reachable (hs : TxReachable s) : TxInv s := by
  obtain ⟨t, rootBlock, below, hrun⟩ := hs
  induction hrun with
  | refl => exact txInv_init t rootBlock below
  | tail _ hstep ih => exact txInv_step ih hstep.1 hstep.2

/-- **The canonical transaction set.** The reverted hashes are those of the blocks only the old head
descends from, without the ones of the new segment; the confirmed hashes the other way round.
Folding them along a run that takes out no hash of a block that stays yields the transaction
hashes of the canonical chain. -/
theorem canonicalTxs_tracked :
    (∀ r : TreeRun, TreeCalled r → ∀ old new, r.tree.InTree old → r.tree.InTree new →
      ∃ c lo ln, Path r.tree.heap.children c lo old ∧ Path r.tree.heap.children c ln new ∧
        (∀ x, x ∈ lo ↔ r.tree.InTree x ∧ Reach r.tree.heap.children x old ∧
          ¬ Reach r.tree.heap.children x new) ∧
        (∀ x, x ∈ ln ↔ r.tree.InTree x ∧ Reach r.tree.heap.children x new ∧
          ¬ Reach r.tree.heap.children x old) ∧
        canonicalTxDiff r.tree.heap old new = some
          { confirmed := (ln.flatMap r.tree.heap.blockTxHashes).filter
              (· ∉ lo.flatMap r.tree.heap.blockTxHashes)
            reverted := (lo.flatMap r.tree.heap.blockTxHashes).filter
              (· ∉ ln.flatMap r.tree.heap.blockTxHashes) }) ∧
    (∀ s : TxRun, TxReachable s → s.known = s.canonicalTxs.toFinset) := by
  refine ⟨fun r hr old new ho hn => ?_, fun s hs => (txInv_of_reachable hs).known⟩
  have inv := hr.durable
  obtain ⟨c, lo, ln, fork, hdiff⟩ := inv.canonicalTxDiff_fork ho hn
  exact ⟨c, lo, ln, fork.left, fork.right, fun x => inv.mem_left fork,
    fun x => inv.mem_left fork.symm, hdiff⟩

/-! ## Two runs with a reorganisation -/

instance (s s' : TxRun) : Decidable (KeepsShared s s') :=
  inferInstanceAs (Decidable (∀ x ∈ s.known, _))

/-- Executes a transaction that writes nothing. -/
def sampleTx (chunk : ℕ) (h : Heap) (txHash : Hash) : Except ChunkError Heap := do
  let (tx, h) ← h.spawnTxChild chunk txHash
  let (_, h) ← h.commitToParent tx
  .ok h

/-- Executes `block` with the transactions `txs` on its parent. -/
def sampleExec (t : Tree) (block : Block) (txs : List Hash) : Except TreeError (ℕ × Heap) := do
  match ← t.beginBlockExecution block.prevHash block (.fromHeight block.height) with
  | none => .error (.parentNotInTree false (block.height - 1) block.prevHash)
  | some (chunk, _, heap) =>
    let heap ← liftChunk (txs.foldlM (sampleTx chunk) heap)
    .ok (chunk, heap)

/-- The run `s` with the memory `heap`. -/
def TxRun.withHeap (s : TxRun) (heap : Heap) : TxRun :=
  { s with run := { s.run with tree := { s.run.tree with heap } } }

/-- Executes and attaches blocks, with window 1 if linear and else 4. With `check`, breaking
`KeepsShared` ends the run. -/
def TxRun.take (check : Bool) : List (Bool × Block × List Hash) → TxRun → Option TxRun
  | [], s => some s
  | (linear, block, txs) :: rest, s =>
    match sampleExec s.run.tree block txs with
    | .error _ => none
    | .ok (chunk, heap) =>
      match (s.withHeap heap).run.tree.attachInner block.prevHash chunk (if linear then 1 else 4)
        linear with
      | .error _ => none
      | .ok (ins, t) =>
        let s' := (s.withHeap heap).attached ins t
        if check = true → KeepsShared (s.withHeap heap) s' then take check rest s' else none

/-- The steps `take` makes. -/
abbrev TxRun.Steps (check : Bool) : TxRun → TxRun → Prop :=
  ReflTransGen fun s s' => TxStep s s' ∧ (check = true → KeepsShared s s')

theorem TxRun.steps_exec {check : Bool} {heap : Heap}
    (hs : ReflTransGen Heap.ExecStep s.run.tree.heap heap) :
    TxRun.Steps check s (s.withHeap heap) := by
  induction hs with
  | refl => exact .refl
  | tail _ hstep ih =>
    refine ih.tail ⟨.silent (.exec hstep) rfl, fun _ x hx hout => absurd hx hout⟩

theorem sampleTx_steps {h h' : Heap} {txHash : Hash}
    (hs : sampleTx chunk h txHash = .ok h') : ReflTransGen Heap.ExecStep h h' := by
  obtain ⟨⟨tx, h₁⟩, h1, hs⟩ := bind_eq_ok hs
  obtain ⟨⟨q, h₂⟩, h2, hs⟩ := bind_eq_ok hs
  cases hs
  exact .tail (.single (.spawnTx h1)) (.commit h2)

theorem foldlM_sampleTx_steps : ∀ {txs : List Hash} {h h' : Heap},
    txs.foldlM (sampleTx chunk) h = .ok h' → ReflTransGen Heap.ExecStep h h'
  | [], h, h', hs => by
    cases hs
    exact .refl
  | tx :: txs, h, h', hs => by
    rw [foldlM_cons] at hs
    obtain ⟨h₁, h1, hs⟩ := bind_eq_ok hs
    exact (sampleTx_steps h1).trans (foldlM_sampleTx_steps hs)

theorem sampleExec_steps {block : Block} {txs : List Hash} {heap : Heap}
    (hs : sampleExec t block txs = .ok (chunk, heap)) :
    ReflTransGen Heap.ExecStep t.heap heap := by
  obtain ⟨begun, h1, hs⟩ := bind_eq_ok hs
  match begun, hs with
  | some (chunk', parent, h₁), hs =>
    obtain ⟨h₂, h2, hs⟩ := bind_eq_ok hs
    cases hs
    exact (ReflTransGen.single (.blockExec (beginBlockExecution_ok h1).2.2.2)).trans
      (foldlM_sampleTx_steps (liftChunk_ok h2))

theorem TxRun.take_steps {check : Bool} :
    ∀ {blocks : List (Bool × Block × List Hash)} {s s' : TxRun},
      take check blocks s = some s' → TxRun.Steps check s s'
  | [], s, s', hs => by
    cases hs
    exact .refl
  | (linear, block, txs) :: rest, s, s', hs => by
    rw [take] at hs
    split at hs
    · cases hs
    next hexec =>
      split at hs
      · cases hs
      next hattach =>
        dsimp only at hs
        split at hs
        next hcond =>
          exact ((steps_exec (sampleExec_steps hexec)).tail
            ⟨.attach hattach, hcond⟩).trans (take_steps hs)
        · cases hs

/-- A block on `sampleChild`. -/
def sampleLeft : Block := .sample 2 3 2

/-- Another block on `sampleChild`. -/
def sampleRight : Block := .sample 2 4 2

/-- A block on `sampleRight`, higher than `sampleLeft`. -/
def sampleTop : Block := .sample 3 5 4

/-- The tree at `sampleRoot`, before any block. -/
def sampleTxs : TxRun := .init (.new .empty sampleRoot) sampleRoot []

/-- A run that leaves `sampleLeft` for `sampleTop`, where one of its transactions is included
again. The roll to `sampleLeft` is planned by then. -/
def sampleReorg : Option TxRun :=
  sampleTxs.take true
    [(true, sampleChild, [.fill 9]), (true, sampleLeft, [.fill 10, .fill 11]),
      (false, sampleRight, [.fill 10]), (false, sampleTop, [.fill 12])]

theorem canonicalTxs_tracked_reorg :
    ∃ s, sampleReorg = some s ∧ TxReachable s ∧ s.known = s.canonicalTxs.toFinset ∧
      s.canonicalTxs = [.fill 9, .fill 10, .fill 12] ∧
      s.run.tree.scheduledRoot ∉ s.run.tree.canonicalChain := by
  have hsome : sampleReorg.isSome = true := by decide
  obtain ⟨s, hs⟩ := Option.isSome_iff_exists.mp hsome
  have hlist : sampleReorg.map canonicalTxs = some [.fill 9, .fill 10, .fill 12] := by
    decide
  have hleft : sampleReorg.map (fun s => decide (s.run.tree.scheduledRoot ∈
      s.run.tree.canonicalChain)) = some false := by
    decide
  have hreach : TxReachable s := by
    refine ⟨_, _, _, ReflTransGen.mono ?_ _ _ (take_steps hs)⟩
    exact fun a b h => ⟨h.1, h.2 rfl⟩
  rw [hs, Option.map_some, Option.some.injEq] at hlist hleft
  exact ⟨s, hs, hreach, canonicalTxs_tracked.2 s hreach, hlist, of_decide_eq_false hleft⟩

/-- Without the condition a hash is lost: `sampleLeft` repeats the transaction of the block below
it. -/
theorem canonicalTxs_lost :
    ∃ s, ReflTransGen TxStep sampleTxs s ∧
      s.canonicalTxs = [.fill 9] ∧ s.known = ∅ := by
  let run := sampleTxs.take false
    [(false, sampleChild, [.fill 9]), (false, sampleLeft, [.fill 9]), (false, sampleRight, []),
      (false, sampleTop, [])]
  have hsome : run.isSome = true := by decide
  obtain ⟨s, hs⟩ := Option.isSome_iff_exists.mp hsome
  have hlist : run.map canonicalTxs = some [.fill 9] := by decide
  have hknown : run.map known = some ∅ := by decide
  rw [hs, Option.map_some, Option.some.injEq] at hlist hknown
  have hrun : ReflTransGen TxStep sampleTxs s :=
    ReflTransGen.mono (fun a b h => h.1) _ _ (take_steps hs)
  exact ⟨s, hrun, hlist, hknown⟩

end Hacash
