import Hacash.Chain.TreeRun

/-!
# Durable root rolls (`chain/src/persist.rs`)

`roll_root` writes the layers of a chain and the root markers, and then promotes the new root. **Key
result**: `rollRoot_invisible`, for all keys but the root markers.
-/

namespace Hacash

open Lib Heap Overlay Option List Relation

variable {t : Tree} {h h' : Heap} {a b p q x : ℕ} {k : Key} {disk : Disk} {job : RollJob}

/-! ## The batch (persist.rs:193–219) -/

/-- The writes of a chain, oldest first: the last write of a key wins. -/
def chainBatch (h : Heap) (chain : List ℕ) : MemKV :=
  chain.foldl (fun batch c => ((h.frozenState c).getD empty).onto batch) empty

/-- `RootBatch`: the writes of the chain, then the root markers. -/
def rootBatch (h : Heap) (job : RollJob) : MemKV :=
  ((chainBatch h job.chain).put persistKeyRootHash (hashOf h job.newRoot).bytes).put
    persistKeyRootHeight (beBytes 8 (heightOf h job.newRoot))

theorem chainBatch_snoc (h : Heap) (chain : List ℕ) (c : ℕ) :
    chainBatch h (chain ++ [c]) = ((h.frozenState c).getD empty).onto (chainBatch h chain) := by
  rw [chainBatch, foldl_append]
  rfl

theorem chainBatch_eq_none (h : Heap) {l : List ℕ}
    (hl : ∀ c ∈ l, (h.frozenState c).getD empty k = none) : chainBatch h l k = none := by
  induction l using reverseRecOn with
  | nil => rfl
  | append_singleton l x ih =>
    rw [chainBatch_snoc, onto_apply, hl x (by simp),
      ih fun c hc => hl c (mem_append_left _ hc)]
    rfl

theorem rootBatch_apply (hk : ¬ IsRootMarker k) : rootBatch h job k = chainBatch h job.chain k := by
  rw [IsRootMarker, not_or] at hk
  rw [rootBatch, put_other _ _ hk.2, put_other _ _ hk.1]

/-! ## Layered reads in the tree -/

/-- The value a layer gives, or else `below`. -/
def readThrough (layer : MemKV) (k : Key) (below : Option (Option Val)) : Option (Option Val) :=
  match layer k with
  | some value => some value
  | none => below

theorem getState_of_parent (hs : h.source p = some (.parent q)) :
    h.getState disk p k = readThrough (h.layer p) k (h.getState disk q k) := by
  obtain ⟨c, hc, hsrc⟩ := map_eq_some_iff.mp hs
  rw [getState_eq, hc]
  cases hk : c.body.layer k with
  | some value => simp [readThrough, layer, body, hc, hk]
  | none => simp [readThrough, layer, body, hc, hk, hsrc]

theorem getState_of_disk (hs : h.source p = some .disk) :
    h.getState disk p k = some ((h.layer p).apply disk k) := by
  obtain ⟨c, hc, hsrc⟩ := map_eq_some_iff.mp hs
  rw [getState_eq, hc]
  simp only [layer, body, hc, hsrc, map_some, getD_some, apply]
  cases c.body.layer k <;> rfl

theorem layer_of_isAttached (hp : IsAttached h p) : (h.frozenState p).getD empty = h.layer p := by
  obtain ⟨_, _, δ, -, hb⟩ := hp
  rw [frozenState, layer, hb]
  rfl

theorem TreeInv.getState_path (inv : TreeInv t) (ha : t.InTree a) :
    ∀ (l : List ℕ) {b : ℕ}, Path t.heap.children a l b →
      t.heap.getState disk b k =
        readThrough (chainBatch t.heap l) k (t.heap.getState disk a k) := by
  intro l
  induction l using reverseRecOn with
  | nil =>
    intro b hl
    obtain rfl : a = b := hl
    rfl
  | append_singleton l x ih =>
    intro b hl
    obtain ⟨p, hp, hx, rfl⟩ := Path.snoc_iff.mp hl
    have hin : t.InTree p := ha.trans hp.reach
    rw [getState_of_parent (inv.source hin hx), ih hp, chainBatch_snoc,
      layer_of_isAttached (inv.attached (hin.tail hx))]
    simp only [readThrough, onto_apply]
    cases t.heap.layer x k <;> rfl

/-- `x` is `a` or reads from it through parent links. -/
def ReadsFrom (h : Heap) (x a : ℕ) : Prop :=
  ReflTransGen (fun c p => h.source c = some (.parent p)) x a

/-- What agrees at `a` agrees at every chunk that reads from it, if the chunks in between are the
same. -/
theorem ReadsFrom.getState_congr {disk' : Disk} (hx : ReadsFrom h x a)
    (hcell : ∀ p, p ≠ a → h'.cell p = h.cell p) (ha : h'.getState disk' a k = h.getState disk a k) :
    h'.getState disk' x k = h.getState disk x k := by
  induction hx using ReflTransGen.head_induction_on with
  | refl => exact ha
  | @head p q hpq _ ih =>
    by_cases hpa : p = a
    · rw [hpa]
      exact ha
    · have hsrc : h'.source p = some (.parent q) := by
        rw [source, hcell p hpa]
        exact hpq
      have hlayer : h'.layer p = h.layer p := by
        rw [layer, body, hcell p hpa]
        rfl
      rw [getState_of_parent hsrc, getState_of_parent hpq, hlayer, ih]

/-! ## Runs with a disk -/

/-- What the root's own layer says about a key, the disk says too. -/
def RootOnDisk (t : Tree) (disk : Disk) : Prop :=
  ∀ k v, ¬ IsRootMarker k → t.heap.layer t.root k = some v → disk k = v

/-- A fork-tree run and the state database. -/
structure DurableRun where
  run : TreeRun
  disk : Disk

/-- `roll_root` (persist.rs:16–33): validate, write the batch, commit. -/
def DurableRun.rollRoot (s : DurableRun) (job : RollJob) : DurableRun :=
  match s.run.tree.validateRoll job with
  | .error _ => s
  | .ok _ =>
    { run := s.run.committed job
      disk := s.disk.write (rootBatch s.run.tree.heap job) }

/-- One step: an operation of the tree, or a roll of a job planned before. -/
inductive DurableStep : DurableRun → DurableRun → Prop
  | op {s : DurableRun} {run : TreeRun} (h : TreeOp s.run run) : DurableStep s { s with run }
  | rollRoot {s : DurableRun} {job : RollJob} (known : job ∈ s.run.planned) :
      DurableStep s (s.rollRoot job)

/-- A state some run reaches from a freshly reset tree on any disk. -/
def DurableReachable (s : DurableRun) : Prop :=
  ∃ (t : Tree) (rootBlock : Block) (disk : Disk),
    ReflTransGen DurableStep ⟨⟨t.resetRoot rootBlock, [], []⟩, disk⟩ s

/-- The invariant of a run with a disk. -/
structure DurableInv (s : DurableRun) : Prop where
  run : RunInv s.run
  onDisk : RootOnDisk s.run.tree s.disk

variable {r r' : TreeRun} {s s' : DurableRun}

theorem layer_resetRoot (t : Tree) (rootBlock : Block) :
    (t.resetRoot rootBlock).heap.layer (t.resetRoot rootBlock).root = Overlay.empty := by
  have hcell : (t.resetRoot rootBlock).heap.cell t.heap.next = _ :=
    t.heap.cell_newRoot rootBlock
  show (t.resetRoot rootBlock).heap.layer t.heap.next = _
  rw [layer, body, hcell]
  rfl

/-- An operation leaves the root and its body alone, or starts over from an empty root. -/
theorem TreeOp.root_body (inv : RunInv r) (hs : TreeOp r r') :
    (r'.tree.root = r.tree.root ∧ r'.tree.heap.body r.tree.root = r.tree.heap.body r.tree.root) ∨
      r'.tree.heap.layer r'.tree.root = Overlay.empty := by
  obtain ⟨_, _, δ, -, hb⟩ := inv.tree.attached r.tree.inTree_root
  -- the root is frozen, a linked chunk was writable
  have hlinked : ∀ {h' : Heap} {par child : ℕ}, Linked r.tree.heap h' par child →
      h'.body r.tree.root = r.tree.heap.body r.tree.root := by
    intro h' par child l
    refine l.body_ne ?_
    rintro rfl
    obtain ⟨δ', hδ', -⟩ := l.froze
    rw [hb] at hδ'
    cases hδ'
  cases hs with
  | exec ok =>
    obtain ⟨c, hc, hcb⟩ := map_eq_some_iff.mp hb
    exact Or.inl ⟨rfl, ok.extends.body_eq hc (by rw [hcb]; rfl)⟩
  | @drop p out =>
    have hne : r.tree.root ≠ p := fun e => out (e ▸ r.tree.inTree_root)
    refine Or.inl ⟨rfl, ?_⟩
    rw [body, cell_free_of_ne hne]
    rfl
  | attach ready ok =>
    obtain ⟨parent, heap, chk, l, pub⟩ := attachInner_ok ok
    obtain ⟨-, hheap, hroot, -⟩ := inv.tree.published chk l pub fun _ => ready
    exact Or.inl ⟨hroot, (congrArg (body · r.tree.root) hheap).trans (hlinked l)⟩
  | attachLinear ok =>
    obtain ⟨parent, heap, chk, l, pub⟩ := attachInner_ok ok
    obtain ⟨-, hheap, hroot, -⟩ := inv.tree.published chk l pub fun h => by cases h
    exact Or.inl ⟨hroot, (congrArg (body · r.tree.root) hheap).trans (hlinked l)⟩
  | attachSide ok =>
    obtain ⟨parent, heap, chk, l, rfl⟩ := attachSide_ok ok
    exact Or.inl ⟨rfl, hlinked l⟩
  | enforceSideCapacity capacity =>
    obtain ⟨heap, heq, pr⟩ := inv.tree.enforceSideCapacity_pruned capacity
    rw [heq]
    exact Or.inl ⟨rfl, pr.body_eq _⟩
  | resetRoot rootBlock => exact Or.inr (layer_resetRoot r.tree rootBlock)

/-- A planned job that passes validation spans a path from the durable root to an
ancestor of the scheduled root. -/
theorem RunInv.jobAt_of_valid (inv : RunInv r) (hj : job ∈ r.planned)
    (hv : r.tree.validateRoll job = .ok ()) :
    JobAt r.tree.heap r.tree.root job ∧ r.pending.head? = some job ∧
      Reach r.tree.heap.children job.newRoot r.tree.scheduledRoot := by
  by_cases hh : r.pending.head? = some job
  · obtain ⟨js, hjs⟩ := head?_eq_some_iff.mp hh
    have hp := inv.pending
    rw [hjs] at hp
    exact ⟨hp.1, hh, hp.2.reach⟩
  · obtain ⟨e, herr, -⟩ := inv.commitRoll_other hj hh
    rw [hv] at herr
    cases herr

theorem TreeInv.rootBatch_newRoot (inv : TreeInv t) (hj : JobAt t.heap t.root job)
    (hk : ¬ IsRootMarker k) {v : Option Val} (hv : t.heap.layer job.newRoot k = some v) :
    rootBatch t.heap job k = some v := by
  rw [rootBatch_apply hk]
  obtain ⟨l, x, hl⟩ : ∃ l x, job.chain = l ++ [x] :=
    ⟨_, _, (dropLast_append_getLast hj.nonempty).symm⟩
  have hpath := hj.path
  rw [hl] at hpath ⊢
  obtain ⟨p, hp, hx, rfl⟩ := Path.snoc_iff.mp hpath
  rw [chainBatch_snoc, layer_of_isAttached (inv.attached (hp.reach.tail hx)),
    onto_apply, hv]
  rfl

/-- **Every step keeps the invariant.** -/
theorem durableInv_step (inv : DurableInv s) (hs : DurableStep s s') : DurableInv s' := by
  cases hs with
  | op h =>
    refine ⟨runInv_op inv.run h, ?_⟩
    intro k v hk hv
    rcases h.root_body inv.run with ⟨hroot, hbody⟩ | hempty
    · refine inv.onDisk k v hk ?_
      rw [hroot, layer, hbody] at hv
      exact hv
    · rw [hempty] at hv
      cases hv
  | @rollRoot job known =>
    unfold DurableRun.rollRoot
    cases hvalid : s.run.tree.validateRoll job with
    | error e => exact inv
    | ok _ =>
      refine ⟨inv.run.committed known, ?_⟩
      obtain ⟨hat, hhead, -⟩ := inv.run.jobAt_of_valid known hvalid
      intro k v hk hv
      rw [inv.run.committed_tree hhead] at hv
      have hv' : s.run.tree.heap.layer job.newRoot k = some v := by
        simpa only [layer, body_setDisk] using hv
      exact apply_of_some (inv.run.tree.rootBatch_newRoot hat hk hv') _

theorem durableInv_of_reachable (hs : DurableReachable s) : DurableInv s := by
  obtain ⟨t, rootBlock, disk, hrun⟩ := hs
  induction hrun with
  | refl =>
    refine ⟨runInv_init t rootBlock, fun k v _ hv => ?_⟩
    rw [layer_resetRoot] at hv
    cases hv
  | tail _ hstep ih => exact durableInv_step ih hstep

/-! ## The three phases of a roll -/

theorem TreeInv.getState_newRoot (inv : TreeInv t) (honDisk : RootOnDisk t disk)
    (hj : JobAt t.heap t.root job) (hk : ¬ IsRootMarker k) :
    t.heap.getState disk job.newRoot k = some (disk.write (rootBatch t.heap job) k) := by
  rw [inv.getState_path t.inTree_root _ hj.path, getState_of_disk inv.rootDisk]
  simp only [readThrough, Disk.write]
  cases hc : chainBatch t.heap job.chain k with
  | some v => rw [apply_of_some ((rootBatch_apply hk).trans hc)]
  | none =>
    rw [apply_of_none ((rootBatch_apply hk).trans hc)]
    cases hl : t.heap.layer t.root k with
    | some v => rw [apply_of_some hl, honDisk k v hk hl]
    | none => rw [apply_of_none hl]

section

variable (inv : TreeInv t) (hj : JobAt t.heap t.root job) (hk : ¬ IsRootMarker k)
include inv hj hk

theorem TreeInv.getState_written :
    t.heap.getState (disk.write (rootBatch t.heap job)) job.newRoot k =
      t.heap.getState disk job.newRoot k := by
  rw [inv.getState_path t.inTree_root _ hj.path, inv.getState_path t.inTree_root _ hj.path,
    getState_of_disk inv.rootDisk, getState_of_disk inv.rootDisk]
  simp only [readThrough, Disk.write, apply]
  cases hc : chainBatch t.heap job.chain k with
  | some v => rfl
  | none => rw [(rootBatch_apply hk).trans hc, getD_none]

/-- The promoted root reads what is on disk. -/
theorem TreeInv.getState_promoted :
    (t.heap.setDisk job.newRoot).getState (disk.write (rootBatch t.heap job)) job.newRoot k =
      some (disk.write (rootBatch t.heap job) k) := by
  have hnew : t.InTree job.newRoot := hj.path.reach
  obtain ⟨c, hc⟩ := isSome_iff_exists.mp (inv.isSome_cell hnew)
  rw [getState_of_disk (source_setDisk_self hc)]
  have hlayer : (t.heap.setDisk job.newRoot).layer job.newRoot = t.heap.layer job.newRoot := by
    simp only [layer, body_setDisk]
  rw [hlayer]
  cases hl : t.heap.layer job.newRoot k with
  | some v =>
    rw [apply_of_some hl, Disk.write,
      apply_of_some (inv.rootBatch_newRoot hj hk hl)]
  | none => rw [apply_of_none hl]

end

/-- **A root roll is invisible to readers.** For every planned job `roll_root` accepts, a read at or
below the new root, of any key but the root markers, is the same before the batch is written,
after it, and after the commit. -/
theorem rollRoot_invisible (hs : DurableReachable s) (hj : job ∈ s.run.planned)
    (hv : s.run.tree.validateRoll job = .ok ()) (hx : ReadsFrom s.run.tree.heap x job.newRoot)
    (hk : ¬ IsRootMarker k) :
    s.run.tree.heap.getState (s.disk.write (rootBatch s.run.tree.heap job)) x k =
        s.run.tree.heap.getState s.disk x k ∧
      (s.run.tree.commitRoll job).2.heap.getState
          (s.disk.write (rootBatch s.run.tree.heap job)) x k =
        s.run.tree.heap.getState s.disk x k := by
  have inv := durableInv_of_reachable hs
  obtain ⟨hat, hhead, -⟩ := inv.run.jobAt_of_valid hj hv
  constructor
  · exact hx.getState_congr (fun _ _ => rfl) (inv.run.tree.getState_written hat hk)
  · rw [(inv.run.commitRoll_head hhead).2]
    refine hx.getState_congr (fun p hp => cell_setDisk_of_ne hp) ?_
    rw [inv.run.tree.getState_promoted hat hk, inv.run.tree.getState_newRoot inv.onDisk hat hk]

theorem durableReachable_sampleRun : DurableReachable ⟨sampleRun, fun _ => none⟩ := by
  have hrun : ReflTransGen DurableStep
      ⟨⟨(Tree.new .empty sampleRoot).resetRoot sampleRoot, [], []⟩, fun _ => none⟩
      ⟨⟨sampleTree, [], []⟩, fun _ => none⟩ :=
    .single (.op (.exec (.blockExec sampleTree_exec)))
  unfold sampleRun
  split
  · next hok => exact ⟨_, _, _, hrun.tail (.op (.attachLinear hok))⟩
  · exact ⟨_, _, _, hrun⟩

/-- A disk with one key. -/
def sampleDisk : Disk := fun k => if k = [2] then some [5] else none

/-- A block on `sampleChild`. -/
def sampleGrandchild : Block := .sample 2 3 2

/-- The execution chunk of `sampleChild` after it has put a key. -/
def putHeap : Heap := (sampleTree.heap.set 2 [1] [7]).getD sampleTree.heap

/-- The same chunk after it has also deleted the key of the disk. -/
def deletedHeap : Heap := (putHeap.del 2 [2]).getD putHeap

/-- After attaching a chunk with window 2. -/
def TreeRun.grown (r : TreeRun) (parentHash : Hash) (chunk : ℕ) : TreeRun :=
  match r.tree.attachLinear parentHash chunk 2 with
  | .ok (ins, t) => r.attached ins t
  | .error _ => r

/-- `sampleChild` is attached. -/
def childRun : TreeRun :=
  TreeRun.grown ⟨{ sampleTree with heap := deletedHeap }, [], []⟩ sampleRoot.hash 2

/-- `sampleGrandchild` is executed on it. -/
def grandchildTree : Tree :=
  match childRun.tree.heap.blockExecOn 2 sampleGrandchild (.fromHeight 2) with
  | .ok (_, heap) => { childRun.tree with heap }
  | .error _ => childRun.tree

/-- Both blocks are attached, and the roll to the second is planned. -/
def writtenRun : TreeRun := { childRun with tree := grandchildTree }.grown sampleChild.hash 3

/-- The job `writtenRun` has planned. -/
def writtenJob : RollJob := ⟨sampleRoot.hash, 0, 3, [2, 3]⟩

/-- `writtenRun` is reached by any relation that begins, writes and attaches blocks. -/
theorem writtenRun_reached {R : TreeRun → TreeRun → Prop}
    (begun : ∀ {r : TreeRun} {block : Block} {chunk parent : ℕ} {heap : Heap},
      block = sampleChild ∨ block = sampleGrandchild →
      r.tree.beginBlockExecution block.prevHash block (.fromHeight block.height) =
        .ok (some (chunk, parent, heap)) → R r { r with tree := { r.tree with heap } })
    (wrote : ∀ {r : TreeRun} {p : ℕ} {body : ChunkBody},
      ExecStep r.tree.heap (r.tree.heap.setBody p body) →
      R r { r with tree := { r.tree with heap := r.tree.heap.setBody p body } })
    (linked : ∀ {r : TreeRun} {parentHash : Hash} {chunk : ℕ} {ins : Inserted} {t : Tree},
      r.tree.attachLinear parentHash chunk 2 = .ok (ins, t) → R r (r.attached ins t)) :
    ReflTransGen R ⟨(Tree.new .empty sampleRoot).resetRoot sampleRoot, [], []⟩ writtenRun := by
  have grow : ∀ {r : TreeRun} {parentHash : Hash} {chunk : ℕ},
      (r.tree.attachLinear parentHash chunk 2).isOk = true → R r (r.grown parentHash chunk) := by
    intro r parentHash chunk hok
    rw [TreeRun.grown]
    split
    · next h => exact linked h
    · next h =>
      rw [h] at hok
      cases hok
  have hchild : R ⟨(Tree.new .empty sampleRoot).resetRoot sampleRoot, [], []⟩
      ⟨sampleTree, [], []⟩ := begun (.inl rfl) rfl
  have hput : R ⟨sampleTree, [], []⟩ ⟨{ sampleTree with heap := putHeap }, [], []⟩ :=
    wrote (r := ⟨sampleTree, [], []⟩) (p := 2) (.set (p := 2) (k := [1]) (v := [7]) rfl)
  have hdel : R ⟨{ sampleTree with heap := putHeap }, [], []⟩
      ⟨{ sampleTree with heap := deletedHeap }, [], []⟩ :=
    wrote (r := ⟨{ sampleTree with heap := putHeap }, [], []⟩) (p := 2)
      (.del (p := 2) (k := [2]) rfl)
  have hgrand : R childRun { childRun with tree := grandchildTree } := begun (.inr rfl) rfl
  exact ((((ReflTransGen.single hchild).tail hput).tail hdel).tail (grow (by decide))).tail hgrand
    |>.tail (grow (by decide))

/-- A roll over a block that puts one key and deletes another, read at the new root: the first comes
from the batch then, and the second is gone from the disk. -/
theorem rollRoot_invisible_writtenRun :
    let disk := sampleDisk.write (rootBatch writtenRun.tree.heap writtenJob)
    let rolled := (writtenRun.tree.commitRoll writtenJob).2
    sampleDisk [1] = none ∧ disk [1] = some [7] ∧
      rolled.heap.getState disk 3 [1] = some (some [7]) ∧
      sampleDisk [2] = some [5] ∧ disk [2] = none ∧
      rolled.heap.getState disk 3 [2] = some none := by
  intro disk rolled
  have hs : DurableReachable ⟨writtenRun, sampleDisk⟩ := by
    have hrun := writtenRun_reached (R := fun r r' => DurableStep ⟨r, sampleDisk⟩ ⟨r', sampleDisk⟩)
      (fun _ ok => .op (.exec (.blockExec (beginBlockExecution_ok ok).2.2.2)))
      (fun step => .op (.exec step)) (fun ok => .op (.attachLinear ok))
    exact ⟨_, _, sampleDisk, hrun.lift (DurableRun.mk · sampleDisk) fun _ _ h => h⟩
  have hread : ∀ k, ¬ IsRootMarker k → rolled.heap.getState disk 3 k =
      writtenRun.tree.heap.getState sampleDisk 3 k := fun k hk =>
    (@rollRoot_invisible 3 k writtenJob ⟨writtenRun, sampleDisk⟩ hs (by decide) (by decide)
      ReflTransGen.refl hk).2
  refine ⟨rfl, by decide, (hread [1] (by decide)).trans (by decide), rfl, by decide,
    (hread [2] (by decide)).trans (by decide)⟩

/-- The root markers are the exception: the batch that moves the root writes them. -/
theorem rollRoot_changes_marker :
    DurableReachable ⟨sampleRun, fun _ => none⟩ ∧ sampleJob ∈ sampleRun.planned ∧
      sampleRun.tree.validateRoll sampleJob = .ok () ∧
      sampleRun.tree.heap.getState (fun _ => none) sampleJob.newRoot persistKeyRootHeight =
        some none ∧
      sampleRun.tree.heap.getState
          (Disk.write (fun _ => none) (rootBatch sampleRun.tree.heap sampleJob))
          sampleJob.newRoot persistKeyRootHeight =
        some (some [0, 0, 0, 0, 0, 0, 0, 1]) := by
  refine ⟨durableReachable_sampleRun, by decide, by decide, by decide, by decide⟩

end Hacash
