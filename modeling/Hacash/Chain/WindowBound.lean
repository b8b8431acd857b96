import Hacash.Lib.Transaction
import Hacash.Chain.StoreAgrees

/-!
# The reorg window

Strict attaches move the scheduled root by one block past the window, linear ones by a whole window.
**Key result**: `reorg_window_bound`.
-/

namespace Hacash

open Lib Hacash.Tree Engine Relation

variable {t : Tree} {h h' : Heap} {p q chunk parent w n : ℕ} {s s' : TreeRun}

namespace Tree

def rootHeight (t : Tree) : ℕ := heightOf t.heap t.root

def headHeight (t : Tree) : ℕ := heightOf t.heap t.head

/-- The height of the scheduled root. -/
def scheduledHeight (t : Tree) : ℕ := heightOf t.heap t.scheduledRoot

end Tree

/-- Whether an error comes from `plan_roll_from`. -/
def TreeError.ofPlanning : TreeError → Bool
  | .mustAdvance .. | .planBranchBroken | .notFromScheduledRoot => true
  | _ => false

/-! ## Steps -/

/-- One step with the window `w`, the attaches as `insert_block` issues them. -/
inductive WindowStep (w : ℕ) : TreeRun → TreeRun → Prop
  | exec {s : TreeRun} {heap : Heap} (ext : Heap.Extends s.tree.heap heap) :
      WindowStep w s { s with tree := { s.tree with heap } }
  | drop {s : TreeRun} {p : ℕ} (out : ¬ s.tree.InTree p) :
      WindowStep w s { s with tree := { s.tree with heap := s.tree.heap.free p } }
  | attach {s : TreeRun} {parentHash : Hash} {chunk : ℕ} {ins : Inserted} {t : Tree}
      (ready : s.tree.scheduledRoot = s.tree.root)
      (near : heightOf s.tree.heap chunk ≤ s.tree.headHeight + 1)
      (ok : s.tree.attach parentHash chunk w = .ok (ins, t)) :
      WindowStep w s (s.attached ins t)
  | attachLinear {s : TreeRun} {parentHash : Hash} {chunk : ℕ} {ins : Inserted} {t : Tree}
      (ok : s.tree.attachLinear parentHash chunk w = .ok (ins, t)) :
      WindowStep w s (s.attached ins t)
  | attachSide {s : TreeRun} {parentHash : Hash} {chunk : ℕ} {t : Tree}
      (ok : s.tree.attachSide parentHash chunk = .ok t) : WindowStep w s { s with tree := t }
  | enforceSideCapacity {s : TreeRun} (capacity : ℕ) :
      WindowStep w s { s with tree := s.tree.enforceSideCapacity capacity }
  | commitRoll {s : TreeRun} {job : RollJob} (known : job ∈ s.planned) :
      WindowStep w s (s.committed job)
  | resetRoot {s : TreeRun} (rootBlock : Block) : WindowStep w s (s.reset rootBlock)

/-- A state some run with the window `w` reaches from a freshly reset tree. -/
def WindowReachable (w : ℕ) (s : TreeRun) : Prop :=
  ∃ (t : Tree) (rootBlock : Block),
    ReflTransGen (WindowStep w) ⟨t.resetRoot rootBlock, [], []⟩ s

theorem runInv_windowStep (inv : RunInv s) (hs : WindowStep w s s') : RunInv s' := by
  cases hs with
  | exec ext => exact inv.extends ext
  | drop out => exact runInv_op inv (.drop out)
  | attach ready _ ok => exact runInv_op inv (.attach ready ok)
  | attachLinear ok => exact runInv_op inv (.attachLinear ok)
  | attachSide ok => exact runInv_op inv (.attachSide ok)
  | enforceSideCapacity capacity => exact runInv_op inv (.enforceSideCapacity capacity)
  | commitRoll known => exact inv.committed known
  | resetRoot rootBlock => exact inv.reset rootBlock

/-! ## What a step does to the heights -/

/-- How a step moves the cursors: the root, upwards; a new head within the window; a strict roll by
one block; or a linear roll by a window. -/
inductive Moved (w : ℕ) (t t' : Tree) : Prop
  | commit (root : t.rootHeight ≤ t'.rootHeight)
      (scheduled : t'.scheduledHeight = t.scheduledHeight)
      (head : t'.headHeight = t.headHeight)
  | head (root : t'.rootHeight = t.rootHeight)
      (scheduled : t'.scheduledHeight = t.scheduledHeight)
      (within : t'.headHeight ≤ t.scheduledHeight + w)
  | rollOne (root : t'.rootHeight = t.rootHeight)
      (scheduled : t'.scheduledHeight = t.scheduledHeight + 1)
      (near : t'.headHeight ≤ t.headHeight + 1)
  | rollWindow (root : t'.rootHeight = t.rootHeight)
      (scheduled : t'.scheduledHeight = t.scheduledHeight + w)
      (next : t'.headHeight = t.headHeight + 1)

theorem Moved.quiet {t' : Tree} (hroot : t'.root = t.root)
    (hscheduled : t'.scheduledRoot = t.scheduledRoot) (hhead : t'.head = t.head)
    (inv : TreeInv t) (horg : ∀ p, t.InTree p → t'.heap.origin p = t.heap.origin p) :
    Moved w t t' := by
  have hheight : ∀ p, t.InTree p → heightOf t'.heap p = heightOf t.heap p := by
    intro p hp
    rw [heightOf, heightOf, horg p hp]
  refine .commit (le_of_eq ?_) ?_ ?_
  · rw [rootHeight, rootHeight, hroot, hheight _ t.inTree_root]
  · rw [scheduledHeight, scheduledHeight, hscheduled, hheight _ inv.scheduled]
  · rw [headHeight, headHeight, hhead, hheight _ inv.inTree_head]

variable {linear : Bool} {parentHash : Hash} {svc : Services} {e : Engine} {pkg : BlkPkg}

theorem le_of_not_overWindow {height scheduled : ℕ}
    (hover : overWindow linear height scheduled w = false) : height ≤ scheduled + w := by
  have hsat : satAdd64 scheduled w ≤ scheduled + w := min_le_left _ _
  cases linear with
  | true =>
    have hlt : ¬ satAdd64 scheduled w ≤ height := of_decide_eq_false hover
    omega
  | false =>
    have hle : ¬ satAdd64 scheduled w < height := of_decide_eq_false hover
    omega

theorem TreeInv.moved_attach (inv : TreeInv t) {ins : Inserted} {t' : Tree}
    (hs : t.attachInner parentHash chunk w linear = .ok (ins, t'))
    (near : heightOf t.heap chunk ≤ t.headHeight + 1) : Moved w t t' := by
  obtain ⟨parent, heap, chk, l, pub⟩ := attachInner_ok hs
  obtain ⟨hpar, inv'⟩ := inv.linkChecked chk l
  cases pub with
  | side _ _ => exact .quiet rfl rfl rfl inv fun p _ => l.origin_eq p
  | head _ within _ =>
    refine .head (l.heightOf_eq _) (l.heightOf_eq _) ?_
    rw [headHeight, l.heightOf_eq]
    exact le_of_not_overWindow within
  | @roll _ job _ isOver _ planned =>
    have hin := inv.inTree_link l hpar
    have hlt : heightOf t.heap chunk < u64Max := by
      obtain ⟨_, _, _, ho, -⟩ := inv'.attached hin
      rw [← l.heightOf_eq]
      exact Hacash.heightOf_lt ho
    have hn := overWindow_le hlt isOver
    obtain ⟨-, -, hheight⟩ := inv'.planRollFrom_ok hin (by rw [l.heightOf_eq]; exact hn) planned
    cases linear with
    | false =>
      refine .rollOne (l.heightOf_eq _) hheight ?_
      rw [headHeight, l.heightOf_eq]
      exact near
    | true =>
      refine .rollWindow (l.heightOf_eq _) hheight ?_
      rw [headHeight, l.heightOf_eq, chk.height, chk.onHead rfl]
      rfl

/-- A commit moves the root up, and nothing else. -/
theorem RunInv.moved_commit (inv : RunInv s) {job : RollJob} (known : job ∈ s.planned) :
    Moved w s.tree (s.committed job).tree := by
  by_cases hh : s.pending.head? = some job
  · obtain ⟨js, hjs⟩ := List.head?_eq_some_iff.mp hh
    have hp := inv.pending
    rw [hjs] at hp
    have hheight : ∀ p, heightOf (s.tree.heap.setDisk job.newRoot) p = heightOf s.tree.heap p := by
      intro p
      rw [heightOf, heightOf, Heap.origin_setDisk]
    rw [inv.committed_tree hh]
    refine .commit ?_ (hheight _) (hheight _)
    rw [rootHeight, rootHeight, hheight]
    exact inv.tree.height_le s.tree.inTree_root hp.1.path.reach
  · obtain ⟨e, -, hcommit⟩ := inv.commitRoll_other known hh
    have hs : (s.committed job).tree = s.tree := by
      simp only [TreeRun.committed, hcommit]
    rw [hs]
    exact .quiet rfl rfl rfl inv.tree fun _ _ => rfl

/-- **Every step is a reset or moves the cursors in one of these ways.** -/
theorem WindowStep.moved (hs : WindowStep w s s') (inv : RunInv s) :
    (∃ rootBlock, s' = s.reset rootBlock) ∨ Moved w s.tree s'.tree := by
  cases hs with
  | exec ext =>
    refine Or.inr (.quiet rfl rfl rfl inv.tree fun p hp => ?_)
    obtain ⟨c, hc⟩ := Option.isSome_iff_exists.mp (inv.tree.isSome_cell hp)
    exact ext.origin_eq hc
  | @drop q out =>
    refine Or.inr (.quiet rfl rfl rfl inv.tree fun p hp => ?_)
    have hne : p ≠ q := fun e => out (e ▸ hp)
    rw [Heap.origin, Heap.cell_free_of_ne hne]
    rfl
  | attach _ near ok => exact Or.inr (inv.tree.moved_attach ok near)
  | attachLinear ok =>
    refine Or.inr (inv.tree.moved_attach ok ?_)
    obtain ⟨parent, heap, chk, -, -⟩ := attachInner_ok ok
    rw [chk.height, chk.onHead rfl, headHeight]
  | attachSide ok =>
    obtain ⟨parent, heap, -, l, rfl⟩ := attachSide_ok ok
    exact Or.inr (.quiet rfl rfl rfl inv.tree fun p _ => l.origin_eq p)
  | enforceSideCapacity capacity =>
    obtain ⟨heap, heq, pr⟩ := inv.tree.enforceSideCapacity_pruned capacity
    rw [heq]
    exact Or.inr (.quiet rfl rfl rfl inv.tree fun p _ => pr.origin_eq p)
  | commitRoll known => exact Or.inr (inv.moved_commit known)
  | resetRoot rootBlock => exact Or.inl ⟨rootBlock, rfl⟩

/-! ## Planning on the head -/

theorem climb_parent (acc : List ℕ) {target : ℕ} (hpar : h.parent chunk = some p)
    (hlow : target < heightOf h chunk) :
    climb h target (chunk + 1) acc chunk = climb h target chunk (chunk :: acc) p := by
  rw [climb, if_pos hlow, hpar]

/-- **A plan for a block on a descendant of the scheduled root succeeds**, for every new root
above the scheduled one. -/
theorem TreeInv.planRollFrom_child (inv : TreeInv t) (hpar : t.heap.parent chunk = some p)
    (hp : Reach t.heap.children t.scheduledRoot p)
    (hheight : heightOf t.heap chunk = heightOf t.heap p + 1)
    (hlow : heightOf t.heap t.scheduledRoot < n) (hn : n ≤ heightOf t.heap chunk) :
    ∃ job, t.planRollFrom chunk n = .ok job := by
  have hlt : p < chunk := (t.heap.parent_lt hpar).1
  obtain ⟨l, hl⟩ := hp.exists_path
  unfold planRollFrom
  dsimp only
  rw [if_neg (not_le.mpr hlow)]
  rcases hn.eq_or_lt with rfl | hn
  · -- the new root is the block itself
    have hfirst : climb t.heap (heightOf t.heap chunk) (chunk + 1) [] chunk
        = some ([], chunk) := by
      rw [climb, if_neg (lt_irrefl _)]
    have hsecond := (climb_parent [] hpar hlow).trans
      (inv.climb_path inv.scheduled l [chunk] hl hlt)
    rw [hfirst]
    dsimp only
    rw [hsecond]
    dsimp only
    rw [if_neg (not_not.mpr rfl)]
    exact ⟨_, rfl⟩
  · -- the new root lies between the scheduled root and the parent
    have hlen := inv.height_path inv.scheduled hl
    have hsplit : l = l.take (n - heightOf t.heap t.scheduledRoot) ++
        l.drop (n - heightOf t.heap t.scheduledRoot) := (List.take_append_drop _ l).symm
    rw [hsplit] at hl
    obtain ⟨a, hra, hab⟩ := hl.split
    have hha := inv.height_path inv.scheduled hra
    rw [List.length_take] at hha
    have hna : heightOf t.heap a = n := by omega
    have hin : t.InTree a := inv.scheduled.trans hra.reach
    have hfirst := (climb_parent [] hpar hn).trans
      (hna ▸ inv.climb_path hin _ [chunk] hab hlt)
    have hsecond := inv.climb_path inv.scheduled _ [] hra (Nat.lt_succ_self a)
    rw [hfirst]
    dsimp only
    rw [hsecond]
    dsimp only
    rw [if_neg (not_not.mpr rfl)]
    exact ⟨_, rfl⟩

/-- An error that does not come from planning. -/
def NotPlanning (e : TreeError) : Prop := e.ofPlanning = false

theorem liftChunk_notPlanning {α : Type} (x : Except ChunkError α) :
    FailsOnly NotPlanning (liftChunk x) := by
  cases x with
  | ok a => exact .ok a
  | error e => exact .error rfl

theorem checkLink_notPlanning {side : Bool} {hash : Hash} {height : ℕ} :
    FailsOnly NotPlanning (t.checkLink side linear parentHash hash height chunk) := by
  unfold checkLink
  split
  · exact .error rfl
  · split_ifs
    · exact .error rfl
    · exact .error rfl
    · exact .error rfl
    · split
      · exact .error rfl
      · split_ifs
        · exact .error rfl
        · exact .ok _

theorem publish_notPlanning {heap : Heap} {isHead reorg : Bool} {roll : Option RollJob} :
    FailsOnly NotPlanning (t.publish heap chunk isHead reorg roll) := by
  unfold publish
  split_ifs
  · split
    · exact .error rfl
    · exact .ok _
  · exact .ok _

theorem TreeInv.planRoll_notPlanning (inv : TreeInv t) (hw : 1 ≤ w) {isHead : Bool}
    (hpar : t.heap.parent chunk = some t.head)
    (hheight : heightOf t.heap chunk = heightOf t.heap t.head + 1)
    (hlt : heightOf t.heap chunk < u64Max) :
    FailsOnly NotPlanning (t.planRoll linear chunk (heightOf t.heap chunk) w isHead) := by
  unfold planRoll
  dsimp only
  by_cases hover : (isHead && overWindow linear (heightOf t.heap chunk)
      (heightOf t.heap t.scheduledRoot) w) = true
  · rw [if_pos hover]
    rw [Bool.and_eq_true] at hover
    have hstep : 0 < if linear then w else 1 := by
      split_ifs
      · exact hw
      · exact Nat.one_pos
    obtain ⟨job, hjob⟩ := inv.planRollFrom_child hpar inv.head hheight
      (Nat.lt_add_of_pos_right hstep) (overWindow_le hlt hover.2)
    rw [hjob]
    exact .ok _
  · rw [if_neg hover]
    exact .ok _

/-- **No attach of a block on the head fails in planning.** -/
theorem TreeInv.attachInner_notPlanning (inv : TreeInv t) (hw : 1 ≤ w)
    (hhead : t.find parentHash = some t.head) :
    FailsOnly NotPlanning (t.attachInner parentHash chunk w linear) := by
  refine .bind (liftChunk_notPlanning _) fun height hheight => ?_
  refine .bind (liftChunk_notPlanning _) fun identity hid => ?_
  refine .bind checkLink_notPlanning fun parent hlink => ?_
  obtain rfl := blockHeight_ok hheight
  have chk := checkLink_ok hlink
  obtain rfl : parent = t.head := Option.some.inj (chk.find.symm.trans hhead)
  have hlt : heightOf t.heap chunk < u64Max := by
    obtain ⟨o, ho, hoid⟩ := Option.bind_eq_some_iff.mp (blockIdentity_ok hid)
    cases o with
    | block height id =>
      obtain rfl : id = some identity := hoid
      exact Hacash.heightOf_lt ho
    | tx _ | ast _ => cases hoid
  dsimp only
  split_ifs
  · exact .error rfl
  · exact .bind (inv.planRoll_notPlanning hw chk.parent chk.height hlt) fun roll _ =>
      .bind (liftChunk_notPlanning _) fun heap _ => publish_notPlanning

/-! ## The bound -/

/-- The invariant of a run with the window `w`. -/
structure WindowInv (w : ℕ) (s : TreeRun) : Prop where
  run : RunInv s
  within : s.tree.headHeight ≤ s.tree.scheduledHeight + w

theorem windowInv_step (hw : 1 ≤ w) (inv : WindowInv w s) (hs : WindowStep w s s') :
    WindowInv w s' := by
  refine ⟨runInv_windowStep inv.run hs, ?_⟩
  have hold := inv.within
  rcases hs.moved inv.run with ⟨rootBlock, rfl⟩ | hmoved
  · exact Nat.le_add_right _ _
  · cases hmoved with
    | commit root scheduled head | head root scheduled within | rollOne root scheduled near
    | rollWindow root scheduled next =>
      omega

theorem windowInv_of_reachable (hw : 1 ≤ w) (hs : WindowReachable w s) : WindowInv w s := by
  obtain ⟨t, rootBlock, hrun⟩ := hs
  induction hrun with
  | refl => exact ⟨runInv_init t rootBlock, Nat.le_add_right _ _⟩
  | tail _ hstep ih => exact windowInv_step hw ih hstep

/-- **The reorg window.** With a window of at least one block the head is at most the window above
the scheduled root; only a reset lowers the root; and roll planning never refuses a block on the
head. -/
theorem reorg_window_bound (hw : 1 ≤ w) (hs : WindowReachable w s) :
    s.tree.headHeight - s.tree.scheduledHeight ≤ w ∧
    (∀ s', WindowStep w s s' →
      (∃ rootBlock, s' = s.reset rootBlock) ∨ s.tree.rootHeight ≤ s'.tree.rootHeight) ∧
    ∀ parentHash chunk linear e, s.tree.find parentHash = some s.tree.head →
      s.tree.attachInner parentHash chunk w linear = .error e → e.ofPlanning = false := by
  have inv := windowInv_of_reachable hw hs
  refine ⟨Nat.sub_le_iff_le_add'.mpr inv.within, fun s' hstep => ?_, ?_⟩
  · refine (hstep.moved inv.run).imp_right fun hmoved => ?_
    cases hmoved with
    | commit root _ _ => exact root
    | head root _ _ | rollOne root _ _ | rollWindow root _ _ => exact root.ge
  · intro parentHash chunk linear e hhead herr
    exact inv.run.tree.attachInner_notPlanning hw hhead e herr

/-- A linear attach with window 1 moves the scheduled root to the new head at once. -/
theorem reorg_window_bound_sampleRun :
    WindowReachable 1 sampleRun ∧
      sampleRun.tree.headHeight - sampleRun.tree.scheduledHeight ≤ 1 := by
  have hexec : WindowStep 1 ⟨(new .empty sampleRoot).resetRoot sampleRoot, [], []⟩
      ⟨sampleTree, [], []⟩ := .exec (Heap.ExecStep.blockExec sampleTree_exec).extends
  have hrun : WindowReachable 1 sampleRun := by
    unfold sampleRun
    split
    · next hok => exact ⟨_, _, (ReflTransGen.single hexec).tail (.attachLinear hok)⟩
    · exact ⟨_, _, .single hexec⟩
  exact ⟨hrun, (reorg_window_bound le_rfl hrun).1⟩

/-! ## Attaches of any kind -/

/-- Attaches of executed blocks without the conditions of `insert_block`. -/
inductive AnyAttach (w : ℕ) : Tree → Tree → Prop
  | exec {t : Tree} {heap : Heap} (ext : Heap.Extends t.heap heap) : AnyAttach w t { t with heap }
  | attach {t t' : Tree} {parentHash : Hash} {chunk : ℕ} {linear : Bool} {ins : Inserted}
      (ok : t.attachInner parentHash chunk w linear = .ok (ins, t')) : AnyAttach w t t'

open AnyAttach

/-- Execute a block on its parent. -/
def Tree.withBlock (t : Tree) (block : Block) (key : ForkChoiceKey) : Tree :=
  match t.beginBlockExecution block.prevHash block key with
  | .ok (some (_, _, heap)) => { t with heap }
  | _ => t

/-- Attach the chunk executed last. -/
def Tree.attachLast (t : Tree) (parentHash : Hash) (w : ℕ) (linear : Bool) : Tree :=
  match t.attachInner parentHash (t.heap.next - 1) w linear with
  | .ok (_, t') => t'
  | .error _ => t

theorem AnyAttach.withBlock (t : Tree) (block : Block) (key : ForkChoiceKey) :
    ReflTransGen (AnyAttach w) t (t.withBlock block key) := by
  unfold Tree.withBlock
  split
  · next hbegin =>
    obtain ⟨-, -, -, hexec⟩ := beginBlockExecution_ok hbegin
    exact .single (.exec (Heap.ExecStep.blockExec hexec).extends)
  · exact .refl

theorem AnyAttach.attachLast (t : Tree) (parentHash : Hash) (linear : Bool) :
    ReflTransGen (AnyAttach w) t (t.attachLast parentHash w linear) := by
  unfold Tree.attachLast
  split
  · next hok => exact .single (.attach hok)
  · exact .refl

/-- Blocks executed and attached one after the other. -/
def Tree.attachAll (w : ℕ) : Tree → List (Bool × Block × ForkChoiceKey) → Tree
  | t, [] => t
  | t, (linear, block, key) :: blocks =>
    attachAll w ((t.withBlock block key).attachLast block.prevHash w linear) blocks

theorem AnyAttach.attachAll :
    ∀ (blocks : List (Bool × Block × ForkChoiceKey)) (t : Tree),
      ReflTransGen (AnyAttach w) t (t.attachAll w blocks)
  | [], _ => .refl
  | (linear, block, key) :: blocks, t =>
    ((withBlock t block key).trans (attachLast _ block.prevHash linear)).trans
      (attachAll blocks _)

/-- A block of the samples below. -/
def sampleBlock (height : Fin 16) (hash prevHash : UInt8) : Block :=
  ⟨height, .fill hash, .fill prevHash, [], height.2.trans (by decide)⟩

/-- A linear block whose roll is planned, then a strict reorg next to it. -/
def sampleMixed : Tree :=
  ((new .empty sampleRoot).resetRoot sampleRoot).attachAll 1
    [(true, sampleBlock 1 10 1, .fromHeight 1), (false, sampleBlock 1 20 1, .fromHeight 1),
      (false, sampleBlock 2 21 20, .fromHeight 2)]

/-- A strict branch with weak fork choices and a strong block at its end. -/
def sampleLeap : Tree :=
  ((new .empty sampleRoot).resetRoot sampleRoot).attachAll 1
    [(false, sampleBlock 1 10 1, ⟨[]⟩), (false, sampleBlock 2 11 10, ⟨[]⟩),
      (false, sampleBlock 3 12 11, ⟨[]⟩), (false, sampleBlock 4 13 12, .fromHeight 4)]

/-- **Without the conditions of `insert_block` both bounds fail**, already for window 1: a strict
reorg past a root that is not durable leaves a head that cannot be extended, and a strong block
may be far above the scheduled root. -/
theorem unconditional_attaches_leave_window :
    (∃ (t : Tree) (rootBlock : Block) (t' : Tree),
      ReflTransGen (AnyAttach 1) (t.resetRoot rootBlock) t' ∧
      ∃ parentHash chunk, t'.find parentHash = some t'.head ∧
        t'.heap.parent chunk = some t'.head ∧
        forkKeyOf t'.heap t'.head < forkKeyOf t'.heap chunk ∧
        ∃ e, t'.attachInner parentHash chunk 1 false = .error e ∧ e.ofPlanning = true) ∧
    ∃ (t : Tree) (rootBlock : Block) (t' : Tree),
      ReflTransGen (AnyAttach 1) (t.resetRoot rootBlock) t' ∧
      1 < t'.headHeight - t'.scheduledHeight := by
  refine ⟨⟨_, _, sampleMixed.withBlock (sampleBlock 3 22 21) (.fromHeight 3),
    (AnyAttach.attachAll _ _).trans (AnyAttach.withBlock _ _ _), .fill 21, 5, ?_, ?_, ?_,
    .notFromScheduledRoot, ?_, rfl⟩, _, _, sampleLeap, AnyAttach.attachAll _ _, ?_⟩
  · decide +kernel
  · decide +kernel
  · decide +kernel
  · rfl
  · decide +kernel

/-! ## `insert_block` -/

/-- What `insert_block` admits is at most one height above the head. -/
theorem Engine.admission_near {fastSync : Bool}
    {key : ForkChoiceKey} (hs : e.admission svc pkg fastSync = .ok (.next key)) :
    pkg.block.height ≤ e.tree.headHeight + 1 := by
  unfold admission at hs
  dsimp only at hs
  split at hs
  · cases hs
  split at hs
  · cases hs
  next hrange => exact not_lt.mp fun hlt => hrange (Or.inr hlt)

theorem Engine.insertBlock_near {outcomes : Outcomes} {config : EngineConfig}
    {e' : Engine} {job : ApplyAccepted}
    (hs : e.insertBlock svc outcomes config pkg false true = (.ok (.accepted job), e')) :
    pkg.block.height ≤ e.tree.headHeight + 1 := by
  unfold insertBlock at hs
  split at hs
  · cases hs
  next r hr =>
    cases hs
    exact absurd rfl (admission_done hr job)
  next hnext => exact admission_near hnext

/-- **An accepted strict `insert_block` is a run of window steps**, if the scheduled root was
durable when it started. -/
theorem insertBlock_windowRun {outcomes : Outcomes} {config : EngineConfig}
    {e' : Engine} {job : ApplyAccepted} {planned pending : List RollJob}
    (inv : TreeInv e.tree) (ready : e.tree.scheduledRoot = e.tree.root)
    (hs : e.insertBlock svc outcomes config pkg false true = (.ok (.accepted job), e')) :
    ReflTransGen (WindowStep config.unstableBlock) ⟨e.tree, planned, pending⟩
      ⟨e'.tree, planned ++ job.inserted.roll.toList, pending ++ job.inserted.roll.toList⟩ := by
  have hnear := insertBlock_near hs
  -- executing the block keeps the heights of the tree
  have hexec : ∀ {key chunk heap}, Engine.Executed svc e pkg key false chunk heap →
      Heap.Extends e.tree.heap heap ∧
        heightOf heap chunk ≤ ({ e.tree with heap } : Tree).headHeight + 1 := by
    intro key chunk heap ex
    obtain ⟨parent, heap₀, delta, ec, -⟩ := ex.execChunk
    obtain ⟨c, hc⟩ := Option.isSome_iff_exists.mp (inv.isSome_cell inv.inTree_head)
    refine ⟨ec.ext, ?_⟩
    rw [ec.heightOf_chunk, headHeight, heightOf, ec.ext.origin_eq hc]
    exact hnear
  have step : Engine.InsertStep svc outcomes config e pkg
      (e.insertBlock svc outcomes config pkg false true) := insertStep
  rw [hs] at step
  cases step with
  | refused notAccepted => exact absurd rfl (notAccepted job)
  | head _ ex _ ok =>
    obtain ⟨ext, hheight⟩ := hexec ex
    exact (ReflTransGen.single (.exec ext)).tail (.attach ready hheight ok)
  | side _ ex _ _ ok =>
    obtain ⟨ext, hheight⟩ := hexec ex
    exact ((ReflTransGen.single (.exec ext)).tail (.attach ready hheight ok)).tail
      (.enforceSideCapacity _)

theorem insertBlock_windowRun_sampleEngine :
    ∃ job e', sampleEngine.insertBlock sampleServices ⟨true, true, true, true⟩ ⟨4, 8⟩
        ⟨sampleChild, [7]⟩ false true = (.ok (.accepted job), e') ∧
      ReflTransGen (WindowStep 4) ⟨sampleEngine.tree, [], []⟩
        ⟨e'.tree, job.inserted.roll.toList, job.inserted.roll.toList⟩ := by
  obtain ⟨job, e', h⟩ : ∃ job e', sampleEngine.insertBlock sampleServices ⟨true, true, true, true⟩
    ⟨4, 8⟩ ⟨sampleChild, [7]⟩ false true = (.ok (.accepted job), e') := ⟨_, _, rfl⟩
  exact ⟨job, e', h, insertBlock_windowRun (treeInv_resetRoot _ _) rfl h⟩

end Hacash
