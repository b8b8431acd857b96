import Hacash.Chain.Durable

/-!
# Optimistic readers and root rolls (`chain/src/view.rs`)

The fork tree, the state database, the `root_available` flag and one root roll at a time, split into
the writes that readers can see. `SysInv` holds in every reachable state.
-/

namespace Hacash

open Lib Option Heap List

/-! ## The system -/

/-- How far the root roll in progress has come. -/
inductive RollPhase where
  | idle
  /-- `root_available` is lowered. -/
  | begun (job : RollJob)
  /-- `validate_roll` has passed. -/
  | validated (job : RollJob)
  /-- The batch is on disk; `before` is the disk it was written to. -/
  | written (job : RollJob) (before : Disk)
  /-- `commit_roll` has passed. -/
  | committed
  /-- A step failed: the flag stays lowered for good. -/
  | failed

/-- The parts of the engine a reader can see. -/
structure Sys where
  run : TreeRun
  disk : Disk
  available : Bool
  phase : RollPhase

open Sys

/-- The fork tree of the system. -/
abbrev Sys.tree (s : Sys) : Tree := s.run.tree

/-- The memory of the system. -/
abbrev Sys.heap (s : Sys) : Heap := s.run.tree.heap

/-- The disk without the batch of a roll that is not committed yet. -/
def Sys.base (s : Sys) : Disk :=
  match s.phase with
  | .written _ before => before
  | _ => s.disk

/-- Execution and attaching. Blocks come from `blocks`, and their fork key is that of
the default consensus. A strict attach finds no roll waiting, as in `TreeOp`: the inserting lock is
held until every roll it planned is committed. -/
inductive BlockOp (blocks : Set Block) : TreeRun → TreeRun → Prop
  | exec {r : TreeRun} {heap : Heap} (ok : Heap.ExecStep r.tree.heap heap)
      (noBlock : ∀ p c, heap.cell p = some c → r.tree.heap.cell p = none →
        c.origin.isBlock = false) :
      BlockOp blocks r { r with tree := { r.tree with heap } }
  | beginBlock {r : TreeRun} {parentHash : Hash} {block : Block} {chunk parent : ℕ}
      {heap : Heap} (known : block ∈ blocks)
      (ok : r.tree.beginBlockExecution parentHash block (.fromHeight block.height) =
        .ok (some (chunk, parent, heap))) :
      BlockOp blocks r { r with tree := { r.tree with heap } }
  | drop {r : TreeRun} {p : ℕ} (out : ¬ r.tree.InTree p) :
      BlockOp blocks r { r with tree := { r.tree with heap := r.tree.heap.free p } }
  | attach {r : TreeRun} {parentHash : Hash} {chunk window : ℕ} {ins : Inserted} {t : Tree}
      (ready : r.tree.scheduledRoot = r.tree.root)
      (ok : r.tree.attach parentHash chunk window = .ok (ins, t)) :
      BlockOp blocks r (r.attached ins t)
  | attachLinear {r : TreeRun} {parentHash : Hash} {chunk window : ℕ} {ins : Inserted}
      {t : Tree} (ok : r.tree.attachLinear parentHash chunk window = .ok (ins, t)) :
      BlockOp blocks r (r.attached ins t)
  | attachSide {r : TreeRun} {parentHash : Hash} {chunk : ℕ} {t : Tree}
      (ok : r.tree.attachSide parentHash chunk = .ok t) : BlockOp blocks r { r with tree := t }

/-- One step of the system. -/
inductive SysStep (blocks : Set Block) : Sys → Sys → Prop
  | block {s : Sys} {run : TreeRun} (h : BlockOp blocks s.run run) :
      SysStep blocks s { s with run }
  | beginRoll {s : Sys} {job : RollJob} (idle : s.phase = .idle)
      (known : job ∈ s.run.planned) :
      SysStep blocks s { s with available := false, phase := .begun job }
  | validate {s : Sys} {job : RollJob} (begun : s.phase = .begun job)
      (ok : s.tree.validateRoll job = .ok ()) :
      SysStep blocks s { s with phase := .validated job }
  | refuse {s : Sys} {job : RollJob} {e : TreeError} (begun : s.phase = .begun job)
      (err : s.tree.validateRoll job = .error e) : SysStep blocks s { s with phase := .failed }
  | write {s : Sys} {job : RollJob} (validated : s.phase = .validated job) :
      SysStep blocks s { s with
        disk := s.disk.write (rootBatch s.heap job)
        phase := .written job s.disk }
  | commit {s : Sys} {job : RollJob} {before : Disk} (written : s.phase = .written job before) :
      SysStep blocks s { s with
        run := s.run.committed job
        phase := if (s.tree.commitRoll job).1.isOk then .committed else .failed }
  | finish {s : Sys} (committed : s.phase = .committed) :
      SysStep blocks s { s with available := true, phase := .idle }

/-- The system at a freshly reset root, with no roll in progress. -/
def Sys.init (t : Tree) (rootBlock : Block) (disk : Disk) : Sys where
  run := ⟨t.resetRoot rootBlock, [], []⟩
  disk := disk
  available := true
  phase := .idle

/-! ## What block operations do -/

variable {blocks : Set Block} {r r' : TreeRun} {h h' : Heap} {p q x y : ℕ} {s s' : Sys}
  {job : RollJob}

theorem TreeInv.settled {t : Tree} (inv : TreeInv t) (hx : t.InTree x) : Settled t.heap x := by
  refine ⟨inv.lt_next hx, ?_⟩
  obtain ⟨_, _, δ, -, hb⟩ := inv.attached hx
  rw [writable, hb]
  rfl

/-- What a block operation leaves alone: the durable root, every settled chunk, and the tree so
far. -/
structure Grows (r r' : TreeRun) : Prop where
  root_eq : r'.tree.root = r.tree.root
  settled : ∀ {x}, Settled r.tree.heap x → Settled r'.tree.heap x
  cell : ∀ {x c'}, Settled r.tree.heap x → r'.tree.heap.cell x = some c' →
    ∃ c, r.tree.heap.cell x = some c ∧ c'.origin = c.origin ∧ c'.source = c.source ∧
      c'.body = c.body
  alive : ∀ {x}, r.tree.InTree x → (r'.tree.heap.cell x).isSome
  reach_old : ∀ {x y}, Settled r.tree.heap y → Reach r'.tree.heap.children x y →
    Reach r.tree.heap.children x y
  edge : ∀ {a c}, r.tree.InTree a → c ∈ r.tree.heap.children a → c ∈ r'.tree.heap.children a
  head : (r'.tree.head = r.tree.head ∧ r'.tree.epoch = r.tree.epoch) ∨
    (r'.tree.epoch = (r.tree.epoch + 1) % 2 ^ 64 ∧
      forkKeyOf r.tree.heap r.tree.head < forkKeyOf r'.tree.heap r'.tree.head)
  pending : ∃ js, r'.pending = r.pending ++ js
  planned : ∀ {job}, job ∈ r.planned → job ∈ r'.planned

section

variable (inv : TreeInv r.tree.durable)
include inv

/-- Execution grows a run. -/
theorem Grows.extends (ext : Heap.Extends r.tree.heap h') :
    Grows r { r with tree := { r.tree with heap := h' } } where
  root_eq := rfl
  settled hx := ext.settled hx
  cell hx hc' := ext.cell_settled hx hc'
  alive hx := ext.isSome_cell (inv.isSome_cell hx)
  reach_old _ hr := hr.mono fun _ _ hc => ext.children_eq ▸ hc
  edge _ hc := ext.children_eq.symm ▸ hc
  head := Or.inl ⟨rfl, rfl⟩
  pending := ⟨[], (append_nil _).symm⟩
  planned hj := hj

theorem Grows.free (hp : ¬ r.tree.InTree p) :
    Grows r { r with tree := { r.tree with heap := r.tree.heap.free p } } := by
  have hne : ∀ {x c}, (r.tree.heap.free p).cell x = some c → x ≠ p := by
    rintro x c hc rfl
    rw [cell_free_self] at hc
    cases hc
  have hkids : ∀ {a}, r.tree.InTree a →
      (r.tree.heap.free p).children a = r.tree.heap.children a := by
    intro a ha
    have hap : a ≠ p := fun e => hp (e ▸ ha)
    rw [children, cell_free_of_ne hap]
    rfl
  refine
    { root_eq := rfl, settled := ?_, cell := ?_, alive := ?_, reach_old := ?_, edge := ?_
      head := Or.inl ⟨rfl, rfl⟩, pending := ⟨[], (append_nil _).symm⟩
      planned := fun hj => hj }
  · intro x hx
    refine ⟨hx.1, ?_⟩
    show (r.tree.heap.free p).writable x = none
    by_cases hxp : x = p
    · rw [writable, body, hxp, cell_free_self]
      rfl
    · rw [writable, body, cell_free_of_ne hxp]
      exact hx.2
  · intro x c' hx hc'
    have hcell := hne hc'
    refine ⟨c', ?_, rfl, rfl, rfl⟩
    rw [← hc']
    exact (cell_free_of_ne hcell).symm
  · intro x hx
    have hxp : x ≠ p := fun e => hp (e ▸ hx)
    show ((r.tree.heap.free p).cell x).isSome
    rw [cell_free_of_ne hxp]
    exact inv.isSome_cell hx
  · intro x y _ hr
    refine hr.mono fun a c hc => ?_
    by_cases ha : a = p
    · subst ha
      rw [children, cell_free_self] at hc
      cases hc
    · rwa [children, cell_free_of_ne ha] at hc
  · intro a c ha hc
    exact hkids ha ▸ hc

theorem Grows.linked {par child : ℕ}
    (l : Linked r.tree.heap h' par child) (hpar : r.tree.InTree par)
    (hheap : r'.tree.heap = h') (hroot : r'.tree.root = r.tree.root)
    (hhead : (r'.tree.head = r.tree.head ∧ r'.tree.epoch = r.tree.epoch) ∨
      (r'.tree.epoch = (r.tree.epoch + 1) % 2 ^ 64 ∧
        forkKeyOf r.tree.heap r.tree.head < forkKeyOf r'.tree.heap r'.tree.head))
    (hpend : ∃ js, r'.pending = r.pending ++ js)
    (hplan : ∀ {job}, job ∈ r.planned → job ∈ r'.planned) : Grows r r' := by
  obtain ⟨δ, hδ, -⟩ := l.froze
  have hne : ∀ {x}, Settled r.tree.heap x → x ≠ child := by
    rintro x hx rfl
    have := hx.2
    rw [writable, hδ] at this
    cases this
  have hcells : ∀ {x c'}, h'.cell x = some c' → ∃ c, r.tree.heap.cell x = some c ∧
      c'.origin = c.origin ∧ c'.source = c.source ∧ (x ≠ child → c'.body = c.body) := by
    intro x c' hc'
    have ho := l.origin_eq x
    have hs := l.source_eq x
    simp only [origin, source, hc', map_some] at ho hs
    obtain ⟨c, hc, hco⟩ := map_eq_some_iff.mp ho.symm
    simp only [hc, map_some, some.injEq] at hs
    refine ⟨c, hc, hco.symm, hs, fun hx => ?_⟩
    have hb := l.body_ne hx
    simpa only [body, hc, hc', map_some, some.injEq] using hb
  refine
    { root_eq := hroot, settled := ?_, cell := ?_, alive := ?_, reach_old := ?_
      edge := ?_, head := hhead, pending := hpend, planned := hplan }
  · intro x hx
    rw [hheap]
    refine ⟨l.next_eq ▸ hx.1, ?_⟩
    rw [writable, l.body_ne (hne hx)]
    exact hx.2
  · intro x c' hx hc'
    rw [hheap] at hc'
    obtain ⟨c, hc, ho, hs, hb⟩ := hcells hc'
    exact ⟨c, hc, ho, hs, hb (hne hx)⟩
  · intro x hx
    rw [hheap, isSome_cell_iff, l.source_eq, ← isSome_cell_iff]
    exact inv.isSome_cell hx
  · intro x y hy hr
    rw [hheap] at hr
    rcases (inv.reach_link l hpar).mp hr with hr | ⟨-, rfl⟩
    · exact hr
    · exact absurd rfl (hne hy)
  · intro a c _ hc
    rw [hheap]
    exact l.mem_children.mpr (Or.inl hc)

/-- An attach grows a run. -/
theorem Grows.attached {parentHash : Hash} {chunk window : ℕ}
    {linear : Bool} {ins : Inserted} {t : Tree}
    (ok : r.tree.attachInner parentHash chunk window linear = .ok (ins, t)) :
    Grows r (r.attached ins t) := by
  obtain ⟨parent, heap, chk, l, pub⟩ := attachInner_ok ok
  have hpar := (inv.find_eq_some chk.find).1
  have hpend : ∃ js, (r.attached ins t).pending = r.pending ++ js := ⟨_, rfl⟩
  have hplan : ∀ {job}, job ∈ r.planned → job ∈ (r.attached ins t).planned :=
    fun hj => mem_append_left _ hj
  cases pub with
  | side _ _ => exact .linked inv l hpar rfl rfl (Or.inl ⟨rfl, rfl⟩) hpend hplan
  | head hkey _ _ | roll hkey _ _ _ =>
    refine .linked inv l hpar rfl rfl (Or.inr ⟨rfl, ?_⟩) hpend hplan
    exact (l.forkKeyOf_eq chunk).symm ▸ hkey

end

theorem BlockOp.treeOp (hs : BlockOp blocks r r') : TreeOp r r' := by
  cases hs with
  | exec ok _ => exact .exec ok
  | beginBlock _ ok => exact .exec (.blockExec (beginBlockExecution_ok ok).2.2.2)
  | drop out => exact .drop out
  | attach ready ok => exact .attach ready ok
  | attachLinear ok => exact .attachLinear ok
  | attachSide ok => exact .attachSide ok

/-- **Block operations grow the run.** -/
theorem BlockOp.grows (inv : RunInv r) (hs : BlockOp blocks r r') : Grows r r' := by
  cases hs with
  | exec ok _ => exact .extends inv.tree.durable ok.extends
  | beginBlock _ ok =>
    exact .extends inv.tree.durable
      (Heap.ExecStep.blockExec (beginBlockExecution_ok ok).2.2.2).extends
  | drop out => exact .free inv.tree.durable out
  | attach _ ok | attachLinear ok => exact .attached inv.tree.durable ok
  | attachSide ok =>
    obtain ⟨parent, heap, chk, l, rfl⟩ := attachSide_ok ok
    exact .linked inv.tree.durable l (inv.tree.find_eq_some chk.find).1 rfl rfl (Or.inl ⟨rfl, rfl⟩)
      ⟨[], (append_nil _).symm⟩ fun hj => hj

/-! ## What is known of executed blocks -/

/-- Every identified chunk from `first` on is one of `blocks` with the default fork key, and names
the hash of its parent. -/
def ChunkInfo (blocks : Set Block) (first : ℕ) (h : Heap) : Prop :=
  ∀ p height identity, first ≤ p → h.origin p = some (.block height (some identity)) →
    identity.block ∈ blocks ∧ identity.forkChoice = .fromHeight height ∧
      ∀ q, h.parent p = some q → identity.block.prevHash = hashOf h q

theorem ChunkInfo.mono {first : ℕ} (info : ChunkInfo blocks first h)
    (hback : ∀ p height identity, h'.origin p = some (.block height (some identity)) →
      h.origin p = some (.block height (some identity)) ∧
        ∀ q, h'.parent p = some q → h.parent p = some q ∧ h'.origin q = h.origin q) :
    ChunkInfo blocks first h' := by
  intro p height identity hp ho
  obtain ⟨ho', hpar⟩ := hback p height identity ho
  obtain ⟨hmem, hkey, hprev⟩ := info p height identity hp ho'
  refine ⟨hmem, hkey, fun q hq => ?_⟩
  obtain ⟨hq', hoq⟩ := hpar q hq
  rw [hprev q hq', hashOf, hashOf, identityOf, identityOf, hoq]

theorem ChunkInfo.linked {first par child : ℕ} (info : ChunkInfo blocks first h)
    (l : Linked h h' par child) : ChunkInfo blocks first h' :=
  info.mono fun p _ _ ho => ⟨(l.origin_eq p).symm.trans ho,
    fun q hq => ⟨(l.parent_eq p).symm.trans hq, l.origin_eq q⟩⟩

theorem ChunkInfo.attached {first chunk window : ℕ} {parentHash : Hash} {linear : Bool}
    {ins : Inserted} {t : Tree} (info : ChunkInfo blocks first r.tree.heap)
    (ok : r.tree.attachInner parentHash chunk window linear = .ok (ins, t)) :
    ChunkInfo blocks first t.heap := by
  obtain ⟨parent, heap, -, l, pub⟩ := attachInner_ok ok
  cases pub <;> exact info.linked l

theorem Heap.Extends.block_back (ext : Heap.Extends h h') {c : StateChunk}
    (hc : h.cell p = some c) : h'.origin p = h.origin p ∧
      ∀ q, h'.parent p = some q → h.parent p = some q ∧ h'.origin q = h.origin q := by
  refine ⟨ext.origin_eq hc, fun q hq => ?_⟩
  rw [ext.parent_eq hc] at hq
  obtain ⟨cq, hcq⟩ := isSome_iff_exists.mp (parent_eq_some.mp hq).2
  exact ⟨hq, ext.origin_eq hcq⟩

/-- **Block operations keep what is known of blocks.** -/
theorem BlockOp.chunkInfo {first : ℕ} (inv : RunInv r) (hs : BlockOp blocks r r')
    (info : ChunkInfo blocks first r.tree.heap) : ChunkInfo blocks first r'.tree.heap := by
  cases hs with
  | @exec heap ok noBlock =>
    have ext := ok.extends
    refine info.mono fun p height identity ho => ?_
    obtain ⟨c', hc', hco⟩ := map_eq_some_iff.mp ho
    cases hc : r.tree.heap.cell p with
    | none =>
      have := noBlock p c' hc' hc
      rw [hco] at this
      cases this
    | some c =>
      obtain ⟨horg, hpar⟩ := ext.block_back hc
      exact ⟨horg.symm.trans ho, hpar⟩
  | @beginBlock parentHash block chunk parent heap known ok =>
    obtain ⟨hfind, -, hprev, hexec⟩ := beginBlockExecution_ok ok
    have ext := (Heap.ExecStep.blockExec hexec).extends
    obtain ⟨-, -, hnew, hold⟩ := blockExecOn_ok hexec
    intro p height identity hp ho
    by_cases hpn : p = r.tree.heap.next
    · subst hpn
      have ho' : heap.origin r.tree.heap.next =
          some (.block block.height
            (some ⟨block.hash, block, .fromHeight block.height⟩)) := by
        rw [origin, hnew]
        rfl
      rw [show heap.origin r.tree.heap.next = _ from ho] at ho'
      cases ho'
      refine ⟨known, rfl, fun q hq => ?_⟩
      have hsrc := (parent_eq_some.mp hq).1
      have hsrc' : heap.source r.tree.heap.next = some (.parent parent) := by
        rw [source, hnew]
        rfl
      rw [show heap.source r.tree.heap.next = _ from hsrc] at hsrc'
      cases hsrc'
      obtain ⟨hin, hhash⟩ := inv.tree.find_eq_some hfind
      obtain ⟨cp, hcp⟩ := isSome_iff_exists.mp (inv.tree.isSome_cell hin)
      show block.prevHash = hashOf heap parent
      rw [hprev, ← hhash, hashOf, hashOf, identityOf, identityOf, ext.origin_eq hcp]
    · obtain ⟨c', hc', hco⟩ := map_eq_some_iff.mp ho
      have hc : r.tree.heap.cell p = some c' := by
        rw [← hold p hpn]
        exact hc'
      obtain ⟨horg, hpar⟩ := ext.block_back hc
      obtain ⟨hmem, hkey, hprev'⟩ := info p height identity hp (horg.symm.trans ho)
      refine ⟨hmem, hkey, fun q hq => ?_⟩
      obtain ⟨hq', hoq⟩ := hpar q hq
      show identity.block.prevHash = hashOf heap q
      rw [hprev' q hq', hashOf, hashOf, identityOf, identityOf, hoq]
  | @drop p out =>
    refine info.mono fun x height identity ho => ?_
    have hback : ∀ {y c}, (r.tree.heap.free p).cell y = some c → r.tree.heap.cell y = some c := by
      intro y c hc
      by_cases hy : y = p
      · rw [hy, cell_free_self] at hc
        cases hc
      · rwa [cell_free_of_ne hy] at hc
    obtain ⟨c, hc, hco⟩ := map_eq_some_iff.mp ho
    refine ⟨by rw [origin, hback hc, map_some, hco], fun q hq => ?_⟩
    obtain ⟨hsrc, hlive⟩ := parent_eq_some.mp hq
    obtain ⟨cq, hcq⟩ := isSome_iff_exists.mp hlive
    have hsrc' : r.tree.heap.source x = some (.parent q) := by
      rw [source, hback hc]
      rw [source, show (r.tree.heap.free p).cell x = some c from hc] at hsrc
      exact hsrc
    refine ⟨parent_eq_some.mpr ⟨hsrc', by rw [hback hcq]; rfl⟩, ?_⟩
    rw [origin, origin, hback hcq, show (r.tree.heap.free p).cell q = some cq from hcq]
  | attach _ ok | attachLinear ok => exact info.attached ok
  | attachSide ok =>
    obtain ⟨parent, heap, -, l, rfl⟩ := attachSide_ok ok
    exact info.linked l

/-! ## The invariant of the system -/

/-- What the phase of the roll in progress says about the run and the disk. -/
def PhaseInv (s : Sys) : Prop :=
  match s.phase with
  | .begun job => job ∈ s.run.planned
  | .validated job => s.run.pending.head? = some job
  | .written job before =>
    s.run.pending.head? = some job ∧ s.disk = before.write (rootBatch s.heap job)
  | _ => True

/-- The invariant of the system. -/
structure SysInv (blocks : Set Block) (first : ℕ) (s : Sys) : Prop where
  run : RunInv s.run
  first_le : first ≤ s.tree.root
  info : ChunkInfo blocks first s.heap
  flag : s.available = true → s.phase = .idle
  phase : PhaseInv s
  onDisk : RootOnDisk s.tree s.base
  epoch_lt : s.tree.epoch < 2 ^ 64

namespace Grows

theorem path (g : Grows r r') {l : List ℕ} (hx : r.tree.InTree x)
    (hl : Path r.tree.heap.children x l y) : Path r'.tree.heap.children x l y :=
  hl.keep (Reach.refl y) fun _ _ ha hc _ => g.edge (hx.trans ha) hc

theorem inTree (g : Grows r r') (hx : r.tree.InTree x) : r'.tree.InTree x := by
  obtain ⟨l, hl⟩ := hx.exists_path
  have := (g.path r.tree.inTree_root hl).reach
  rwa [← g.root_eq] at this

theorem inTree_old (g : Grows r r') (hx : Settled r.tree.heap x) (hin : r'.tree.InTree x) :
    r.tree.InTree x := by
  have := g.reach_old hx hin
  rwa [g.root_eq] at this

variable (g : Grows r r') (inv : RunInv r)
include g inv

section

variable (hx : r.tree.InTree x)
include hx

theorem cell_inTree : ∃ c c', r.tree.heap.cell x = some c ∧ r'.tree.heap.cell x = some c' ∧
      c'.origin = c.origin ∧ c'.source = c.source ∧ c'.body = c.body := by
  obtain ⟨c', hc'⟩ := isSome_iff_exists.mp (g.alive hx)
  obtain ⟨c, hc, ho, hs, hb⟩ := g.cell (inv.tree.settled hx) hc'
  exact ⟨c, c', hc, hc', ho, hs, hb⟩

theorem origin_eq : r'.tree.heap.origin x = r.tree.heap.origin x := by
  obtain ⟨c, c', hc, hc', ho, -, -⟩ := g.cell_inTree inv hx
  simp [origin, hc, hc', ho]

theorem body_eq : r'.tree.heap.body x = r.tree.heap.body x := by
  obtain ⟨c, c', hc, hc', -, -, hb⟩ := g.cell_inTree inv hx
  simp [body, hc, hc', hb]

theorem layer_eq : r'.tree.heap.layer x = r.tree.heap.layer x := by
  rw [layer, layer, g.body_eq inv hx]

end

theorem chainBatch_eq {l : List ℕ} (hl : ∀ c ∈ l, r.tree.InTree c) :
    chainBatch r'.tree.heap l = chainBatch r.tree.heap l := by
  induction l using reverseRecOn with
  | nil => rfl
  | append_singleton l x ih =>
    have hx := hl x (mem_append_right _ (mem_singleton_self x))
    rw [chainBatch_snoc, chainBatch_snoc, ih fun c hc => hl c (mem_append_left _ hc),
      frozenState, frozenState, g.body_eq inv hx]

theorem rootBatch_eq (hh : r.pending.head? = some job) :
    rootBatch r'.tree.heap job = rootBatch r.tree.heap job := by
  obtain ⟨js, hjs⟩ := head?_eq_some_iff.mp hh
  have hp := inv.pending
  rw [hjs] at hp
  have hnew : r.tree.InTree job.newRoot := hp.1.path.reach
  rw [rootBatch, rootBatch, g.chainBatch_eq inv fun c hc => (hp.1.path.reach_of_mem hc).1,
    hashOf, hashOf, identityOf, identityOf, heightOf, heightOf, g.origin_eq inv hnew]

omit inv in
theorem pending_head (hh : r.pending.head? = some job) : r'.pending.head? = some job := by
  obtain ⟨js, hjs⟩ := g.pending
  obtain ⟨js', hjs'⟩ := head?_eq_some_iff.mp hh
  rw [hjs, hjs']
  rfl

end Grows

theorem ChunkInfo.setDisk {first : ℕ} (info : ChunkInfo blocks first h) :
    ChunkInfo blocks first (h.setDisk p) := by
  refine info.mono fun x height identity ho => ⟨origin_setDisk.symm.trans ho, ?_⟩
  intro q hq
  obtain ⟨hsrc, hlive⟩ := parent_eq_some.mp hq
  have hcell : ∀ {y}, ((h.setDisk p).cell y).isSome → (h.cell y).isSome := by
    intro y hy
    by_cases hyp : y = p
    · subst hyp
      rw [setDisk, cell_modify_self, isSome_map] at hy
      exact hy
    · rwa [cell_setDisk_of_ne hyp] at hy
  have hne : x ≠ p := by
    rintro rfl
    have hx : ((h.setDisk x).cell x).isSome := by
      rw [isSome_cell_iff, hsrc]
      rfl
    obtain ⟨c, hc⟩ := isSome_iff_exists.mp (hcell hx)
    rw [source_setDisk_self hc] at hsrc
    cases hsrc
  rw [source_setDisk_of_ne hne] at hsrc
  exact ⟨parent_eq_some.mpr ⟨hsrc, hcell hlive⟩, origin_setDisk⟩

/-- **Every step keeps the invariant of the system.** -/
theorem sysInv_step {first : ℕ} (inv : SysInv blocks first s) (hs : SysStep blocks s s') :
    SysInv blocks first s' := by
  cases hs with
  | @block run hop =>
    have g := hop.grows inv.run
    refine
      { run := runInv_op inv.run hop.treeOp, first_le := g.root_eq ▸ inv.first_le
        info := hop.chunkInfo inv.run inv.info, flag := inv.flag, phase := ?_, onDisk := ?_
        epoch_lt := ?_ }
    · have hphase := inv.phase
      unfold PhaseInv at hphase ⊢
      cases hph : s.phase with
      | begun job =>
        rw [hph] at hphase
        exact g.planned hphase
      | validated job =>
        rw [hph] at hphase
        exact g.pending_head hphase
      | written job before =>
        rw [hph] at hphase
        exact ⟨g.pending_head hphase.1, hphase.2.trans (by
          rw [← g.rootBatch_eq inv.run hphase.1])⟩
      | idle | committed | failed => trivial
    · intro k v hk hv
      refine inv.onDisk k v hk ?_
      rw [← g.layer_eq inv.run s.tree.inTree_root, ← g.root_eq]
      exact hv
    · rcases g.head with ⟨-, heq⟩ | ⟨heq, -⟩
      · exact heq.symm ▸ inv.epoch_lt
      · show run.tree.epoch < 2 ^ 64
        rw [heq]
        exact Nat.mod_lt _ (by norm_num)
  | beginRoll idle known =>
    refine ⟨inv.run, inv.first_le, inv.info, (fun h => by cases h), known, ?_, inv.epoch_lt⟩
    have := inv.onDisk
    rwa [base, idle] at this
  | @validate job begun ok =>
    have hphase := inv.phase
    rw [PhaseInv, begun] at hphase
    refine ⟨inv.run, inv.first_le, inv.info, fun h => ?_, ?_, ?_, inv.epoch_lt⟩
    · have := inv.flag h
      rw [begun] at this
      cases this
    · exact (inv.run.jobAt_of_valid hphase ok).2.1
    · have := inv.onDisk
      rwa [base, begun] at this
  | refuse begun err =>
    refine ⟨inv.run, inv.first_le, inv.info, fun h => ?_, trivial, ?_, inv.epoch_lt⟩
    · have := inv.flag h
      rw [begun] at this
      cases this
    · have := inv.onDisk
      rwa [base, begun] at this
  | write validated =>
    have hphase := inv.phase
    rw [PhaseInv, validated] at hphase
    refine ⟨inv.run, inv.first_le, inv.info, fun h => ?_, ⟨hphase, rfl⟩, ?_, inv.epoch_lt⟩
    · have := inv.flag h
      rw [validated] at this
      cases this
    · have := inv.onDisk
      rwa [base, validated] at this
  | @commit job before written =>
    have hphase := inv.phase
    rw [PhaseInv, written] at hphase
    obtain ⟨hhead, hdisk⟩ := hphase
    obtain ⟨js, hjs⟩ := head?_eq_some_iff.mp hhead
    have hp := inv.run.pending
    rw [hjs] at hp
    have hok : (s.tree.commitRoll job).1.isOk = true := by
      rw [(inv.run.commitRoll_head hhead).2]
      rfl
    have htree := inv.run.committed_tree hhead
    rw [hok, if_pos rfl]
    refine
      { run := inv.run.committed_head hhead, first_le := ?_, info := ?_, flag := ?_
        phase := trivial, onDisk := ?_, epoch_lt := ?_ }
    · show first ≤ (s.run.committed job).tree.root
      rw [htree]
      exact inv.first_le.trans hp.1.lt_newRoot.le
    · show ChunkInfo blocks first (s.run.committed job).tree.heap
      rw [htree]
      exact inv.info.setDisk
    · intro h
      have := inv.flag h
      rw [written] at this
      cases this
    · show RootOnDisk (s.run.committed job).tree s.disk
      rw [htree, hdisk]
      intro k v hk hv
      have hv' : s.heap.layer job.newRoot k = some v := by
        simpa only [layer, body_setDisk] using hv
      exact Overlay.apply_of_some (inv.run.tree.rootBatch_newRoot hp.1 hk hv') _
    · show (s.run.committed job).tree.epoch < 2 ^ 64
      rw [htree]
      exact inv.epoch_lt
  | finish committed =>
    refine ⟨inv.run, inv.first_le, inv.info, fun _ => rfl, trivial, ?_, inv.epoch_lt⟩
    have := inv.onDisk
    rwa [base, committed] at this

theorem chunkInfo_init {t : Tree} {rootBlock : Block} (hroot : rootBlock ∈ blocks) :
    ChunkInfo blocks t.heap.next (t.resetRoot rootBlock).heap := by
  have hcell : (t.resetRoot rootBlock).heap.cell t.heap.next = _ :=
    t.heap.cell_newRoot rootBlock
  intro p height identity hp ho
  obtain ⟨c, hc, hco⟩ := map_eq_some_iff.mp ho
  have hlt : p < t.heap.next + 1 := lt_next hc
  obtain rfl : p = t.heap.next := by omega
  rw [hcell, some.injEq] at hc
  subst hc
  cases hco
  refine ⟨hroot, rfl, fun q hq => ?_⟩
  have hsrc := (parent_eq_some.mp hq).1
  rw [source, hcell] at hsrc
  cases hsrc

theorem sysInv_init {t : Tree} {rootBlock : Block} {disk : Disk} (hroot : rootBlock ∈ blocks) :
    SysInv blocks t.heap.next (init t rootBlock disk) where
  run := runInv_init t rootBlock
  first_le := le_rfl
  info := chunkInfo_init hroot
  flag _ := rfl
  phase := trivial
  onDisk k v _ hv := by
    rw [init] at hv
    rw [show (t.resetRoot rootBlock).heap.layer _ = _ from layer_resetRoot t rootBlock] at hv
    cases hv
  epoch_lt := Nat.mod_lt _ (by norm_num)

end Hacash
