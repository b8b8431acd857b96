import Hacash.Chain.Roll

/-!
# Runs of the fork tree

The fork tree as a state machine, with the roll jobs it has planned. The jobs that wait form one
path from the durable root to the scheduled root (`Pending`).
-/

namespace Hacash

open Lib Heap List Option Reach

/-- A fork tree and the roll jobs it has planned. -/
structure TreeRun where
  tree : Tree
  /-- Every job planned so far. -/
  planned : List RollJob
  /-- The jobs of this tree that are not committed yet, oldest first. -/
  pending : List RollJob

namespace TreeRun

/-- A freshly reset tree: nothing is planned for it yet. -/
def reset (s : TreeRun) (rootBlock : Block) : TreeRun :=
  { s with tree := s.tree.resetRoot rootBlock, pending := [] }

/-- After an attach that returned `ins` and the tree `t`. -/
def attached (s : TreeRun) (ins : Inserted) (t : Tree) : TreeRun where
  tree := t
  planned := s.planned ++ ins.roll.toList
  pending := s.pending ++ ins.roll.toList

/-- After `commit_roll(job)`; a refused job stays pending. -/
def committed (s : TreeRun) (job : RollJob) : TreeRun :=
  match s.tree.commitRoll job with
  | (.ok _, t) => { s with tree := t, pending := s.pending.erase job }
  | (.error _, t) => { s with tree := t }

end TreeRun

open TreeRun

/-- An operation other than a commit. A failed attach returns no tree and is no operation.

The tree does not check `ready`. It holds because the engine commits every planned roll before it
lets go of the inserting lock, under which alone strict attaches are made (`EngineInv.quiet`). -/
inductive TreeOp : TreeRun → TreeRun → Prop
  | exec {s : TreeRun} {heap : Heap} (ok : Heap.ExecStep s.tree.heap heap) :
      TreeOp s { s with tree := { s.tree with heap } }
  | drop {s : TreeRun} {p : ℕ} (out : ¬ s.tree.InTree p) :
      TreeOp s { s with tree := { s.tree with heap := s.tree.heap.free p } }
  | attach {s : TreeRun} {parentHash : Hash} {chunk window : ℕ} {ins : Inserted} {t : Tree}
      (ready : s.tree.scheduledRoot = s.tree.root)
      (ok : s.tree.attach parentHash chunk window = .ok (ins, t)) :
      TreeOp s (s.attached ins t)
  | attachLinear {s : TreeRun} {parentHash : Hash} {chunk window : ℕ} {ins : Inserted}
      {t : Tree} (ok : s.tree.attachLinear parentHash chunk window = .ok (ins, t)) :
      TreeOp s (s.attached ins t)
  | attachSide {s : TreeRun} {parentHash : Hash} {chunk : ℕ} {t : Tree}
      (ok : s.tree.attachSide parentHash chunk = .ok t) : TreeOp s { s with tree := t }
  | enforceSideCapacity {s : TreeRun} (capacity : ℕ) :
      TreeOp s { s with tree := s.tree.enforceSideCapacity capacity }
  | resetRoot {s : TreeRun} (rootBlock : Block) : TreeOp s (s.reset rootBlock)

/-- One step of a run: an operation, or the commit of a job planned before. -/
inductive TreeStep : TreeRun → TreeRun → Prop
  | op {s s' : TreeRun} (h : TreeOp s s') : TreeStep s s'
  | commitRoll {s : TreeRun} {job : RollJob} (known : job ∈ s.planned) :
      TreeStep s (s.committed job)

/-- A state some run reaches from a freshly reset tree. -/
def TreeReachable (s : TreeRun) : Prop :=
  ∃ (t : Tree) (rootBlock : Block),
    Relation.ReflTransGen TreeStep ⟨t.resetRoot rootBlock, [], []⟩ s

/-! ## The tree under execution and release -/

variable {t : Tree} {h h' : Heap} {p r e : ℕ} {job : RollJob} {s s' : TreeRun}

/-- The invariant is about the chunks of the tree: it holds on a heap that agrees on these. -/
theorem TreeInv.of_agree (inv : TreeInv t)
    (horg : ∀ {q}, t.InTree q → h'.origin q = t.heap.origin q)
    (hsrc : ∀ {q}, t.InTree q → h'.source q = t.heap.source q)
    (hbody : ∀ {q}, t.InTree q → h'.body q = t.heap.body q)
    (hkids : ∀ {q}, t.InTree q → h'.children q = t.heap.children q)
    (hleaf : ∀ {q δ}, t.root ≤ q → h'.writable q = some δ → h'.children q = []) :
    TreeInv { t with heap := h' } := by
  have hin : ∀ {q}, Reach h'.children t.root q → t.InTree q := by
    intro q hq
    induction hq with
    | refl => exact t.inTree_root
    | tail _ hc ih => exact ih.tail (hkids ih ▸ hc)
  have hout : ∀ {x y}, t.InTree x → Reach t.heap.children x y → Reach h'.children x y := by
    intro x y hx hxy
    induction hxy with
    | refl => exact refl _
    | tail hxb hc ih => exact ih.tail ((hkids (hx.trans hxb)).symm ▸ hc)
  refine
    { attached := fun hq => ?_, source := fun hq hr => ?_, height := fun hq hr => ?_
      nodup := fun hq => (hkids (hin hq)).symm ▸ inv.nodup (hin hq)
      distinct := fun hq hr heq => inv.distinct (hin hq) (hin hr) ?_
      rootDisk := (hsrc t.inTree_root).trans inv.rootDisk
      scheduled := hout t.inTree_root inv.scheduled, head := hout inv.scheduled inv.head
      leaf := hleaf }
  · obtain ⟨height, identity, δ, ho, hb⟩ := inv.attached (hin hq)
    exact ⟨height, identity, δ, (horg (hin hq)).trans ho, (hbody (hin hq)).trans hb⟩
  · have hr' := hkids (hin hq) ▸ hr
    exact (hsrc ((hin hq).tail hr')).trans (inv.source (hin hq) hr')
  · have hr' := hkids (hin hq) ▸ hr
    have := inv.height (hin hq) hr'
    simpa only [heightOf, horg (hin hq), horg (tail (hin hq) hr')] using this
  · simpa only [hashOf, identityOf, horg (hin hq), horg (hin hr)] using heq

/-- Execution keeps the tree. -/
theorem TreeInv.extends (inv : TreeInv t) (ext : Heap.Extends t.heap h') :
    TreeInv { t with heap := h' } := by
  have hcell : ∀ {q}, t.InTree q → ∃ c, t.heap.cell q = some c :=
    fun hq => isSome_iff_exists.mp (inv.isSome_cell hq)
  refine inv.of_agree (fun hq => ?_) (fun hq => ?_) (fun hq => ?_) (fun _ => ext.children_eq) ?_
  · obtain ⟨c, hc⟩ := hcell hq
    exact ext.origin_eq hc
  · obtain ⟨c, hc⟩ := hcell hq
    exact ext.source_eq hc
  · obtain ⟨_, _, _, -, hb⟩ := inv.attached hq
    obtain ⟨c, hc, hcb⟩ := map_eq_some_iff.mp hb
    exact ext.body_eq hc (by rw [hcb]; rfl)
  · intro q δ hq hw
    obtain ⟨c', hc', hb'⟩ := writable_eq_some.mp hw
    rw [ext.children_eq]
    cases hc : t.heap.cell q with
    | none => simp [children, hc]
    | some c =>
      obtain ⟨c'', hc'', -, -, -, hbody⟩ := ext.keep hc
      rw [hc', some.injEq] at hc''
      subst hc''
      obtain ⟨δ', hδ'⟩ : ∃ δ', c.body = .writable δ' := by
        rcases hbody with hbody | hbody
        · exact ⟨δ, hbody ▸ hb'⟩
        · obtain ⟨δ', hδ'⟩ := isSome_iff_exists.mp hbody
          exact ⟨δ', ChunkBody.asWritable_eq_some.mp hδ'⟩
      exact inv.leaf hq (writable_eq_some.mpr ⟨c, hc, hδ'⟩)

theorem TreeInv.free (inv : TreeInv t) (hp : ¬ t.InTree p) :
    TreeInv { t with heap := t.heap.free p } := by
  have hcell : ∀ {q}, t.InTree q → (t.heap.free p).cell q = t.heap.cell q :=
    fun hq => cell_free_of_ne fun e => hp (e ▸ hq)
  refine inv.of_agree (fun hq => ?_) (fun hq => ?_) (fun hq => ?_) (fun hq => ?_) ?_
  · rw [origin, hcell hq]
    rfl
  · rw [Heap.source, hcell hq]
    rfl
  · rw [Heap.body, hcell hq]
    rfl
  · rw [children, hcell hq]
    rfl
  · intro q δ hq hw
    have hne : q ≠ p := by
      rintro rfl
      obtain ⟨c, hc, -⟩ := writable_eq_some.mp hw
      have hdead : (t.heap.free q).cell q = none := cell_free_self
      rw [hdead] at hc
      cases hc
    have hw' : t.heap.writable q = some δ := by
      simpa only [writable, body, cell_free_of_ne hne] using hw
    have := inv.leaf hq hw'
    simpa only [children, cell_free_of_ne hne] using this

/-- A freshly reset tree is a fork tree. -/
theorem treeInv_resetRoot (t : Tree) (rootBlock : Block) : TreeInv (t.resetRoot rootBlock) := by
  have hcell : (t.resetRoot rootBlock).heap.cell t.heap.next =
      some ⟨.block rootBlock.height
        (some ⟨rootBlock.hash, rootBlock, .fromHeight rootBlock.height⟩),
        .disk, .frozen .default, []⟩ := t.heap.cell_newRoot rootBlock
  have hkids : (t.resetRoot rootBlock).heap.children t.heap.next = [] := by
    rw [children, hcell]
    rfl
  have hin : ∀ {q}, (t.resetRoot rootBlock).InTree q → q = t.heap.next :=
    fun hq => (hq.eq_of_leaf hkids).symm
  refine
    { attached := ?_, source := ?_, height := ?_, nodup := ?_, distinct := ?_,
      rootDisk := ?_, scheduled := refl _, head := refl _, leaf := ?_ }
  · intro q hq
    rw [hin hq]
    exact ⟨_, _, _, by rw [origin, hcell]; rfl, by rw [body, hcell]; rfl⟩
  · intro q r hq hr
    rw [hin hq, hkids] at hr
    cases hr
  · intro q r hq hr
    rw [hin hq, hkids] at hr
    cases hr
  · intro q hq
    rw [hin hq, hkids]
    exact nodup_nil
  · intro q r hq hr _
    rw [hin hq, hin hr]
  · show (t.resetRoot rootBlock).heap.source t.heap.next = some .disk
    rw [source, hcell]
    rfl
  · intro q δ hq hw
    obtain ⟨c, hc, hb⟩ := writable_eq_some.mp hw
    -- only the root itself is that young, and it is frozen
    have hlt : q < t.heap.next + 1 := lt_next hc
    have hge : t.heap.next ≤ q := hq
    obtain rfl : q = t.heap.next := by omega
    exact hkids

/-! ## Waiting jobs -/

/-- The jobs `js`, in this order, move the root from `r` to `s`. -/
def Pending (h : Heap) : ℕ → List RollJob → ℕ → Prop
  | r, [], s => r = s
  | r, job :: js, s => JobAt h r job ∧ Pending h job.newRoot js s

theorem Pending.reach : ∀ {js : List RollJob} {r s : ℕ}, Pending h r js s →
    Reach h.children r s
  | [], _, _, hp => hp ▸ refl _
  | _ :: _, _, _, hp => hp.1.path.reach.trans hp.2.reach

theorem Pending.snoc : ∀ {js : List RollJob} {r s : ℕ}, Pending h r js s → JobAt h s job →
    Pending h r (js ++ [job]) job.newRoot
  | [], r, s, hp, hj => by
    obtain rfl : r = s := hp
    exact ⟨hj, rfl⟩
  | _ :: _, _, _, hp, hj => ⟨hp.1, hp.2.snoc hj⟩

theorem Pending.congr {head : ℕ} :
    ∀ {js : List RollJob} {r s : ℕ},
      (∀ a c, Reach h.children r a → c ∈ h.children a → Reach h.children c head →
        c ∈ h'.children a) →
      (∀ p, Reach h.children r p → h'.origin p = h.origin p) →
      Reach h.children s head → Pending h r js s → Pending h' r js s
  | [], _, _, _, _, _, hp => hp
  | job :: js, r, s, hkeep, horg, hs, hp => by
    have hpath := hp.1.path.reach
    have hr := horg r (refl _)
    refine ⟨⟨?_, ?_, hp.1.nonempty, hp.1.path.keep (hp.2.reach.trans hs) hkeep⟩, ?_⟩
    · rw [hp.1.hash, hashOf, hashOf, identityOf, identityOf, hr]
    · rw [hp.1.height, heightOf, heightOf, hr]
    · exact hp.2.congr (fun a c ha => hkeep a c (hpath.trans ha))
        (fun p hrp => horg p (hpath.trans hrp)) hs

/-- The first block of the job read from the chunk at `e`, and may be disk-backed since. -/
def StartsAt (h : Heap) (job : RollJob) (e : ℕ) : Prop :=
  ∃ c chain, job.chain = c :: chain ∧ c < h.next ∧
    ∀ src, h.source c = some src → src = .parent e ∨ src = .disk

theorem StartsAt.congr (hs : StartsAt h job e) (hnext : h.next ≤ h'.next)
    (hsrc : ∀ c < h.next, ∀ src, h'.source c = some src → src = .disk ∨ h.source c = some src) :
    StartsAt h' job e := by
  obtain ⟨c, chain, hc, hlt, hkeep⟩ := hs
  refine ⟨c, chain, hc, hlt.trans_le hnext, fun src hsrc' => ?_⟩
  rcases hsrc c hlt src hsrc' with hd | hold
  · exact .inr hd
  · exact hkeep src hold

theorem TreeInv.startsAt (inv : TreeInv t) (hr : t.InTree r) (hj : JobAt t.heap r job) :
    StartsAt t.heap job r := by
  obtain ⟨c, chain, hc⟩ := exists_cons_of_ne_nil hj.nonempty
  have hpath := hj.path
  rw [hc] at hpath
  refine ⟨c, chain, hc, inv.lt_next (hr.tail hpath.1), fun src hsrc => ?_⟩
  rw [inv.source hr hpath.1, some.injEq] at hsrc
  exact .inl hsrc.symm

/-! ## The run invariant -/

/-- The invariant of a run. -/
structure RunInv (s : TreeRun) : Prop where
  tree : TreeInv s.tree
  /-- The waiting jobs lead from the durable root to the scheduled root. -/
  pending : Pending s.tree.heap s.tree.root s.pending s.tree.scheduledRoot
  /-- A job that does not wait started at a chunk older than the durable root. -/
  planned : ∀ {job}, job ∈ s.planned →
    job ∈ s.pending ∨ ∃ e, StartsAt s.tree.heap job e ∧ e < s.tree.root

theorem runInv_init (t : Tree) (rootBlock : Block) :
    RunInv ⟨t.resetRoot rootBlock, [], []⟩ where
  tree := treeInv_resetRoot t rootBlock
  pending := rfl
  planned hj := by cases hj

/-- A memory change that keeps the root, the waiting jobs and the sources keeps the run invariant.
-/
theorem RunInv.congr (inv : RunInv s) (hinv : TreeInv { s.tree with heap := h' })
    (hkeep : ∀ a c, s.tree.InTree a → c ∈ s.tree.heap.children a →
      Reach s.tree.heap.children c s.tree.head → c ∈ h'.children a)
    (horg : ∀ p, s.tree.InTree p → h'.origin p = s.tree.heap.origin p)
    (hnext : s.tree.heap.next ≤ h'.next)
    (hsrc : ∀ c < s.tree.heap.next, ∀ src, h'.source c = some src →
      s.tree.heap.source c = some src) :
    RunInv { s with tree := { s.tree with heap := h' } } where
  tree := hinv
  pending := inv.pending.congr hkeep horg inv.tree.head
  planned hj := by
    refine (inv.planned hj).imp_right ?_
    rintro ⟨e, hs, he⟩
    exact ⟨e, hs.congr hnext fun c hc src h => .inr (hsrc c hc src h), he⟩

/-- A job ends strictly below where it starts. -/
theorem JobAt.lt_newRoot (hj : JobAt h r job) : r < job.newRoot := by
  obtain ⟨c, chain, hc⟩ := exists_cons_of_ne_nil hj.nonempty
  have hpath := hj.path
  rw [hc] at hpath
  exact (mem_children_lt hpath.1).1.trans_le (le_of_reach hpath.2.reach)

theorem TreeInv.exists_jobAt (inv : TreeInv t) :
    ∀ {js : List RollJob} {r s : ℕ}, t.InTree r → Pending t.heap r js s → job ∈ js →
      ∃ e, Reach t.heap.children r e ∧ JobAt t.heap e job ∧
        (js.head? = some job ∧ e = r ∨ r < e)
  | j :: js, r, s, hr, hp, hj => by
    rcases mem_cons.mp hj with rfl | hj
    · exact ⟨r, refl _, hp.1, .inl ⟨rfl, rfl⟩⟩
    · have hnew := hr.trans hp.1.path.reach
      obtain ⟨e, he, hje, -⟩ := inv.exists_jobAt hnew hp.2 hj
      refine ⟨e, hp.1.path.reach.trans he, hje, .inr ?_⟩
      exact hp.1.lt_newRoot.trans_le (le_of_reach he)

section

variable (inv : RunInv s)
include inv

/-- **The oldest waiting job is committed.** -/
theorem RunInv.commitRoll_head (hh : s.pending.head? = some job) :
    s.tree.validateRoll job = .ok () ∧
      s.tree.commitRoll job = (.ok (), { s.tree with
        heap := s.tree.heap.setDisk job.newRoot, root := job.newRoot }) := by
  obtain ⟨js, hjs⟩ := List.head?_eq_some_iff.mp hh
  have hp := inv.pending
  rw [hjs] at hp
  exact ⟨inv.tree.validateRoll_ok hp.1 (hp.2.reach.trans inv.tree.head),
    (inv.tree.commitRoll_ok hp.1 hp.2.reach).1⟩

theorem RunInv.committed_tree (hh : s.pending.head? = some job) :
    (s.committed job).tree = { s.tree with
      heap := s.tree.heap.setDisk job.newRoot, root := job.newRoot } := by
  simp only [committed, (inv.commitRoll_head hh).2]

theorem RunInv.committed_eq {js : List RollJob} (hjs : s.pending = job :: js) :
    s.committed job = { s with
      tree := { s.tree with heap := s.tree.heap.setDisk job.newRoot, root := job.newRoot }
      pending := js } := by
  have hcommit := (inv.commitRoll_head (by rw [hjs]; rfl)).2
  simp only [committed, hcommit, hjs, erase_cons_head]

/-- **Any other planned job is refused** and changes nothing. -/
theorem RunInv.commitRoll_other (hj : job ∈ s.planned) (hh : s.pending.head? ≠ some job) :
    ∃ e, s.tree.validateRoll job = .error e ∧ s.tree.commitRoll job = (.error e, s.tree) := by
  -- wherever the job starts, it is not at the durable root
  obtain ⟨e, hstart, hne⟩ : ∃ e, StartsAt s.tree.heap job e ∧ e ≠ s.tree.root := by
    rcases inv.planned hj with hmem | ⟨e, hs, he⟩
    · obtain ⟨e, hre, hje, ⟨hhead, -⟩ | hlt⟩ :=
        inv.tree.exists_jobAt s.tree.inTree_root inv.pending hmem
      · exact absurd hhead hh
      · exact ⟨e, inv.tree.startsAt hre hje, hlt.ne'⟩
    · exact ⟨e, hs, he.ne⟩
  obtain ⟨c, chain, hc, -, hsrc⟩ := hstart
  have hpar : s.tree.heap.parent c ≠ some s.tree.root := by
    intro hpar
    rcases hsrc _ (parent_eq_some.mp hpar).1 with h | h
    · cases h
      exact hne rfl
    · cases h
  obtain ⟨err, herr⟩ := validateRoll_error_of_parent hc hpar
  refine ⟨err, herr, ?_⟩
  rw [Tree.commitRoll, herr]

/-! ## Steps -/

/-- An attach keeps the run invariant. -/
theorem RunInv.attached {parentHash : Hash} {chunk parent window : ℕ}
    {linear : Bool} {ins : Inserted}
    (chk : LinkChecked s.tree linear parentHash (hashOf s.tree.heap chunk)
      (heightOf s.tree.heap chunk) chunk parent)
    (l : Linked s.tree.heap h' parent chunk)
    (pub : Published s.tree h' parent chunk window linear ins t)
    (strict : linear = false → s.tree.scheduledRoot = s.tree.root) : RunInv (s.attached ins t) := by
  obtain ⟨hinv, hheap, hroot, hroll⟩ := inv.tree.published chk l pub strict
  have hpend : Pending h' s.tree.root s.pending s.tree.scheduledRoot :=
    inv.pending.congr (fun a c _ hc _ => l.mem_children.mpr (.inl hc))
      (fun p _ => l.origin_eq p) inv.tree.head
  have hplan : ∀ {job}, job ∈ s.planned →
      job ∈ s.pending ∨ ∃ e, StartsAt h' job e ∧ e < s.tree.root := by
    intro job hj
    refine (inv.planned hj).imp_right ?_
    rintro ⟨e, hs, he⟩
    refine ⟨e, hs.congr l.next_eq.ge fun c _ src hsrc => .inr ?_, he⟩
    rwa [l.source_eq] at hsrc
  refine { tree := hinv, pending := ?_, planned := ?_ }
  · show Pending t.heap t.root (s.pending ++ ins.roll.toList) t.scheduledRoot
    rw [hheap, hroot]
    rcases hroll with ⟨hnone, hsched⟩ | ⟨job, hsome, hat, hsched⟩
    · rw [hnone, hsched, toList_none, append_nil]
      exact hpend
    · rw [hsome, hsched]
      exact hpend.snoc hat
  · intro job hj
    show job ∈ s.pending ++ ins.roll.toList ∨ ∃ e, StartsAt t.heap job e ∧ e < t.root
    rw [hheap, hroot]
    rcases mem_append.mp hj with hj | hj
    · exact (hplan hj).imp_left fun h => mem_append_left _ h
    · exact .inl (mem_append_right _ hj)

theorem RunInv.committed_head (hh : s.pending.head? = some job) : RunInv (s.committed job) := by
  obtain ⟨js, hjs⟩ := List.head?_eq_some_iff.mp hh
  have hp := inv.pending
  rw [hjs] at hp
  obtain ⟨-, hinv⟩ := inv.tree.commitRoll_ok hp.1 hp.2.reach
  rw [inv.committed_eq hjs]
  have hlt : s.tree.root < job.newRoot := hp.1.lt_newRoot
  refine { tree := hinv, pending := ?_, planned := ?_ }
  · exact hp.2.congr (fun a c _ hc _ => children_setDisk.symm ▸ hc)
      (fun p _ => origin_setDisk) inv.tree.head
  · intro j hj'
    have hold : j ∈ js ∨ ∃ e, StartsAt s.tree.heap j e ∧ e < job.newRoot := by
      rcases inv.planned hj' with hmem | ⟨e, hs, he⟩
      · rw [hjs] at hmem
        rcases mem_cons.mp hmem with rfl | hmem
        · exact .inr ⟨_, inv.tree.startsAt s.tree.inTree_root hp.1, hlt⟩
        · exact .inl hmem
      · exact .inr ⟨e, hs, he.trans hlt⟩
    refine hold.imp_right ?_
    rintro ⟨e, hs, he⟩
    refine ⟨e, hs.congr le_rfl fun c _ src hsrc => ?_, he⟩
    by_cases hc : c = job.newRoot
    · subst hc
      obtain ⟨cell, hcell⟩ := isSome_iff_exists.mp
        (inv.tree.isSome_cell (hp.1.path.reach : s.tree.InTree job.newRoot))
      rw [source_setDisk_self hcell, some.injEq] at hsrc
      exact .inl hsrc.symm
    · rw [source_setDisk_of_ne hc] at hsrc
      exact .inr hsrc

/-- A commit keeps the run invariant. -/
theorem RunInv.committed (hj : job ∈ s.planned) : RunInv (s.committed job) := by
  by_cases hh : s.pending.head? = some job
  · exact inv.committed_head hh
  · obtain ⟨e, -, hcommit⟩ := inv.commitRoll_other hj hh
    have hs : s.committed job = s := by
      simp only [TreeRun.committed, hcommit]
    rw [hs]
    exact inv

theorem RunInv.reset (rootBlock : Block) : RunInv (s.reset rootBlock) where
  tree := treeInv_resetRoot s.tree rootBlock
  pending := rfl
  planned {job} hj := by
    right
    have hold : ∃ e, StartsAt s.tree.heap job e ∧ e < s.tree.heap.next := by
      rcases inv.planned hj with hmem | ⟨e, hs, he⟩
      · obtain ⟨e, hre, hje, -⟩ :=
          inv.tree.exists_jobAt s.tree.inTree_root inv.pending hmem
        exact ⟨e, inv.tree.startsAt hre hje, inv.tree.lt_next hre⟩
      · exact ⟨e, hs, he.trans (inv.tree.lt_next s.tree.inTree_root)⟩
    obtain ⟨e, hs, he⟩ := hold
    refine ⟨e, hs.congr (Nat.le_succ _) fun c hc src hsrc => .inr ?_, he⟩
    have hcell : (s.reset rootBlock).tree.heap.cell c = s.tree.heap.cell c :=
      s.tree.heap.cell_newRoot_of_ne rootBlock hc.ne
    rwa [source, hcell] at hsrc

/-- Execution keeps the run invariant. -/
theorem RunInv.extends (ext : Heap.Extends s.tree.heap h') :
    RunInv { s with tree := { s.tree with heap := h' } } := by
  refine inv.congr (inv.tree.extends ext) (fun a c _ hc _ => ?_) (fun p hp => ?_)
    ext.next_le fun c hc src hsrc => ?_
  · exact ext.children_eq.symm ▸ hc
  · obtain ⟨cell, hcell⟩ := isSome_iff_exists.mp (inv.tree.isSome_cell hp)
    exact ext.origin_eq hcell
  · cases hcell : s.tree.heap.cell c with
    | some cell => rwa [ext.source_eq hcell] at hsrc
    | none =>
      obtain ⟨cell', hcell', -⟩ := map_eq_some_iff.mp hsrc
      exact absurd (ext.new hcell' hcell).1 (not_le.mpr hc)

/-- **Every operation keeps the run invariant.** -/
theorem runInv_op (hs : TreeOp s s') : RunInv s' := by
  cases hs with
  | exec ok => exact inv.extends ok.extends
  | @drop p out =>
    refine inv.congr (inv.tree.free out) (fun a c ha hc _ => ?_) (fun q hq => ?_) le_rfl
      fun c hc src hsrc => ?_
    · have hne : a ≠ p := fun e => out (e ▸ ha)
      rwa [children, cell_free_of_ne hne]
    · have hne : q ≠ p := fun e => out (e ▸ hq)
      rw [origin, cell_free_of_ne hne]
      rfl
    · by_cases hne : c = p
      · subst hne
        rw [source, cell_free_self] at hsrc
        cases hsrc
      · rwa [source, cell_free_of_ne hne] at hsrc
  | attach ready ok =>
    obtain ⟨parent, heap, chk, l, pub⟩ := attachInner_ok ok
    exact inv.attached chk l pub fun _ => ready
  | attachLinear ok =>
    obtain ⟨parent, heap, chk, l, pub⟩ := attachInner_ok ok
    exact inv.attached chk l pub fun h => by cases h
  | attachSide ok =>
    obtain ⟨parent, heap, chk, l, rfl⟩ := attachSide_ok ok
    refine inv.congr (inv.tree.linkChecked chk l).2 (fun a c _ hc _ => ?_)
      (fun p _ => l.origin_eq p) l.next_eq.ge fun c _ src hsrc => ?_
    · exact l.mem_children.mpr (.inl hc)
    · rwa [l.source_eq] at hsrc
  | enforceSideCapacity capacity =>
    obtain ⟨heap, heq, pr⟩ := inv.tree.enforceSideCapacity_pruned capacity
    rw [heq]
    refine inv.congr (inv.tree.prune pr) (fun a c _ => pr.keep) (fun p _ => pr.origin_eq p)
      pr.next_eq.ge fun c _ src hsrc => ?_
    rwa [pr.source_eq] at hsrc
  | resetRoot rootBlock => exact inv.reset rootBlock

/-- **Every step keeps the run invariant.** -/
theorem runInv_step (hs : TreeStep s s') : RunInv s' := by
  cases hs with
  | op h => exact runInv_op inv h
  | commitRoll known => exact inv.committed known

end

/-- **The run invariant holds along every run.** -/
theorem runInv_of_reachable (hs : TreeReachable s) : RunInv s := by
  obtain ⟨t, rootBlock, hrun⟩ := hs
  induction hrun with
  | refl => exact runInv_init t rootBlock
  | tail _ hstep ih => exact runInv_step ih hstep

/-- **The fork tree along every run.** The three cursors lie on one branch; a parent link goes down
by one block; hashes are distinct, chunks frozen and the head found. The oldest job not yet
committed passes validation and becomes the root; every other planned job is refused. Fork keys
are arbitrary. -/
theorem forkTree_of_reachable (hs : TreeReachable s) :
    (Reach s.tree.heap.children s.tree.root s.tree.scheduledRoot ∧
      Reach s.tree.heap.children s.tree.scheduledRoot s.tree.head) ∧
    (∀ p q, s.tree.InTree q → s.tree.heap.parent q = some p →
      s.tree.InTree p ∧ heightOf s.tree.heap q = heightOf s.tree.heap p + 1) ∧
    (∀ p q, s.tree.InTree p → s.tree.InTree q →
      hashOf s.tree.heap p = hashOf s.tree.heap q → p = q) ∧
    (∀ p, s.tree.InTree p → IsAttached s.tree.heap p) ∧
    s.tree.find (hashOf s.tree.heap s.tree.head) = some s.tree.head ∧
    (∀ job, s.pending.head? = some job →
      s.tree.validateRoll job = .ok () ∧ (s.tree.commitRoll job).1 = .ok () ∧
        (s.tree.commitRoll job).2.root = job.newRoot) ∧
    (∀ job ∈ s.planned, s.pending.head? ≠ some job →
      ∃ e, s.tree.validateRoll job = .error e ∧ s.tree.commitRoll job = (.error e, s.tree)) := by
  have inv := runInv_of_reachable hs
  refine ⟨⟨inv.tree.scheduled, inv.tree.head⟩, ?_, fun p q => inv.tree.distinct,
    fun p => inv.tree.attached, inv.tree.find_hashOf inv.tree.inTree_head, ?_, ?_⟩
  · intro p q hq hpar
    obtain ⟨hp, hmem⟩ := inv.tree.inTree_parent hq hpar
    exact ⟨hp, inv.tree.height hp hmem⟩
  · intro job hjob
    obtain ⟨hvalid, hcommit⟩ := inv.commitRoll_head hjob
    exact ⟨hvalid, by rw [hcommit], by rw [hcommit]⟩
  · intro job hjob hne
    exact inv.commitRoll_other hjob hne

/-- Execute a block on its parent and attach it. A strict attach waits until the scheduled
root is durable. -/
def TreeRun.grow (s : TreeRun) (linear : Bool) (window : ℕ) (block : Block)
    (key : ForkChoiceKey) : Option TreeRun :=
  if linear = false ∧ s.tree.scheduledRoot ≠ s.tree.root then none
  else match s.tree.beginBlockExecution block.prevHash block key with
  | .ok (some (chunk, _, heap)) =>
    match ({ s.tree with heap } : Tree).attachInner block.prevHash chunk window linear with
    | .ok (ins, t) => some (attached { s with tree := { s.tree with heap } } ins t)
    | .error _ => none
  | _ => none

theorem TreeReachable.grow (hs : TreeReachable s) {linear : Bool} {window : ℕ} {block : Block}
    {key : ForkChoiceKey} (hg : s.grow linear window block key = some s') : TreeReachable s' := by
  obtain ⟨t₀, rootBlock, hrun⟩ := hs
  unfold TreeRun.grow at hg
  split_ifs at hg with hready
  split at hg
  · next chunk parent heap hbegin =>
    obtain ⟨-, -, -, hexec⟩ := beginBlockExecution_ok hbegin
    have hrun' := hrun.tail (.op (.exec (.blockExec hexec)))
    split at hg
    · next ins t hattach =>
      cases hg
      refine ⟨t₀, rootBlock, hrun'.tail (.op ?_)⟩
      cases linear with
      | true => exact .attachLinear hattach
      | false =>
        refine .attach ?_ hattach
        by_contra hne
        exact hready ⟨rfl, hne⟩
    · cases hg
  · cases hg

theorem TreeReachable.enforceSideCapacity (hs : TreeReachable s) (capacity : ℕ) :
    TreeReachable { s with tree := s.tree.enforceSideCapacity capacity } := by
  obtain ⟨t₀, rootBlock, hrun⟩ := hs
  exact ⟨t₀, rootBlock, hrun.tail (.op (.enforceSideCapacity capacity))⟩

/-- A root block at height 0. -/
def sampleRoot : Block := .sample 0 1 0

/-- A block on `sampleRoot`. -/
def sampleChild : Block := .sample 1 2 1

/-- The tree at `sampleRoot` with `sampleChild` executed and not attached yet. -/
def sampleTree : Tree :=
  let t := (Tree.new .empty sampleRoot).resetRoot sampleRoot
  match t.heap.blockExecOn t.root sampleChild (.fromHeight 1) with
  | .ok (_, heap) => { t with heap }
  | .error _ => t

/-- The run that attaches `sampleChild` with window 1. -/
def sampleRun : TreeRun :=
  match sampleTree.attachLinear sampleRoot.hash 2 1 with
  | .ok (ins, t) => attached ⟨sampleTree, [], []⟩ ins t
  | .error _ => ⟨sampleTree, [], []⟩

/-- The job `sampleRun` has planned. -/
def sampleJob : RollJob := ⟨sampleRoot.hash, 0, 2, [2]⟩

theorem sampleRun_planned : sampleRun.planned = [sampleJob] := by decide

theorem sampleRun_pending : sampleRun.pending = [sampleJob] := by decide

theorem sampleTree_exec :
    ((Tree.new .empty sampleRoot).resetRoot sampleRoot).heap.blockExecOn 1 sampleChild
      (.fromHeight 1) = .ok (2, sampleTree.heap) := rfl

theorem treeReachable_sampleRun : TreeReachable sampleRun := by
  have hrun : Relation.ReflTransGen TreeStep
      ⟨(Tree.new .empty sampleRoot).resetRoot sampleRoot, [], []⟩ ⟨sampleTree, [], []⟩ :=
    .single (.op (.exec (.blockExec sampleTree_exec)))
  unfold sampleRun
  split
  · next hok => exact ⟨_, _, hrun.tail (.op (.attachLinear hok))⟩
  · exact ⟨_, _, hrun⟩

/-- The waiting job of a concrete run passes validation. -/
theorem forkTree_of_reachable_sampleRun :
    sampleRun.pending.head? = some sampleJob ∧ sampleRun.tree.validateRoll sampleJob = .ok () :=
  have hhead : sampleRun.pending.head? = some sampleJob := by rw [sampleRun_pending]; rfl
  ⟨hhead, ((forkTree_of_reachable treeReachable_sampleRun).2.2.2.2.2.1 _ hhead).1⟩

/-- A reset discards the jobs of the old tree: a job not committed yet is refused after it. -/
theorem reset_refuses_waiting_job :
    TreeReachable sampleRun ∧ sampleRun.planned = [sampleJob] ∧
      sampleRun.pending = [sampleJob] ∧ TreeStep sampleRun (sampleRun.reset sampleRoot) ∧
      ∃ e, (sampleRun.reset sampleRoot).tree.validateRoll sampleJob = .error e := by
  refine ⟨treeReachable_sampleRun, sampleRun_planned, sampleRun_pending, .op (.resetRoot _), ?_⟩
  have inv := (runInv_of_reachable treeReachable_sampleRun).reset sampleRoot
  have hmem : sampleJob ∈ (sampleRun.reset sampleRoot).planned := by
    show sampleJob ∈ sampleRun.planned
    rw [sampleRun_planned]
    exact mem_singleton_self _
  obtain ⟨e, he, -⟩ := inv.commitRoll_other hmem (by simp [reset])
  exact ⟨e, he⟩

end Hacash
