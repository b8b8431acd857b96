import Hacash.Chain.Optimistic

/-!
# Soundness of optimistic reads (`chain/src/view.rs:47–140`)

A reader captures a tip, reads layer by layer while a roll may write its batch, and validates at the
end. **Key result**: `optimistic_read_sound`.
-/

namespace Hacash

open Lib List Option Heap Sys Block Overlay Hacash.Tree Relation

/-! ## Readers -/

/-- Where a read in progress is. -/
inductive ReadPos where
  | layer (p : ℕ)
  | onDisk

/-- A captured snapshot and what was read through it. -/
structure View where
  tip : ℕ
  tipHash : Hash
  tipHeight : ℕ
  /-- The epoch of a canonical capture. -/
  epoch : Option ℕ
  /-- The tip's state at the moment of capture. -/
  atCapture : Key → Option (Option Val)
  reading : Option (Key × ReadPos)
  obtained : List (Key × Option Val)
  /-- Validation has begun: `root_available` was loaded as true since the last read. -/
  flagSeen : Bool

/-- A snapshot of the chunk at `p`. -/
def Sys.capture (s : Sys) (p : ℕ) (epoch : Option ℕ) : View where
  tip := p
  tipHash := hashOf s.heap p
  tipHeight := heightOf s.heap p
  epoch := epoch
  atCapture := s.heap.getState s.disk p
  reading := none
  obtained := []
  flagSeen := false

/-- One step of a reader on the system `s`. -/
inductive ReaderStep (s : Sys) : View → View → Prop
  | startRead {v : View} (k : Key) (ready : v.reading = none) :
      ReaderStep s v { v with reading := some (k, .layer v.tip), flagSeen := false }
  | hit {v : View} {k : Key} {p : ℕ} {c : StateChunk} {val : Option Val}
      (reading : v.reading = some (k, .layer p)) (cell : s.heap.cell p = some c)
      (found : c.body.layer k = some val) :
      ReaderStep s v { v with reading := none, obtained := v.obtained ++ [(k, val)] }
  | toParent {v : View} {k : Key} {p q : ℕ} {c : StateChunk}
      (reading : v.reading = some (k, .layer p)) (cell : s.heap.cell p = some c)
      (missed : c.body.layer k = none) (parent : s.heap.parent p = some q) :
      ReaderStep s v { v with reading := some (k, .layer q) }
  | toDisk {v : View} {k : Key} {p : ℕ} {c : StateChunk}
      (reading : v.reading = some (k, .layer p)) (cell : s.heap.cell p = some c)
      (missed : c.body.layer k = none) (source : c.source = .disk) :
      ReaderStep s v { v with reading := some (k, .onDisk) }
  | readDisk {v : View} {k : Key} (reading : v.reading = some (k, .onDisk)) :
      ReaderStep s v { v with reading := none, obtained := v.obtained ++ [(k, s.disk k)] }
  | loadFlag {v : View} (ready : v.reading = none) (available : s.available = true) :
      ReaderStep s v { v with flagSeen := true }

/-- The system and one reader, interleaved. Readers do not act on the system, so one
stands for any number. -/
inductive ReadStep (blocks : Set Block) : Sys × Option View → Sys × Option View → Prop
  | sys {s s' : Sys} {v : Option View} (h : SysStep blocks s s') :
      ReadStep blocks (s, v) (s', v)
  | captureHead {s : Sys} {v : Option View} :
      ReadStep blocks (s, v) (s, some (s.capture s.tree.head (some s.tree.epoch)))
  | captureAt {s : Sys} {v : Option View} {hash : Hash} {p : ℕ}
      (found : s.tree.find hash = some p) :
      ReadStep blocks (s, v) (s, some (s.capture p none))
  | reader {s : Sys} {v v' : View} (h : ReaderStep s v v') :
      ReadStep blocks (s, some v) (s, some v')

/-- A state reached from a freshly reset tree with its root block in `blocks`. -/
def ReadReachable (blocks : Set Block) (s : Sys) (v : View) : Prop :=
  ∃ (t : Tree) (rootBlock : Block) (disk : Disk), rootBlock ∈ blocks ∧
    ReflTransGen (ReadStep blocks) (init t rootBlock disk, none) (s, some v)

/-- `validate_optimistic` returns true: the flag was loaded as true and the epoch is
the captured one. -/
def View.validOptimistic (v : View) (s : Sys) : Bool :=
  v.flagSeen && (v.epoch = some s.tree.epoch)

/-- `validate_state_view` returns true: the flag was loaded as true and the tree
contains the tip's hash. -/
def View.validStateView (v : View) (s : Sys) : Bool :=
  v.flagSeen && (s.tree.find v.tipHash).isSome

/-! ## What a captured view stays true to -/

variable {blocks : Set Block} {s s' : Sys} {v v' : View} {first x y : ℕ}

/-- The disk is ahead of the tip: it left the tree, or a batch was written for a root
it does not descend from. -/
def Doomed (s : Sys) (v : View) : Prop :=
  ¬ s.tree.InTree v.tip ∨
    ∃ job before, s.phase = .written job before ∧ ¬ Reach s.heap.children job.newRoot v.tip

/-- What no step changes. `path` is the tip with its ancestors at capture, oldest first, `layers`
and `blk` what these chunks hold. -/
structure ViewStatic (blocks : Set Block) (v : View) (path : List ℕ) (layers : ℕ → MemKV)
    (blk : ℕ → Block) (low : ℕ) : Prop where
  last : ∃ pre, path = pre ++ [v.tip]
  /-- The newest layer of the path that has the key decides. -/
  newest : ∀ {k pre p post val}, path = pre ++ p :: post → (∀ y ∈ post, layers y k = none) →
    layers p k = some val → v.atCapture k = some val
  heights : path.Pairwise fun a b => (blk a).height < (blk b).height
  tipHash : (blk v.tip).hash = v.tipHash
  known : ∀ p ∈ path, blk p ∈ blocks
  /-- The path contains the parent of each of its blocks, down to height `low`. -/
  closed : ∀ p ∈ path, (blk p).height ≤ low ∨
    ∃ q ∈ path, (blk q).hash = (blk p).prevHash

/-- How a view relates to the system as it is now. -/
structure ViewInv (s : Sys) (v : View) (path : List ℕ) (layers : ℕ → MemKV)
    (blk : ℕ → Block) (low : ℕ) : Prop where
  settled : ∀ p ∈ path, Settled s.heap p
  layer : ∀ p ∈ path, ∀ c, s.heap.cell p = some c → c.body.layer = layers p
  ident : ∀ p ∈ path, ∀ identity, identityOf s.heap p = some identity →
    identity.block = blk p
  /-- A chunk of the path reads from its predecessor or from the disk. -/
  link : ∀ {pre a b post}, path = pre ++ a :: b :: post → ∀ src,
    s.heap.source b = some src → src = .parent a ∨ src = .disk
  oldest : ∀ {a post}, path = a :: post → ∀ src, s.heap.source a = some src → src = .disk
  /-- While the tip is in the tree, the way to it from the root is the end of the path. -/
  suffix : s.tree.InTree v.tip → ∃ l, Path s.heap.children s.tree.root l v.tip ∧ l <:+ path
  low_le : low ≤ heightOf s.heap s.tree.root
  /-- Once the tip has left the tree, the root is none of its ancestors. -/
  forked : ¬ s.tree.InTree v.tip → ∀ identity,
    identityOf s.heap s.tree.root = some identity → ∀ p ∈ path, identity.block ≠ blk p
  good : ¬ Doomed s v → ∀ k, ¬ IsRootMarker k →
    v.atCapture k = s.heap.getState s.base v.tip k
  epoch : ∀ e, v.epoch = some e → e < 2 ^ 64 ∧ ∃ m, s.tree.epoch = (e + m) % 2 ^ 64 ∧
    v.tipHeight + m ≤ heightOf s.heap s.tree.head ∧ (m = 0 → s.tree.head = v.tip)

/-- What was obtained is what the tip's state held at capture. -/
def Faithful (v : View) : Prop :=
  ∀ kv ∈ v.obtained, ¬ IsRootMarker kv.1 → v.atCapture kv.1 = some kv.2

/-- The invariant of a read in progress and of what was obtained. -/
structure ReadInv (s : Sys) (v : View) (path : List ℕ) (layers : ℕ → MemKV) : Prop where
  obtained : Doomed s v ∨ Faithful v
  flag : v.flagSeen = true → ¬ s.tree.InTree v.tip ∨ Faithful v
  busy : v.reading ≠ none → v.flagSeen = false
  atLayer : ∀ {k p}, v.reading = some (k, .layer p) →
    ∃ pre post, path = pre ++ p :: post ∧ ∀ y ∈ post, layers y k = none
  atDisk : ∀ {k}, v.reading = some (k, .onDisk) → ∀ {l},
    Path s.heap.children s.tree.root l v.tip → ∀ y ∈ l, layers y k = none

/-! ## Reads along a path of the tree -/

variable {t : Tree} {k : Key} {disk : Disk} {l : List ℕ} {p : ℕ}

theorem TreeInv.exists_identity (inv : TreeInv t) (hp : t.InTree p) :
    ∃ identity, identityOf t.heap p = some identity ∧
      identity.block.height = heightOf t.heap p ∧ identity.block.hash = hashOf t.heap p ∧
      t.heap.origin p = some (.block (heightOf t.heap p) (some identity)) := by
  obtain ⟨height, identity, δ, ho, -⟩ := inv.attached hp
  obtain ⟨c, hc, hco⟩ := map_eq_some_iff.mp ho
  have hproper := t.heap.proper hc
  rw [hco] at hproper
  have hid : identityOf t.heap p = some identity := by
    rw [identityOf, ho]
    rfl
  have hheight : heightOf t.heap p = height := by
    rw [heightOf, ho]
    rfl
  refine ⟨identity, hid, hproper.2.trans hheight.symm, ?_, hheight ▸ ho⟩
  rw [hashOf_of_identityOf hid, hproper.1]

theorem TreeInv.readsFrom (inv : TreeInv t) {a b : ℕ} (ha : t.InTree a)
    (hab : Reach t.heap.children a b) : ReadsFrom t.heap b a := by
  induction hab with
  | refl => exact ReflTransGen.refl
  | tail hac hc ih => exact ReflTransGen.head (inv.source (ha.trans hac) hc) ih

theorem TreeInv.layer_frozen (inv : TreeInv t) (hp : t.InTree p) :
    (t.heap.frozenState p).getD empty = t.heap.layer p :=
  layer_of_isAttached (inv.attached hp)

theorem TreeInv.getState_of_misses (inv : TreeInv t) {a b : ℕ} (ha : t.InTree a)
    (hl : Path t.heap.children a l b) (hmiss : ∀ y ∈ l, t.heap.layer y k = none) :
    t.heap.getState disk b k = t.heap.getState disk a k := by
  rw [inv.getState_path ha l hl, readThrough, chainBatch_eq_none]
  intro c hc
  rw [inv.layer_frozen (ha.trans (hl.reach_of_mem hc).1), hmiss c hc]

theorem TreeInv.getState_newest (inv : TreeInv t) {b x : ℕ} {pre post : List ℕ}
    {val : Option Val} (hl : Path t.heap.children t.root l b)
    (heq : t.root :: l = pre ++ x :: post) (hmiss : ∀ y ∈ post, t.heap.layer y k = none)
    (hx : t.heap.layer x k = some val) : t.heap.getState disk b k = some val := by
  -- cut the path at `x`
  obtain ⟨l₀, hx₀, hpost⟩ : ∃ l₀, Path t.heap.children t.root l₀ x ∧
      Path t.heap.children x post b := by
    cases pre with
    | nil =>
      simp only [nil_append, cons.injEq] at heq
      obtain ⟨rfl, rfl⟩ := heq
      exact ⟨[], rfl, hl⟩
    | cons c pre =>
      simp only [cons_append, cons.injEq] at heq
      rw [heq.2, append_cons] at hl
      obtain ⟨y, hy, hpost⟩ := hl.split
      obtain ⟨q, -, -, rfl⟩ := Path.snoc_iff.mp hy
      exact ⟨_, hy, hpost⟩
  rw [inv.getState_of_misses hx₀.reach hpost hmiss]
  by_cases hxr : x = t.root
  · subst hxr
    rw [getState_of_disk inv.rootDisk, apply_of_some hx]
  · obtain ⟨q, hq, hxq, -⟩ := inv.exists_parent hx₀.reach hxr
    rw [getState_of_parent (inv.source hq hxq), readThrough, hx]

theorem TreeInv.heights_pairwise (inv : TreeInv t) : ∀ {l : List ℕ} {a b : ℕ}, t.InTree a →
    Path t.heap.children a l b →
    (a :: l).Pairwise fun x y => heightOf t.heap x < heightOf t.heap y
  | [], _, _, _, _ => pairwise_singleton _ _
  | c :: l, a, b, ha, hl => by
    have hc := ha.tail hl.1
    refine pairwise_cons.mpr ⟨fun y hy => ?_, inv.heights_pairwise hc hl.2⟩
    have h1 := inv.height ha hl.1
    have h2 : heightOf t.heap c ≤ heightOf t.heap y := by
      rcases mem_cons.mp hy with rfl | hy
      · exact le_rfl
      · exact inv.height_le hc (hl.2.reach_of_mem hy).1
    omega

theorem SysInv.getState_base (inv : SysInv blocks first s) {x : ℕ} (hk : ¬ IsRootMarker k)
    (hbelow : ∀ job before, s.phase = .written job before → Reach s.heap.children job.newRoot x) :
    s.heap.getState s.disk x k = s.heap.getState s.base x k := by
  cases hph : s.phase with
  | written job before =>
    have hphase := inv.phase
    rw [PhaseInv, hph] at hphase
    obtain ⟨hhead, hdisk⟩ := hphase
    obtain ⟨js, hjs⟩ := head?_eq_some_iff.mp hhead
    have hp := inv.run.pending
    rw [hjs] at hp
    have hnew : s.tree.InTree job.newRoot := hp.1.path.reach
    have hreads := inv.run.tree.readsFrom hnew (hbelow job before hph)
    rw [base, hph, hdisk]
    exact hreads.getState_congr (fun _ _ => rfl) (inv.run.tree.getState_written hp.1 hk)
  | idle | begun _ | validated _ | committed | failed => rw [base, hph]

theorem not_doomed_iff :
    ¬ Doomed s v ↔ s.tree.InTree v.tip ∧ ∀ job before, s.phase = .written job before →
      Reach s.heap.children job.newRoot v.tip := by
  rw [Doomed, not_or, not_not]
  refine and_congr_right fun _ => ⟨fun h job before hph => ?_, ?_⟩
  · by_contra hn
    exact h ⟨job, before, hph, hn⟩
  · rintro h ⟨job, before, hph, hn⟩
    exact hn (h job before hph)

/-! ## Capture -/

/-- **What a capture starts from.** -/
theorem SysInv.captured (inv : SysInv blocks first s) (hp : s.tree.InTree p) {epoch : Option ℕ}
    (hepoch : ∀ e, epoch = some e → p = s.tree.head ∧ e = s.tree.epoch) :
    ∃ path layers blk low, ViewStatic blocks (s.capture p epoch) path layers blk low ∧
      ViewInv s (s.capture p epoch) path layers blk low ∧
      ReadInv s (s.capture p epoch) path layers := by
  obtain ⟨l, hl⟩ := hp.exists_path
  have ht := inv.run.tree
  obtain ⟨idRoot, -, -, -, -⟩ := ht.exists_identity s.tree.inTree_root
  let blk : ℕ → Block := fun x => ((identityOf s.heap x).map (·.block)).getD idRoot.block
  have hin : ∀ x ∈ s.tree.root :: l, s.tree.InTree x := by
    intro x hx
    rcases mem_cons.mp hx with rfl | hx
    · exact s.tree.inTree_root
    · exact (hl.reach_of_mem hx).1
  have hblk : ∀ {x identity}, identityOf s.heap x = some identity → blk x = identity.block := by
    intro x identity hid
    show ((identityOf s.heap x).map (·.block)).getD idRoot.block = _
    rw [hid]
    rfl
  have hheight : ∀ x ∈ s.tree.root :: l, (blk x).height = heightOf s.heap x := by
    intro x hx
    obtain ⟨identity, hid, hh, -, -⟩ := ht.exists_identity (hin x hx)
    rw [hblk hid, hh]
  refine ⟨s.tree.root :: l, s.heap.layer, blk, heightOf s.heap s.tree.root, ?_, ?_, ?_⟩
  · refine
      { last := hl.cons_eq_snoc, newest := ?_, heights := ?_, tipHash := ?_, known := ?_
        closed := ?_ }
    · intro k pre x post val heq hmiss hx
      exact ht.getState_newest hl heq hmiss hx
    · refine (ht.heights_pairwise s.tree.inTree_root hl).imp_of_mem fun ha hb hlt => ?_
      rwa [hheight _ ha, hheight _ hb]
    · obtain ⟨identity, hid, -, hh, -⟩ := ht.exists_identity hp
      show (blk p).hash = hashOf s.heap p
      rw [hblk hid, hh]
    · intro x hx
      obtain ⟨identity, hid, -, -, ho⟩ := ht.exists_identity (hin x hx)
      rw [hblk hid]
      exact (inv.info x _ identity (inv.first_le.trans (hin x hx).root_le) ho).1
    · intro x hx
      rcases mem_cons.mp hx with rfl | hxl
      · exact .inl (hheight _ mem_cons_self).le
      · right
        obtain ⟨q, hq, hxq⟩ := hl.exists_parent hxl
        obtain ⟨identity, hid, -, -, ho⟩ := ht.exists_identity (hin x hx)
        obtain ⟨idq, hidq, -, hhq, -⟩ := ht.exists_identity (hin q hq)
        refine ⟨q, hq, ?_⟩
        rw [hblk hid, hblk hidq, hhq]
        exact ((inv.info x _ identity (inv.first_le.trans (hin x hx).root_le) ho).2.2 q
          (ht.parent_child (hin q hq) hxq)).symm
  · refine
      { settled := fun x hx => ht.settled (hin x hx), layer := ?_, ident := ?_, link := ?_
        oldest := ?_, suffix := fun _ => ⟨l, hl, suffix_cons _ _⟩, low_le := le_rfl
        forked := fun hout => absurd hp hout, good := ?_, epoch := ?_ }
    · intro x _ c hc
      rw [layer, body, hc]
      rfl
    · intro x _ identity hid
      exact (hblk hid).symm
    · intro pre a b post heq src hsrc
      have ha := hin a (by rw [heq]; simp)
      rw [ht.source ha (hl.consecutive heq), some.injEq] at hsrc
      exact .inl hsrc.symm
    · intro a post heq src hsrc
      simp only [cons.injEq] at heq
      rw [← heq.1, ht.rootDisk, some.injEq] at hsrc
      exact hsrc.symm
    · intro hgood k hk
      exact inv.getState_base hk (not_doomed_iff.mp hgood).2
    · intro e he
      obtain ⟨rfl, rfl⟩ := hepoch e he
      refine ⟨inv.epoch_lt, 0, (Nat.mod_eq_of_lt inv.epoch_lt).symm, le_rfl, fun _ => rfl⟩
  · refine
      { obtained := .inr fun kv hkv => ?_, flag := fun h => ?_, busy := fun h => ?_
        atLayer := fun h => ?_, atDisk := fun h => ?_ }
    · cases hkv
    · cases h
    · exact absurd rfl h
    · cases h
    · cases h

/-! ## Steps of the system -/

variable {path : List ℕ} {layers : ℕ → MemKV} {blk : ℕ → Block} {low : ℕ} {run : TreeRun}

theorem ViewStatic.tip_mem (vs : ViewStatic blocks v path layers blk low) : v.tip ∈ path := by
  obtain ⟨pre, rfl⟩ := vs.last
  exact mem_append_right _ (mem_singleton_self _)

section

variable {r r' : TreeRun} (g : Grows r r') (hx : Settled r.tree.heap x)
include g hx

theorem Grows.identityOf_old
    {identity : BlockIdentity} (hid : identityOf r'.tree.heap x = some identity) :
    identityOf r.tree.heap x = some identity := by
  obtain ⟨o, ho, hoid⟩ := bind_eq_some_iff.mp hid
  obtain ⟨c', hc', rfl⟩ := map_eq_some_iff.mp ho
  obtain ⟨c, hc, horg, -, -⟩ := g.cell hx hc'
  rw [identityOf, origin, hc, map_some, bind_some, ← horg]
  exact hoid

theorem Grows.source_old {src : Source} (hsrc : r'.tree.heap.source x = some src) :
    r.tree.heap.source x = some src := by
  obtain ⟨c', hc', rfl⟩ := map_eq_some_iff.mp hsrc
  obtain ⟨c, hc, -, hs, -⟩ := g.cell hx hc'
  rw [source, hc, map_some, ← hs]

end

theorem Doomed.grows (g : Grows s.run run) (htip : Settled s.heap v.tip) (hd : Doomed s v) :
    Doomed { s with run } v := by
  rcases hd with hout | ⟨job, before, hph, hnot⟩
  · exact .inl fun hin => hout (g.inTree_old htip hin)
  · exact .inr ⟨job, before, hph, fun hr => hnot (g.reach_old htip hr)⟩

theorem Grows.getState_eq {r r' : TreeRun} (g : Grows r r') (inv : RunInv r) (inv' : RunInv r')
    (hx : r.tree.InTree x) : r'.tree.heap.getState disk x k = r.tree.heap.getState disk x k := by
  obtain ⟨l, hl⟩ := hx.exists_path
  have hl' := g.path r.tree.inTree_root hl
  rw [← g.root_eq] at hl'
  rw [inv'.tree.getState_path r'.tree.inTree_root _ hl',
    inv.tree.getState_path r.tree.inTree_root _ hl, getState_of_disk inv'.tree.rootDisk,
    getState_of_disk inv.tree.rootDisk, g.chainBatch_eq inv fun c hc => (hl.reach_of_mem hc).1,
    g.root_eq, g.layer_eq inv r.tree.inTree_root]

section

variable (inv : SysInv blocks first s) (inv' : SysInv blocks first { s with run })
  (g : Grows s.run run)
include inv inv' g

theorem SysInv.head_grows : (run.tree.head = s.tree.head ∧ run.tree.epoch = s.tree.epoch) ∨
      (run.tree.epoch = (s.tree.epoch + 1) % 2 ^ 64 ∧
        heightOf s.heap s.tree.head < heightOf run.tree.heap run.tree.head) := by
  refine g.head.imp_right fun ⟨he, hkey⟩ => ⟨he, ?_⟩
  obtain ⟨id, hid, hh, -, ho⟩ := inv.run.tree.exists_identity inv.run.tree.inTree_head
  obtain ⟨id', hid', hh', -, ho'⟩ := inv'.run.tree.exists_identity inv'.run.tree.inTree_head
  have hk := (inv.info _ _ id (inv.first_le.trans inv.run.tree.inTree_head.root_le) ho).2.1
  have hk' := (inv'.info _ _ id' (inv'.first_le.trans inv'.run.tree.inTree_head.root_le) ho').2.1
  rw [forkKeyOf_of_identityOf hid, forkKeyOf_of_identityOf hid', hk, hk'] at hkey
  have hmax : u64Max < 2 ^ 64 := by decide
  exact (ForkChoiceKey.fromHeight_lt_iff ((heightOf_lt ho).trans hmax)
    ((heightOf_lt ho').trans hmax)).mp hkey

theorem ViewInv.grows (vs : ViewStatic blocks v path layers blk low)
    (vi : ViewInv s v path layers blk low) : ViewInv { s with run } v path layers blk low := by
  have htip := vi.settled _ vs.tip_mem
  have horigin := g.origin_eq inv.run s.tree.inTree_root
  refine
    { settled := fun p hp => g.settled (vi.settled p hp), layer := ?_, ident := ?_, link := ?_
      oldest := ?_, suffix := ?_, low_le := ?_, forked := ?_, good := ?_, epoch := ?_ }
  · intro p hp c' hc'
    obtain ⟨c, hc, -, -, hb⟩ := g.cell (vi.settled p hp) hc'
    rw [hb, vi.layer p hp c hc]
  · intro p hp identity hid
    exact vi.ident p hp identity (g.identityOf_old (vi.settled p hp) hid)
  · intro pre a b post heq src hsrc
    exact vi.link heq src (g.source_old (vi.settled b (by rw [heq]; simp)) hsrc)
  · intro a post heq src hsrc
    exact vi.oldest heq src (g.source_old (vi.settled a (by rw [heq]; simp)) hsrc)
  · intro hin
    obtain ⟨l, hl, hsuf⟩ := vi.suffix (g.inTree_old htip hin)
    refine ⟨l, ?_, hsuf⟩
    have := g.path s.tree.inTree_root hl
    rwa [← g.root_eq] at this
  · show low ≤ heightOf run.tree.heap run.tree.root
    rw [g.root_eq, heightOf, horigin]
    exact vi.low_le
  · intro hout identity hid
    refine vi.forked (fun hin => hout (g.inTree hin)) identity ?_
    have hid' : identityOf run.tree.heap run.tree.root = some identity := hid
    rw [g.root_eq] at hid'
    exact g.identityOf_old (inv.run.tree.settled s.tree.inTree_root) hid'
  · intro hgood k hk
    have hold : ¬ Doomed s v := fun hd => hgood (hd.grows g htip)
    rw [vi.good hold k hk]
    exact (g.getState_eq inv.run inv'.run (not_doomed_iff.mp hold).1).symm
  · intro e he
    obtain ⟨hlt, m, hm, hheight, hzero⟩ := vi.epoch e he
    rcases inv.head_grows inv' g with ⟨hhead, hep⟩ | ⟨hep, hgt⟩
    · refine ⟨hlt, m, hep.trans hm, ?_, fun h0 => hhead.trans (hzero h0)⟩
      show v.tipHeight + m ≤ heightOf run.tree.heap run.tree.head
      rw [hhead, heightOf, g.origin_eq inv.run inv.run.tree.inTree_head]
      exact hheight
    · refine ⟨hlt, m + 1, ?_, ?_, fun h0 => by omega⟩
      · show run.tree.epoch = _
        rw [hep, hm]
        omega
      · show v.tipHeight + (m + 1) ≤ heightOf run.tree.heap run.tree.head
        omega

end

theorem ReadInv.grows (inv' : SysInv blocks first { s with run })
    (g : Grows s.run run) (vs : ViewStatic blocks v path layers blk low)
    (vi : ViewInv s v path layers blk low) (ri : ReadInv s v path layers) :
    ReadInv { s with run } v path layers := by
  have htip := vi.settled _ vs.tip_mem
  refine
    { obtained := ri.obtained.imp_left fun hd => hd.grows g htip
      flag := fun hf => (ri.flag hf).imp_left fun hout hin => hout (g.inTree_old htip hin)
      busy := ri.busy, atLayer := ri.atLayer, atDisk := ?_ }
  intro k hr l hl
  obtain ⟨l₀, hl₀⟩ := (g.inTree_old htip hl.reach).exists_path
  have hl₀' := g.path s.tree.inTree_root hl₀
  rw [← g.root_eq] at hl₀'
  rw [inv'.run.tree.isTree.path_unique run.tree.inTree_root hl hl₀']
  exact ri.atDisk hr hl₀

theorem Doomed.out (hd : Doomed s v) (hph : ∀ job before, s.phase ≠ .written job before) :
    ¬ s.tree.InTree v.tip := by
  rcases hd with hout | ⟨job, before, h, -⟩
  · exact hout
  · exact absurd h (hph job before)

theorem ViewInv.phase (vi : ViewInv s v path layers blk low) (hrun : s'.run = s.run)
    (hbase : s'.base = s.base) (hph : ∀ job before, s.phase ≠ .written job before) :
    ViewInv s' v path layers blk low := by
  obtain ⟨run, disk, available, phase⟩ := s'
  subst hrun
  refine { vi with good := fun hgood k hk => ?_ }
  rw [hbase]
  exact vi.good (fun hd => hgood (.inl (hd.out hph))) k hk

theorem ReadInv.phase (ri : ReadInv s v path layers) (hrun : s'.run = s.run)
    (hph : ∀ job before, s.phase ≠ .written job before) : ReadInv s' v path layers := by
  obtain ⟨run, disk, available, phase⟩ := s'
  subst hrun
  exact { ri with obtained := ri.obtained.imp_left fun hd => .inl (hd.out hph) }

/-! ## Commits -/

/-- A chunk of the tree that is a block of the path has all its ancestors on it. -/
theorem SysInv.root_on_path (inv : SysInv blocks first s) (hinj : Set.InjOn hash blocks)
    (vs : ViewStatic blocks v path layers blk low) (hlow : low ≤ heightOf s.heap s.tree.root)
    {idRoot : BlockIdentity} (hroot : identityOf s.heap s.tree.root = some idRoot) :
    ∀ {l : List ℕ} {y : ℕ} {identity : BlockIdentity}, Path s.heap.children s.tree.root l y →
      identityOf s.heap y = some identity → (∃ p ∈ path, identity.block = blk p) →
      ∃ p ∈ path, idRoot.block = blk p := by
  have ht := inv.run.tree
  intro l
  induction l using reverseRecOn with
  | nil =>
    intro y identity hl hid hp
    obtain rfl : s.tree.root = y := hl
    rw [hroot, some.injEq] at hid
    exact hid ▸ hp
  | append_singleton l x ih =>
    intro y identity hl hid hp
    obtain ⟨q, hq, hx, rfl⟩ := Path.snoc_iff.mp hl
    obtain ⟨p, hp, hblk⟩ := hp
    obtain ⟨idq, hidq, -, hhash, hoq⟩ := ht.exists_identity hq.reach
    obtain ⟨idx, hidx, hheight, -, hox⟩ := ht.exists_identity (hq.reach.tail hx)
    rw [hid, some.injEq] at hidx
    subst hidx
    have hfirst : ∀ {z}, s.tree.InTree z → first ≤ z := fun hz => inv.first_le.trans hz.root_le
    refine ih hq hidq ?_
    rcases vs.closed p hp with hle | ⟨p', hp', hprev⟩
    · -- a block of the tree other than the root is higher than the root
      have h1 : heightOf s.heap x = heightOf s.heap q + 1 := ht.height hq.reach hx
      have h2 : heightOf s.heap s.tree.root ≤ heightOf s.heap q :=
        ht.height_le s.tree.inTree_root hq.reach
      have hle' : heightOf s.heap x ≤ low := by rwa [← hblk, hheight] at hle
      omega
    · have hpar := (inv.info _ _ _ (hfirst (hq.reach.tail hx)) hox).2.2 q
        (ht.parent_child hq.reach hx)
      refine ⟨p', hp', hinj (inv.info _ _ _ (hfirst hq.reach) hoq).1 (vs.known p' hp') ?_⟩
      rw [hhash, hprev, ← hblk]
      exact hpar.symm

theorem ViewInv.height_le_root (vi : ViewInv s v path layers blk low) (ht : TreeInv s.tree)
    (vs : ViewStatic blocks v path layers blk low) {pre : List ℕ} (heq : path = pre ++ l)
    (hl : Path s.heap.children s.tree.root l v.tip) (hp : p ∈ pre) :
    (blk p).height ≤ heightOf s.heap s.tree.root := by
  have hheight : ∀ {x}, x ∈ path → s.tree.InTree x → (blk x).height = heightOf s.heap x := by
    intro x hx hin
    obtain ⟨identity, hid, hh, -, -⟩ := ht.exists_identity hin
    rw [← vi.ident x hx identity hid, hh]
  have hpair := vs.heights
  cases l with
  | nil =>
    have hroot : s.tree.root = v.tip := hl
    obtain ⟨pre', hlast⟩ := vs.last
    rw [hroot, ← hheight vs.tip_mem hl.reach]
    rw [append_nil] at heq
    rw [← heq, hlast] at hp
    rw [hlast] at hpair
    rcases mem_append.mp hp with hp | hp
    · exact ((pairwise_append.mp hpair).2.2 p hp _ (mem_singleton_self _)).le
    · rw [mem_singleton.mp hp]
  | cons c l =>
    rw [heq] at hpair
    have hlt := (pairwise_append.mp hpair).2.2 p hp c mem_cons_self
    have hc : (blk c).height = heightOf s.heap c :=
      hheight (by rw [heq]; simp) (s.tree.inTree_root.tail hl.1)
    have h1 : heightOf s.heap c = heightOf s.heap s.tree.root + 1 :=
      ht.height s.tree.inTree_root hl.1
    omega

theorem ViewInv.forked_commit (inv : SysInv blocks first s) (hinj : Set.InjOn hash blocks)
    (vs : ViewStatic blocks v path layers blk low) (vi : ViewInv s v path layers blk low)
    {job : RollJob} (hat : JobAt s.heap s.tree.root job)
    (hout : ¬ Reach s.heap.children job.newRoot v.tip) {identity : BlockIdentity}
    (hid : identityOf s.heap job.newRoot = some identity) (hp : p ∈ path) :
    identity.block ≠ blk p := by
  have ht := inv.run.tree
  have hnew : s.tree.InTree job.newRoot := hat.path.reach
  obtain ⟨idRoot, hroot, -, -, -⟩ := ht.exists_identity s.tree.inTree_root
  obtain ⟨id', hid', hheight, hhash, -⟩ := ht.exists_identity hnew
  rw [hid, some.injEq] at hid'
  subst hid'
  intro hblk
  by_cases hin : s.tree.InTree v.tip
  · obtain ⟨l, hl, pre, heq⟩ := vi.suffix hin
    rw [← heq] at hp
    rcases mem_append.mp hp with hpre | hpl
    · -- an older block: too low
      have hle := vi.height_le_root ht vs heq.symm hl hpre
      obtain ⟨c, l', hc⟩ := exists_cons_of_ne_nil hat.nonempty
      have hpath := hat.path
      rw [hc] at hpath
      have h1 : heightOf s.heap c = heightOf s.heap s.tree.root + 1 :=
        ht.height s.tree.inTree_root hpath.1
      have h2 : heightOf s.heap c ≤ heightOf s.heap job.newRoot :=
        ht.height_le (s.tree.inTree_root.tail hpath.1) hpath.2.reach
      have hle' : heightOf s.heap job.newRoot ≤ heightOf s.heap s.tree.root := by
        rwa [← hblk, hheight] at hle
      omega
    · -- a block of the tree: the same chunk
      obtain ⟨hpin, hptip⟩ := hl.reach_of_mem hpl
      obtain ⟨idp, hidp, -, hhp, -⟩ := ht.exists_identity hpin
      have hb := vi.ident p (heq ▸ mem_append_right _ hpl) idp hidp
      have hsame : job.newRoot = p := ht.distinct hnew hpin (by rw [← hhash, ← hhp, hb, hblk])
      exact hout (hsame ▸ hptip)
  · obtain ⟨q, hq, hblkq⟩ := inv.root_on_path hinj vs vi.low_le hroot hat.path hid ⟨p, hp, hblk⟩
    exact vi.forked hin idRoot hroot q hq hblkq

section

variable {job : RollJob} {before : Disk}

/-- The tree and the base of a system after a commit. -/
structure Committed (s s' : Sys) (job : RollJob) : Prop where
  tree : s'.tree = { s.tree with heap := s.heap.setDisk job.newRoot, root := job.newRoot }
  base : s'.base = s.disk

theorem Committed.inTree_iff (hc : Committed s s' job) :
    s'.tree.InTree x ↔ Reach s.heap.children job.newRoot x := by
  have hkids : (s.heap.setDisk job.newRoot).children = s.heap.children :=
    funext fun _ => children_setDisk
  rw [Tree.InTree, hc.tree]
  show Reach (s.heap.setDisk job.newRoot).children job.newRoot x ↔ _
  rw [hkids]

theorem Committed.path_old (hc : Committed s s' job) (hat : JobAt s.heap s.tree.root job)
    (hl : Path s'.heap.children s'.tree.root l x) :
    Path s.heap.children s.tree.root (job.chain ++ l) x := by
  have hkids : (s.heap.setDisk job.newRoot).children = s.heap.children :=
    funext fun _ => children_setDisk
  rw [show s'.heap = _ from congrArg Tree.heap hc.tree,
    show s'.tree.root = _ from congrArg Tree.root hc.tree, hkids] at hl
  exact hat.path.append hl

theorem source_setDisk_or {h : Heap} {src : Source} (hsrc : (h.setDisk p).source x = some src) :
    h.source x = some src ∨ src = .disk := by
  by_cases hx : x = p
  · subst hx
    obtain ⟨c, hc, rfl⟩ := map_eq_some_iff.mp hsrc
    rw [setDisk, cell_modify_self] at hc
    obtain ⟨c₀, hc₀, rfl⟩ := map_eq_some_iff.mp hc
    exact .inr rfl
  · rw [source_setDisk_of_ne hx] at hsrc
    exact .inl hsrc

theorem Doomed.commit (hd : Doomed s v) (hw : s.phase = .written job before)
    (hat : JobAt s.heap s.tree.root job) (hc : Committed s s' job) : ¬ s'.tree.InTree v.tip := by
  rw [hc.inTree_iff]
  rcases hd with hout | ⟨job', before', hph, hnot⟩
  · exact fun hr => hout (Reach.trans hat.path.reach hr)
  · rw [hw, RollPhase.written.injEq] at hph
    exact hph.1 ▸ hnot

theorem ViewInv.commit (inv : SysInv blocks first s) (hinj : Set.InjOn hash blocks)
    (vs : ViewStatic blocks v path layers blk low) (vi : ViewInv s v path layers blk low)
    (hw : s.phase = .written job before) (hat : JobAt s.heap s.tree.root job)
    (hc : Committed s s' job) : ViewInv s' v path layers blk low := by
  have ht := inv.run.tree
  have hnew : s.tree.InTree job.newRoot := hat.path.reach
  have hheap : s'.heap = s.heap.setDisk job.newRoot := congrArg Tree.heap hc.tree
  have hroot : s'.tree.root = job.newRoot := congrArg Tree.root hc.tree
  have hident : ∀ x, identityOf s'.heap x = identityOf s.heap x := by
    intro x
    rw [hheap, identityOf, origin_setDisk, identityOf]
  have hheight : ∀ x, heightOf s'.heap x = heightOf s.heap x := by
    intro x
    rw [hheap, heightOf, origin_setDisk, heightOf]
  refine
    { settled := ?_, layer := ?_, ident := ?_, link := ?_, oldest := ?_, suffix := ?_
      low_le := ?_, forked := ?_, good := ?_, epoch := ?_ }
  · intro p hp
    rw [hheap]
    refine ⟨(vi.settled p hp).1, ?_⟩
    rw [writable, body_setDisk]
    exact (vi.settled p hp).2
  · intro p hp c' hc'
    have hbody : s.heap.body p = some c'.body := by
      rw [← body_setDisk, ← hheap, body, hc']
      rfl
    obtain ⟨c, hcell, hb⟩ := map_eq_some_iff.mp hbody
    rw [← hb, vi.layer p hp c hcell]
  · intro p hp identity hid
    exact vi.ident p hp identity ((hident p).symm.trans hid)
  · intro pre a b post heq src hsrc
    rw [hheap] at hsrc
    rcases source_setDisk_or hsrc with hsrc | rfl
    · exact vi.link heq src hsrc
    · exact .inr rfl
  · intro a post heq src hsrc
    rw [hheap] at hsrc
    rcases source_setDisk_or hsrc with hsrc | rfl
    · exact vi.oldest heq src hsrc
    · rfl
  · intro hin
    obtain ⟨l, hl⟩ := hin.exists_path
    obtain ⟨l₀, hl₀, hsuf⟩ := vi.suffix (hc.path_old hat hl).reach
    refine ⟨l, hl, ?_⟩
    rw [ht.isTree.path_unique s.tree.inTree_root hl₀ (hc.path_old hat hl)] at hsuf
    exact (suffix_append _ _).trans hsuf
  · rw [hroot, hheight]
    exact vi.low_le.trans (ht.height_le s.tree.inTree_root hnew)
  · intro hout identity hid p hp
    rw [hroot, hident] at hid
    exact vi.forked_commit inv hinj vs hat (fun hr => hout (hc.inTree_iff.mpr hr)) hid hp
  · intro hgood k hk
    have hold : ¬ Doomed s v := fun hd => hgood (.inl (hd.commit hw hat hc))
    have hphase := inv.phase
    rw [PhaseInv, hw] at hphase
    have honDisk := inv.onDisk
    rw [base, hw] at honDisk
    have hreads := ht.readsFrom hnew ((not_doomed_iff.mp hold).2 job before hw)
    rw [vi.good hold k hk, hc.base, hheap, base, hw, hphase.2]
    refine (hreads.getState_congr (fun p hp => cell_setDisk_of_ne hp) ?_).symm
    rw [ht.getState_promoted hat hk, ht.getState_newRoot honDisk hat hk]
  · intro e he
    obtain ⟨hlt, m, hm, hh, hzero⟩ := vi.epoch e he
    have hhead : s'.tree.head = s.tree.head := by rw [hc.tree]
    have hepoch : s'.tree.epoch = s.tree.epoch := by rw [hc.tree]
    rw [hhead, hepoch, hheight]
    exact ⟨hlt, m, hm, hh, hzero⟩

theorem ReadInv.commit (ri : ReadInv s v path layers) (hw : s.phase = .written job before)
    (hat : JobAt s.heap s.tree.root job) (hc : Committed s s' job) :
    ReadInv s' v path layers where
  obtained := ri.obtained.imp_left fun hd => .inl (hd.commit hw hat hc)
  flag hf := (ri.flag hf).imp_left fun hout => Doomed.commit (.inl hout) hw hat hc
  busy := ri.busy
  atLayer := ri.atLayer
  atDisk hr _ hl y hy := ri.atDisk hr (hc.path_old hat hl) y (mem_append_right _ hy)

end

/-- **A step of the system keeps every view.** -/
theorem view_sysStep (inv : SysInv blocks first s) (hinj : Set.InjOn hash blocks)
    (vs : ViewStatic blocks v path layers blk low) (vi : ViewInv s v path layers blk low)
    (ri : ReadInv s v path layers) (hs : SysStep blocks s s') :
    ViewInv s' v path layers blk low ∧ ReadInv s' v path layers := by
  have inv' := sysInv_step inv hs
  have hquiet : s.phase = .idle ∨ (∃ job, s.phase = .begun job) ∨
      (∃ job, s.phase = .validated job) ∨ s.phase = .committed →
      ∀ job before, s.phase ≠ .written job before := by
    rintro h job before hph
    rw [hph] at h
    rcases h with h | ⟨_, h⟩ | ⟨_, h⟩ | h <;> cases h
  cases hs with
  | @block run hop =>
    have g := hop.grows inv.run
    exact ⟨vi.grows inv inv' g vs, ri.grows inv' g vs vi⟩
  | beginRoll idle known =>
    have hph := hquiet (.inl idle)
    exact ⟨vi.phase rfl (by rw [base, base, idle]) hph, ri.phase rfl hph⟩
  | validate begun ok | refuse begun err =>
    have hph := hquiet (.inr (.inl ⟨_, begun⟩))
    exact ⟨vi.phase rfl (by rw [base, base, begun]) hph, ri.phase rfl hph⟩
  | write validated =>
    have hph := hquiet (.inr (.inr (.inl ⟨_, validated⟩)))
    exact ⟨vi.phase rfl (by rw [base, base, validated]) hph, ri.phase rfl hph⟩
  | @commit job before written =>
    have hphase := inv.phase
    rw [PhaseInv, written] at hphase
    obtain ⟨js, hjs⟩ := head?_eq_some_iff.mp hphase.1
    have hp := inv.run.pending
    rw [hjs] at hp
    have hok : (s.tree.commitRoll job).1.isOk = true := by
      rw [(inv.run.commitRoll_head hphase.1).2]
      rfl
    have hc : Committed s { s with
        run := s.run.committed job
        phase := if (s.tree.commitRoll job).1.isOk then .committed else .failed } job :=
      ⟨inv.run.committed_tree hphase.1, by rw [base, hok]; rfl⟩
    exact ⟨vi.commit inv hinj vs written hp.1 hc, ri.commit written hp.1 hc⟩
  | finish committed =>
    have hph := hquiet (.inr (.inr (.inr committed)))
    exact ⟨vi.phase rfl (by rw [base, base, committed]) hph, ri.phase rfl hph⟩

/-! ## Steps of a reader -/

theorem ViewStatic.readerStep (vs : ViewStatic blocks v path layers blk low)
    (hs : ReaderStep s v v') : ViewStatic blocks v' path layers blk low := by
  cases hs <;> exact { vs with }

theorem ViewInv.readerStep (vi : ViewInv s v path layers blk low) (hs : ReaderStep s v v') :
    ViewInv s v' path layers blk low := by
  cases hs <;> exact { vi with }

namespace ViewInv

variable (vi : ViewInv s v path layers blk low) (ht : TreeInv s.tree)
include vi ht

theorem layer_eq (hp : p ∈ path) (hin : s.tree.InTree p) : s.heap.layer p = layers p := by
  obtain ⟨c, hc⟩ := isSome_iff_exists.mp (ht.isSome_cell hin)
  rw [← vi.layer p hp c hc, Heap.layer, Heap.body, hc]
  rfl

theorem suffix_of_path (hl : Path s.heap.children s.tree.root l v.tip) : l <:+ path := by
  obtain ⟨l₀, hl₀, hsuf⟩ := vi.suffix hl.reach
  rwa [ht.isTree.path_unique s.tree.inTree_root hl₀ hl] at hsuf

theorem below_disk {pre post : List ℕ} (heq : path = pre ++ p :: post)
    (hsrc : s.heap.source p = some .disk) (hl : Path s.heap.children s.tree.root l v.tip) :
    l <:+ post := by
  have hnot : p ∉ l := by
    intro hpl
    obtain ⟨q, hq, hpq⟩ := hl.exists_parent hpl
    have hqin : s.tree.InTree q := by
      rcases mem_cons.mp hq with rfl | hq
      · exact s.tree.inTree_root
      · exact (hl.reach_of_mem hq).1
    rw [ht.source hqin hpq] at hsrc
    cases hsrc
  have h1 : l <:+ pre ++ p :: post := heq ▸ vi.suffix_of_path ht hl
  rcases suffix_or_suffix_of_suffix h1 (suffix_append pre (p :: post)) with h | h
  · rcases suffix_cons_iff.mp h with rfl | h
    · exact absurd mem_cons_self hnot
    · exact h
  · exact absurd (h.subset mem_cons_self) hnot

end ViewInv

theorem ViewInv.disk_faithful (inv : SysInv blocks first s) (vi : ViewInv s v path layers blk low)
    (hgood : ¬ Doomed s v) (hk : ¬ IsRootMarker k)
    (hmiss : ∀ {l}, Path s.heap.children s.tree.root l v.tip → ∀ y ∈ l, layers y k = none) :
    v.atCapture k = some (s.disk k) := by
  have ht := inv.run.tree
  obtain ⟨hin, hbelow⟩ := not_doomed_iff.mp hgood
  obtain ⟨l, hl⟩ := hin.exists_path
  have hlayer : ∀ y ∈ l, s.heap.layer y k = none := by
    intro y hy
    rw [vi.layer_eq ht ((vi.suffix_of_path ht hl).subset hy) (hl.reach_of_mem hy).1]
    exact hmiss hl y hy
  have hbase : s.disk k = s.base k := by
    cases hph : s.phase with
    | written job before =>
      have hphase := inv.phase
      rw [PhaseInv, hph] at hphase
      obtain ⟨js, hjs⟩ := head?_eq_some_iff.mp hphase.1
      have hp := inv.run.pending
      rw [hjs] at hp
      obtain ⟨l', hl'⟩ := (hbelow job before hph).exists_path
      have heq := ht.isTree.path_unique s.tree.inTree_root hl (hp.1.path.append hl')
      rw [base, hph, hphase.2, Disk.write, apply_of_none]
      rw [rootBatch_apply hk, chainBatch_eq_none]
      intro c hc
      rw [ht.layer_frozen (hp.1.path.reach_of_mem hc).1,
        hlayer c (heq ▸ mem_append_left _ hc)]
    | idle | begun _ | validated _ | committed | failed => rw [base, hph]
  rw [vi.good hgood k hk, ht.getState_of_misses s.tree.inTree_root hl hlayer,
    getState_of_disk ht.rootDisk, hbase]
  cases hroot : s.heap.layer s.tree.root k with
  | some val => rw [apply_of_some hroot, inv.onDisk k val hk hroot]
  | none => rw [apply_of_none hroot]

theorem Faithful.snoc (hf : Faithful v) {val : Option Val} {obtained : List (Key × Option Val)}
    (hval : ¬ IsRootMarker k → v.atCapture k = some val) {kv : Key × Option Val}
    (hobt : obtained = v.obtained ++ [(k, val)]) (hkv : kv ∈ obtained)
    (hm : ¬ IsRootMarker kv.1) : v.atCapture kv.1 = some kv.2 := by
  rw [hobt] at hkv
  rcases mem_append.mp hkv with h | h
  · exact hf kv h hm
  · obtain rfl := mem_singleton.mp h
    exact hval hm

/-- **A step of a reader keeps its invariant.** -/
theorem readInv_readerStep (inv : SysInv blocks first s)
    (vs : ViewStatic blocks v path layers blk low) (vi : ViewInv s v path layers blk low)
    (ri : ReadInv s v path layers) (hs : ReaderStep s v v') : ReadInv s v' path layers := by
  have ht := inv.run.tree
  cases hs with
  | startRead k ready =>
    refine ⟨ri.obtained, (fun h => by cases h), fun _ => rfl, ?_, (fun h => by cases h)⟩
    intro k' p hr
    cases hr
    obtain ⟨pre, hpre⟩ := vs.last
    exact ⟨pre, [], hpre, fun y hy => by cases hy⟩
  | @hit k p c val reading cell found =>
    have hflag := ri.busy (by rw [reading]; simp)
    obtain ⟨pre, post, heq, hmiss⟩ := ri.atLayer reading
    have hval : v.atCapture k = some val :=
      vs.newest heq hmiss (vi.layer p (by rw [heq]; simp) c cell ▸ found)
    refine ⟨ri.obtained.imp_right fun hf kv hkv => hf.snoc (fun _ => hval) rfl hkv, fun h => ?_,
      fun h => absurd rfl h, (fun h => by cases h), (fun h => by cases h)⟩
    exact absurd (hflag.symm.trans h) (by decide)
  | @toParent k p q c reading cell missed parent =>
    have hflag := ri.busy (by rw [reading]; simp)
    obtain ⟨pre, post, heq, hmiss⟩ := ri.atLayer reading
    have hsrc := (parent_eq_some.mp parent).1
    refine ⟨ri.obtained, fun h => absurd (hflag.symm.trans h) (by decide), fun _ => hflag, ?_,
      (fun h => by cases h)⟩
    intro k' p' hr
    cases hr
    rcases eq_nil_or_concat pre with rfl | ⟨pre, a, rfl⟩
    · exact absurd (vi.oldest heq _ hsrc) (by simp)
    · have heq' : path = pre ++ a :: p :: post := by simpa using heq
      have hlink := vi.link heq' _ hsrc
      simp only [Source.parent.injEq, reduceCtorEq, or_false] at hlink
      subst hlink
      refine ⟨pre, p :: post, heq', fun y hy => ?_⟩
      rcases mem_cons.mp hy with rfl | hy
      · rw [← vi.layer y (by rw [heq]; simp) c cell]
        exact missed
      · exact hmiss y hy
  | @toDisk k p c reading cell missed source =>
    have hflag := ri.busy (by rw [reading]; simp)
    obtain ⟨pre, post, heq, hmiss⟩ := ri.atLayer reading
    refine ⟨ri.obtained, fun h => absurd (hflag.symm.trans h) (by decide), fun _ => hflag,
      (fun h => by cases h), ?_⟩
    intro k' hr l hl y hy
    cases hr
    have hsrc : s.heap.source p = some .disk := by rw [Heap.source, cell, map_some, source]
    exact hmiss y ((vi.below_disk ht heq hsrc hl).subset hy)
  | @readDisk k reading =>
    have hflag := ri.busy (by rw [reading]; simp)
    refine ⟨?_, fun h => absurd (hflag.symm.trans h) (by decide), fun h => absurd rfl h,
      (fun h => by cases h), (fun h => by cases h)⟩
    by_cases hd : Doomed s v
    · exact .inl hd
    · right
      intro kv hkv
      exact (ri.obtained.resolve_left hd).snoc
        (fun hk => vi.disk_faithful inv hd hk (ri.atDisk reading)) rfl hkv
  | loadFlag ready available =>
    refine ⟨ri.obtained, fun _ => ?_, fun h => absurd ready h, ri.atLayer, ri.atDisk⟩
    refine ri.obtained.imp_left fun hd => hd.out fun job before hph => ?_
    rw [inv.flag available] at hph
    cases hph

/-! ## Runs -/

/-- The invariant of the system with its reader. -/
def ReadSysInv (blocks : Set Block) (sv : Sys × Option View) : Prop :=
  ∃ first, SysInv blocks first sv.1 ∧ ∀ v, sv.2 = some v → ∃ path layers blk low,
    ViewStatic blocks v path layers blk low ∧ ViewInv sv.1 v path layers blk low ∧
      ReadInv sv.1 v path layers

/-- **Every step of the system or of a reader keeps the invariant.** -/
theorem readSysInv_step (hinj : Set.InjOn hash blocks) {a b : Sys × Option View}
    (inv : ReadSysInv blocks a) (hs : ReadStep blocks a b) : ReadSysInv blocks b := by
  obtain ⟨first, inv, hview⟩ := inv
  cases hs with
  | sys h =>
    refine ⟨first, sysInv_step inv h, fun v hv => ?_⟩
    obtain ⟨path, layers, blk, low, vs, vi, ri⟩ := hview v hv
    exact ⟨path, layers, blk, low, vs, view_sysStep inv hinj vs vi ri h⟩
  | captureHead =>
    refine ⟨first, inv, fun v hv => ?_⟩
    cases hv
    refine inv.captured inv.run.tree.inTree_head fun e he => ?_
    cases he
    exact ⟨rfl, rfl⟩
  | captureAt found =>
    refine ⟨first, inv, fun v hv => ?_⟩
    cases hv
    exact inv.captured (inv.run.tree.find_eq_some found).1 fun e he => by cases he
  | reader h =>
    refine ⟨first, inv, fun v hv => ?_⟩
    cases hv
    obtain ⟨path, layers, blk, low, vs, vi, ri⟩ := hview _ rfl
    exact ⟨path, layers, blk, low, vs.readerStep h, vi.readerStep h,
      readInv_readerStep inv vs vi ri h⟩

theorem readSysInv_of_reachable (hinj : Set.InjOn hash blocks)
    (hs : ReadReachable blocks s v) : ReadSysInv blocks (s, some v) := by
  obtain ⟨t, rootBlock, disk, hroot, hrun⟩ := hs
  generalize (s, some v) = sv at hrun ⊢
  induction hrun with
  | refl => exact ⟨_, sysInv_init hroot, fun v hv => by cases hv⟩
  | tail _ hstep ih => exact readSysInv_step hinj ih hstep

/-- The epoch of a canonical capture pins the head: each move of the head is at least one block up.
-/
theorem ViewInv.head_of_epoch (inv : SysInv blocks first s)
    (vi : ViewInv s v path layers blk low) (he : v.epoch = some s.tree.epoch) :
    s.tree.head = v.tip := by
  obtain ⟨hlt, m, hm, hheight, hzero⟩ := vi.epoch _ he
  refine hzero ?_
  obtain ⟨_, -, -, -, ho⟩ := inv.run.tree.exists_identity inv.run.tree.inTree_head
  have hmax : heightOf s.heap s.tree.head < u64Max := heightOf_lt ho
  rw [u64Max] at hmax
  omega

/-- A tip whose hash the tree contains is in the tree. -/
theorem ViewInv.inTree_of_find (inv : SysInv blocks first s)
    (hinj : Set.InjOn hash blocks) (vs : ViewStatic blocks v path layers blk low)
    (vi : ViewInv s v path layers blk low) (hfind : (s.tree.find v.tipHash).isSome) :
    s.tree.InTree v.tip := by
  by_contra hout
  have ht := inv.run.tree
  obtain ⟨y, hy⟩ := isSome_iff_exists.mp hfind
  obtain ⟨hyin, hyhash⟩ := ht.find_eq_some hy
  obtain ⟨idy, hidy, -, hhash, ho⟩ := ht.exists_identity hyin
  obtain ⟨idRoot, hroot, -, -, -⟩ := ht.exists_identity s.tree.inTree_root
  have hblk : idy.block = blk v.tip := by
    refine hinj (inv.info _ _ _ (inv.first_le.trans hyin.root_le) ho).1
      (vs.known _ vs.tip_mem) ?_
    rw [hhash, vs.tipHash]
    exact hyhash
  obtain ⟨l, hl⟩ := hyin.exists_path
  obtain ⟨q, hq, hbq⟩ :=
    inv.root_on_path hinj vs vi.low_le hroot hl hidy ⟨v.tip, vs.tip_mem, hblk⟩
  exact vi.forked hout idRoot hroot q hq hbq

/-- **Optimistic reads are sound.** In every interleaving of a reader with execution, attaches and
root rolls: if validation returns true after the last read, every value obtained, of any key but
the root markers, is the value in the captured tip's state at capture. A block is identified by
its hash. -/
theorem optimistic_read_sound (hinj : Set.InjOn hash blocks)
    (hs : ReadReachable blocks s v)
    (hvalid : v.validOptimistic s = true ∨ v.validStateView s = true) :
    ∀ kv ∈ v.obtained, ¬ IsRootMarker kv.1 → v.atCapture kv.1 = some kv.2 := by
  obtain ⟨first, inv, hview⟩ := readSysInv_of_reachable hinj hs
  obtain ⟨path, layers, blk, low, vs, vi, ri⟩ := hview v rfl
  have hflag : v.flagSeen = true ∧ s.tree.InTree v.tip := by
    rcases hvalid with h | h
    · rw [View.validOptimistic, Bool.and_eq_true, decide_eq_true_eq] at h
      exact ⟨h.1, vi.head_of_epoch inv h.2 ▸ inv.run.tree.inTree_head⟩
    · rw [View.validStateView, Bool.and_eq_true] at h
      exact ⟨h.1, vi.inTree_of_find inv hinj vs h.2⟩
  exact (ri.flag hflag.1).resolve_left (not_not.mpr hflag.2)

/-- The system at `writtenRun`. -/
def sampleSys : Sys := ⟨writtenRun, sampleDisk, true, .idle⟩

/-- The same system after the root roll of `writtenJob`. -/
def sampleRolled : Sys where
  run := writtenRun.committed writtenJob
  disk := sampleDisk.write (rootBatch writtenRun.tree.heap writtenJob)
  available := true
  phase := .idle

/-- A view captured before the roll that has read `keys` from the disk after it. -/
def sampleView (keys : List Key) : View :=
  { sampleSys.capture sampleSys.tree.head (some sampleSys.tree.epoch) with
    obtained := keys.map fun k => (k, sampleRolled.disk k) }

/-- The blocks of the sample. -/
def sampleBlocks : Set Block := {sampleRoot, sampleChild, sampleGrandchild}

theorem sampleBlocks_injOn : Set.InjOn hash sampleBlocks := by
  rintro a (rfl | rfl | rfl) b (rfl | rfl | rfl) h
  all_goals first | rfl | exact absurd h (by decide)

theorem sampleSys_reached :
    ReflTransGen (SysStep sampleBlocks) (init (new .empty sampleRoot) sampleRoot sampleDisk)
      sampleSys := by
  have hrun : ReflTransGen (BlockOp sampleBlocks)
      ⟨(new .empty sampleRoot).resetRoot sampleRoot, [], []⟩ writtenRun := by
    refine writtenRun_reached (fun hblock ok => .beginBlock (.inr hblock) ok)
      (fun {r p body} step => .exec step fun q c hc hnone => ?_) (fun ok => .attachLinear ok)
    -- a write opens no chunk
    have horigin : (r.tree.heap.setBody p body).origin q = r.tree.heap.origin q := origin_setBody
    rw [origin, origin, hc, hnone] at horigin
    cases horigin
  exact hrun.lift (Sys.mk · sampleDisk true .idle) fun _ _ h => .block h

theorem sampleRolled_reached : ReflTransGen (SysStep sampleBlocks) sampleSys sampleRolled := by
  have hplanned : writtenJob ∈ sampleSys.run.planned := by decide
  have hvalid : sampleSys.tree.validateRoll writtenJob = .ok () := by decide
  exact .tail (.tail (.tail (.tail (.single (.beginRoll rfl hplanned)) (.validate rfl hvalid))
    (.write rfl)) (.commit rfl)) (.finish rfl)

theorem sampleView_reached (keys : List Key) :
    ReflTransGen (ReadStep sampleBlocks)
      (init (new .empty sampleRoot) sampleRoot sampleDisk, none)
      (sampleRolled, some (sampleView keys)) := by
  induction keys using reverseRecOn with
  | nil =>
    have hbefore := sampleSys_reached.lift (Prod.mk · (none : Option View))
      fun _ _ h => ReadStep.sys h
    exact (hbefore.tail .captureHead).trans
      (sampleRolled_reached.lift (Prod.mk · (some (sampleView []))) fun _ _ h => .sys h)
  | append_singleton keys k ih =>
    -- the tip is the new root, and its block has written nothing
    have hsource : sampleRolled.heap.source 3 = some .disk := by decide
    have hlayer : sampleRolled.heap.layer 3 = Overlay.empty := rfl
    obtain ⟨c, hc, hsrc⟩ := map_eq_some_iff.mp hsource
    rw [layer, body, hc] at hlayer
    have hread := ((ih.tail (.reader (.startRead k rfl))).tail
      (.reader (.toDisk rfl hc (congrFun hlayer k) hsrc))).tail (.reader (.readDisk rfl))
    rw [sampleView, map_append]
    exact hread

/-- A reader captures the head, and reaches the disk only after a root roll has gone by. -/
theorem readReachable_sampleView (keys : List Key) :
    ReadReachable sampleBlocks sampleRolled { sampleView keys with flagSeen := true } :=
  ⟨_, sampleRoot, sampleDisk, .inl rfl,
    (sampleView_reached keys).tail (.reader (.loadFlag rfl rfl))⟩

/-- A key the rolled chain put and one it deleted, both read from the disk after the roll. -/
theorem optimistic_read_sound_sampleView :
    let v := { sampleView [[1], [2]] with flagSeen := true }
    v.validOptimistic sampleRolled = true ∧ v.obtained = [([1], some [7]), ([2], none)] ∧
      v.atCapture [1] = some (some [7]) ∧ v.atCapture [2] = some none := by
  intro v
  have hvalid : v.validOptimistic sampleRolled = true := by decide
  have hobtained : v.obtained = [([1], some [7]), ([2], none)] := by decide
  have hsound := optimistic_read_sound sampleBlocks_injOn
    (readReachable_sampleView [[1], [2]]) (.inl hvalid)
  exact ⟨hvalid, hobtained, hsound ([1], some [7]) (by rw [hobtained]; simp) (by decide),
    hsound ([2], none) (by rw [hobtained]; simp) (by decide)⟩

/-- A root marker is the exception: the roll writes it, and both validations pass. -/
theorem optimistic_read_of_marker :
    let v := { sampleView [persistKeyRootHeight] with flagSeen := true }
    ReadReachable sampleBlocks sampleRolled v ∧
      v.validOptimistic sampleRolled = true ∧ v.validStateView sampleRolled = true ∧
      v.atCapture persistKeyRootHeight = some none ∧
      v.obtained = [(persistKeyRootHeight, some [0, 0, 0, 0, 0, 0, 0, 2])] :=
  ⟨readReachable_sampleView _, by decide, by decide, by decide, by decide⟩

end Hacash
