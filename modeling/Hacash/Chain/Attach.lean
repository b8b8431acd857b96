import Hacash.Chain.TreeInv

/-!
# Attaching blocks

What a successful `attach`, `attach_linear` or `attach_side` has checked and done, and that the
result is a fork tree again (`TreeInv.link`, `TreeInv.moveHead`).
-/

namespace Hacash

open Lib List Hacash.Tree Heap

variable {t t' : Tree} {h h' : Heap} {p q par child parent chunk window : ℕ}

/-! ## Linking a chunk in -/

namespace Linked

variable (l : Linked h h' par child)
include l

theorem heightOf_eq (q : ℕ) : heightOf h' q = heightOf h q := by
  unfold heightOf
  rw [l.origin_eq]

theorem identityOf_eq (q : ℕ) : identityOf h' q = identityOf h q := by
  unfold identityOf
  rw [l.origin_eq]

theorem hashOf_eq (q : ℕ) : hashOf h' q = hashOf h q := by
  unfold hashOf
  rw [l.identityOf_eq]

theorem forkKeyOf_eq (q : ℕ) : forkKeyOf h' q = forkKeyOf h q := by
  unfold forkKeyOf
  rw [l.identityOf_eq]

theorem parent_eq (q : ℕ) : h'.parent q = h.parent q := parent_congr l.source_eq

theorem climb_eq (target : ℕ) : ∀ (n : ℕ) (acc : List ℕ) (q : ℕ),
    climb h' target n acc q = climb h target n acc q
  | 0, _, _ => rfl
  | n + 1, acc, q => by
    rw [climb, climb, l.heightOf_eq, l.parent_eq]
    cases h.parent q with
    | none => rfl
    | some r => simp only [climb_eq target n]

/-- The new edge and no other. -/
theorem mem_children {a c : ℕ} : c ∈ h'.children a ↔ c ∈ h.children a ∨ (a = par ∧ c = child) := by
  by_cases ha : a = par
  · subst ha
    rw [l.children_self, mem_append, mem_singleton]
    simp
  · rw [l.children_ne ha]
    simp [ha]

theorem par_lt : par < child := (h.parent_lt l.parent).1

end Linked

/-! ## The checks -/

/-- What `checkLink` has established. -/
structure LinkChecked (t : Tree) (linear : Bool) (parentHash hash : Hash)
    (height chunk parent : ℕ) : Prop where
  find : t.find parentHash = some parent
  height : height = heightOf t.heap parent + 1
  new : t.find hash = none
  onHead : linear = true → parent = t.head
  parent : t.heap.parent chunk = some parent

variable {linear : Bool} {parentHash : Hash} {height : ℕ} {identity : BlockIdentity}

theorem checkLink_ok {side : Bool} {hash : Hash}
    (hs : t.checkLink side linear parentHash hash height chunk = .ok parent) :
    LinkChecked t linear parentHash hash height chunk parent := by
  unfold checkLink at hs
  split at hs
  · cases hs
  next q hq =>
    split_ifs at hs with h1 h2 h3
    split at hs
    · cases hs
    next r hr =>
      split_ifs at hs with h4
      cases hs
      exact
        { find := hq
          height := not_not.mp h1
          new := Option.not_isSome_iff_eq_none.mp h2
          onHead := fun hl => by simpa [hl] using h3
          parent := (not_not.mp h4) ▸ hr }

theorem liftChunk_ok {α : Type} {x : Except ChunkError α} {a : α}
    (hs : liftChunk x = .ok a) : x = .ok a := by
  cases x with
  | ok b =>
    cases hs
    rfl
  | error e => cases hs

theorem blockHeight_ok (hs : liftChunk (h.blockHeight p) = .ok height) : heightOf h p = height := by
  unfold blockHeight at hs
  unfold heightOf
  cases ho : (h.origin p).bind Origin.blockHeight with
  | none =>
    rw [ho] at hs
    cases hs
  | some n =>
    rw [ho] at hs
    cases hs
    rfl

theorem blockIdentity_ok
    (hs : liftChunk (h.blockIdentity p) = .ok identity) : identityOf h p = some identity := by
  unfold blockIdentity at hs
  unfold identityOf
  cases ho : (h.origin p).bind Origin.blockIdentity with
  | none =>
    rw [ho] at hs
    cases hs
  | some n =>
    rw [ho] at hs
    cases hs
    rfl

theorem hashOf_of_identityOf (hi : identityOf h p = some identity) :
    hashOf h p = identity.hash := by
  simp [hashOf, hi]

theorem forkKeyOf_of_identityOf
    (hi : identityOf h p = some identity) : forkKeyOf h p = identity.forkChoice := by
  simp [forkKeyOf, hi]

/-! ## The tree after linking -/

section

variable (inv : TreeInv t)
include inv

section

variable (l : Linked t.heap h' par child) (hpar : t.InTree par)
include l hpar

/-- A chunk that can be linked retains nothing. -/
theorem TreeInv.children_linked : t.heap.children child = [] := by
  obtain ⟨δ, hδ, -⟩ := l.froze
  refine inv.leaf ((hpar.root_le).trans l.par_lt.le) (δ := δ) ?_
  rw [writable, hδ]
  rfl

/-- Linking `child` adds it and nothing else. -/
theorem TreeInv.reach_link {x y : ℕ} : Reach h'.children x y ↔
      Reach t.heap.children x y ∨ (Reach t.heap.children x par ∧ y = child) := by
  refine reach_addLeaf ?_ fun a c => l.mem_children
  rw [l.children_ne l.par_lt.ne', inv.children_linked l hpar]

/-- **A linked block makes a fork tree again.** -/
theorem TreeInv.link (hheight : heightOf t.heap child = heightOf t.heap par + 1)
    (hnew : ∀ p, t.InTree p → hashOf t.heap p ≠ hashOf t.heap child) :
    TreeInv { t with heap := h' } := by
  have hout : ¬ t.InTree child := fun hin => hnew child hin rfl
  have hmem : ∀ {p}, ({ t with heap := h' } : Tree).InTree p → t.InTree p ∨ p = child := by
    intro p hp
    exact ((inv.reach_link l hpar).mp hp).imp_right And.right
  have hmono : ∀ {x y}, Reach t.heap.children x y → Reach h'.children x y :=
    fun hxy => (inv.reach_link l hpar).mpr (Or.inl hxy)
  -- an edge of the new tree is the new one or leaves an old node
  have hedge : ∀ {p q}, ({ t with heap := h' } : Tree).InTree p → q ∈ h'.children p →
      (t.InTree p ∧ q ∈ t.heap.children p) ∨ (p = par ∧ q = child) := by
    intro p q hp hq
    rcases l.mem_children.mp hq with hq | hq
    · rcases hmem hp with hp | rfl
      · exact Or.inl ⟨hp, hq⟩
      · rw [inv.children_linked l hpar] at hq
        cases hq
    · exact Or.inr hq
  refine
    { attached := ?_, source := ?_, height := ?_, nodup := ?_, distinct := ?_,
      rootDisk := ?_, scheduled := hmono inv.scheduled, head := hmono inv.head, leaf := ?_ }
  · intro p hp
    rcases hmem hp with hp | rfl
    · obtain ⟨height, identity, δ, ho, hb⟩ := inv.attached hp
      have hne : p ≠ child := fun e => hout (e ▸ hp)
      exact ⟨height, identity, δ, (l.origin_eq p).trans ho, (l.body_ne hne).trans hb⟩
    · obtain ⟨δ, -, hδ⟩ := l.froze
      obtain ⟨height, identity, ho⟩ := l.identified
      exact ⟨height, identity, δ, (l.origin_eq p).trans ho, hδ⟩
  · intro p q hp hq
    rw [l.source_eq]
    rcases hedge hp hq with ⟨hp, hq⟩ | ⟨rfl, rfl⟩
    · exact inv.source hp hq
    · exact (parent_eq_some.mp l.parent).1
  · intro p q hp hq
    rw [l.heightOf_eq, l.heightOf_eq]
    rcases hedge hp hq with ⟨hp, hq⟩ | ⟨rfl, rfl⟩
    · exact inv.height hp hq
    · exact hheight
  · intro p hp
    show (h'.children p).Nodup
    by_cases hpp : p = par
    · subst hpp
      rw [l.children_self]
      refine List.Nodup.append (inv.nodup hpar) (nodup_singleton _) ?_
      intro x hx hx'
      rw [mem_singleton] at hx'
      exact hout (hpar.tail (hx' ▸ hx))
    · rw [l.children_ne hpp]
      rcases hmem hp with hp | rfl
      · exact inv.nodup hp
      · rw [inv.children_linked l hpar]
        exact nodup_nil
  · intro p q hp hq heq
    rw [l.hashOf_eq, l.hashOf_eq] at heq
    rcases hmem hp with hp | rfl <;> rcases hmem hq with hq | rfl
    · exact inv.distinct hp hq heq
    · exact absurd heq (hnew p hp)
    · exact absurd heq.symm (hnew q hq)
    · rfl
  · exact (l.source_eq _).trans inv.rootDisk
  · intro p δ hp hw
    have hne : p ≠ child := by
      rintro rfl
      obtain ⟨δ', -, hδ'⟩ := l.froze
      simp only [writable, hδ', Option.bind_some] at hw
      cases hw
    have hw' : t.heap.writable p = some δ := by
      simpa only [writable, l.body_ne hne] using hw
    have hne' : p ≠ par := by
      rintro rfl
      obtain ⟨_, _, δ', -, hb⟩ := inv.attached hpar
      simp only [writable, hb, Option.bind_some] at hw'
      cases hw'
    exact (l.children_ne hne').trans (inv.leaf hp hw')

/-- The linked block belongs to the tree. -/
theorem TreeInv.inTree_link : ({ t with heap := h' } : Tree).InTree child :=
  (inv.reach_link l hpar).mpr (Or.inr ⟨hpar, rfl⟩)

end

theorem TreeInv.moveHead {s e : ℕ} (hs : t.InTree s) (hp : Reach t.heap.children s p) :
    TreeInv { t with head := p, scheduledRoot := s, epoch := e } :=
  { attached := inv.attached, source := inv.source, height := inv.height
    nodup := inv.nodup, distinct := inv.distinct, rootDisk := inv.rootDisk
    scheduled := hs, head := hp, leaf := inv.leaf }

theorem TreeInv.durable : TreeInv t.durable := inv.moveHead t.inTree_root inv.inTree_head

/-! ## Planning -/

/-- `job` moves the root from `r` down a path of the tree. -/
structure JobAt (h : Heap) (r : ℕ) (job : RollJob) : Prop where
  hash : job.expectedRootHash = hashOf h r
  height : job.expectedRootHeight = heightOf h r
  nonempty : job.chain ≠ []
  path : Path h.children r job.chain job.newRoot

/-- **A planned job starts at the scheduled root and stays below the new head.** -/
theorem TreeInv.planRollFrom_ok {n : ℕ} {job : RollJob} (hp : t.InTree p)
    (hn : n ≤ heightOf t.heap p) (hj : t.planRollFrom p n = .ok job) :
    JobAt t.heap t.scheduledRoot job ∧ Reach t.heap.children job.newRoot p ∧
      heightOf t.heap job.newRoot = n := by
  have hsched := inv.height_le t.inTree_root inv.scheduled
  unfold planRollFrom at hj
  dsimp only at hj
  split_ifs at hj with hadv
  obtain ⟨l, a, ha, hap, hclimb, hha⟩ :=
    inv.climb_to hp (hsched.trans (not_le.mp hadv).le) (Nat.lt_succ_self p)
  rw [hclimb] at hj
  obtain ⟨l', b, hb, hba, hclimb', hhb⟩ :=
    inv.climb_to ha hsched (Nat.lt_succ_self a)
  dsimp only at hj
  rw [hclimb'] at hj
  dsimp only at hj
  split_ifs at hj with heq
  cases hj
  obtain rfl := not_not.mp heq
  have hha' : heightOf t.heap a = n := by omega
  refine ⟨⟨rfl, rfl, ?_, hba⟩, hap.reach, hha'⟩
  rintro rfl
  obtain rfl : _ = a := hba
  omega

end

/-! ## `attach_inner` and `attach_side` -/

theorem Linked.planRollFrom_eq (l : Linked t.heap h' par child) (p n : ℕ) :
    ({ t with heap := h' } : Tree).planRollFrom p n = t.planRollFrom p n := by
  simp only [planRollFrom, l.heightOf_eq, l.hashOf_eq, l.climb_eq]

/-- The last step of `attach_inner`: the cursors stay, the head moves, or the scheduled root too. -/
inductive Published (t : Tree) (heap : Heap) (parent chunk window : ℕ) (linear : Bool) :
    Inserted → Tree → Prop
  | side (key : ¬ forkKeyOf t.heap t.head < forkKeyOf t.heap chunk) (strict : linear = false) :
      Published t heap parent chunk window linear
        { isHead := false, reorg := false, roll := none, confirmedTxs := [],
          revertedTxs := [] }
        { t with heap }
  | head {diff : CanonicalTxDiff} (key : forkKeyOf t.heap t.head < forkKeyOf t.heap chunk)
      (within : overWindow linear (heightOf t.heap chunk)
        (heightOf t.heap t.scheduledRoot) window = false)
      (txs : canonicalTxDiff heap t.head chunk = some diff) :
      Published t heap parent chunk window linear
        { isHead := true, reorg := decide (parent ≠ t.head), roll := none,
          confirmedTxs := diff.confirmed, revertedTxs := diff.reverted }
        { t with heap, head := chunk, epoch := (t.epoch + 1) % 2 ^ 64 }
  | roll {diff : CanonicalTxDiff} {job : RollJob}
      (key : forkKeyOf t.heap t.head < forkKeyOf t.heap chunk)
      (isOver : overWindow linear (heightOf t.heap chunk)
        (heightOf t.heap t.scheduledRoot) window = true)
      (txs : canonicalTxDiff heap t.head chunk = some diff)
      (planned : ({ t with heap } : Tree).planRollFrom chunk
        (heightOf t.heap t.scheduledRoot + if linear then window else 1) = .ok job) :
      Published t heap parent chunk window linear
        { isHead := true, reorg := decide (parent ≠ t.head), roll := some job,
          confirmedTxs := diff.confirmed, revertedTxs := diff.reverted }
        { t with
          heap
          head := chunk
          epoch := (t.epoch + 1) % 2 ^ 64
          scheduledRoot := job.newRoot }

/-- What a successful `attach_inner` has checked and done. -/
theorem attachInner_ok {ins : Inserted}
    (hs : t.attachInner parentHash chunk window linear = .ok (ins, t')) :
    ∃ parent heap, LinkChecked t linear parentHash (hashOf t.heap chunk)
        (heightOf t.heap chunk) chunk parent ∧ Linked t.heap heap parent chunk ∧
      Published t heap parent chunk window linear ins t' := by
  unfold attachInner at hs
  obtain ⟨height, hheight, hs⟩ := bind_eq_ok hs
  obtain ⟨identity, hid, hs⟩ := bind_eq_ok hs
  obtain ⟨parent, hlink, hs⟩ := bind_eq_ok hs
  obtain rfl := blockHeight_ok hheight
  have hid' := blockIdentity_ok hid
  rw [← hashOf_of_identityOf hid'] at hlink
  rw [← forkKeyOf_of_identityOf hid'] at hs
  dsimp only at hs
  split_ifs at hs with hlin
  obtain ⟨roll, hroll, hs⟩ := bind_eq_ok hs
  obtain ⟨heap, hheap, hs⟩ := bind_eq_ok hs
  have l := attachBlockChild_ok (liftChunk_ok hheap)
  refine ⟨parent, heap, checkLink_ok hlink, l, ?_⟩
  by_cases hkey : forkKeyOf t.heap t.head < forkKeyOf t.heap chunk
  · simp only [planRoll, hkey, decide_true, Bool.true_and] at hroll
    simp only [publish, hkey, decide_true, Bool.true_and, if_true] at hs
    split at hs
    · cases hs
    next diff hdiff =>
      cases hs
      by_cases hover : overWindow linear (heightOf t.heap chunk)
          (heightOf t.heap t.scheduledRoot) window = true
      · rw [if_pos hover] at hroll
        cases hjob : t.planRollFrom chunk
            (heightOf t.heap t.scheduledRoot + if linear then window else 1) with
        | error e =>
          rw [hjob] at hroll
          cases hroll
        | ok job =>
          rw [hjob] at hroll
          cases hroll
          exact .roll hkey hover hdiff ((l.planRollFrom_eq _ _).trans hjob)
      · rw [if_neg hover] at hroll
        cases hroll
        exact .head hkey (Bool.not_eq_true _ ▸ hover) hdiff
  · have hstrict : linear = false := by
      cases linear with
      | false => rfl
      | true => simp [hkey] at hlin
    simp only [planRoll, hkey, decide_false, Bool.false_and] at hroll
    simp only [publish, hkey, decide_false, Bool.false_and] at hs
    cases hroll
    cases hs
    exact .side hkey hstrict

/-- What a successful `attach_side` has checked and done. -/
theorem attachSide_ok (hs : t.attachSide parentHash chunk = .ok t') :
    ∃ parent heap, LinkChecked t false parentHash (hashOf t.heap chunk)
        (heightOf t.heap chunk) chunk parent ∧
      Linked t.heap heap parent chunk ∧ t' = { t with heap } := by
  unfold attachSide at hs
  obtain ⟨height, hheight, hs⟩ := bind_eq_ok hs
  obtain rfl := blockHeight_ok hheight
  split at hs
  · cases hs
  next identity hid =>
    obtain ⟨parent, hlink, hs⟩ := bind_eq_ok hs
    obtain ⟨heap, hheap, hs⟩ := bind_eq_ok hs
    cases hs
    rw [← hashOf_of_identityOf hid] at hlink
    exact ⟨parent, heap, checkLink_ok hlink, attachBlockChild_ok (liftChunk_ok hheap), rfl⟩

/-! ## The tree after attaching -/

/-- The height of an identified block is a `u64` other than the last. -/
theorem heightOf_lt
    (ho : h.origin p = some (.block height (some identity))) : heightOf h p < u64Max := by
  obtain ⟨c, hc, hco⟩ := Option.map_eq_some_iff.mp ho
  have hproper := h.proper hc
  rw [hco] at hproper
  have hh : heightOf h p = height := by
    rw [heightOf, ho]
    rfl
  rw [hh, ← hproper.2]
  exact identity.block.height_lt

theorem overWindow_le {scheduled : ℕ} (hlt : height < u64Max)
    (hover : overWindow linear height scheduled window = true) :
    scheduled + (if linear then window else 1) ≤ height := by
  cases linear with
  | true =>
    have hle : min (scheduled + window) u64Max ≤ height := of_decide_eq_true hover
    show scheduled + window ≤ height
    omega
  | false =>
    have hlt' : min (scheduled + window) u64Max < height := of_decide_eq_true hover
    show scheduled + 1 ≤ height
    omega

section

variable (inv : TreeInv t)
  (chk : LinkChecked t linear parentHash (hashOf t.heap chunk) (heightOf t.heap chunk) chunk parent)
  (l : Linked t.heap h' parent chunk)
include inv chk l

/-- The part of a `LinkChecked` the tree needs. -/
theorem TreeInv.linkChecked : t.InTree parent ∧ TreeInv { t with heap := h' } := by
  have hpar := (inv.find_eq_some chk.find).1
  exact ⟨hpar, inv.link l hpar chk.height fun p hp => inv.find_eq_none chk.new hp⟩

/-- **Attaching keeps the tree.** A strict attach needs the scheduled root to be durable; a job
planned here starts at the scheduled root and becomes the new one. -/
theorem TreeInv.published {ins : Inserted} (pub : Published t h' parent chunk window linear ins t')
    (strict : linear = false → t.scheduledRoot = t.root) :
    TreeInv t' ∧ t'.heap = h' ∧ t'.root = t.root ∧
      (ins.roll = none ∧ t'.scheduledRoot = t.scheduledRoot ∨
        ∃ job, ins.roll = some job ∧ JobAt h' t.scheduledRoot job ∧
          t'.scheduledRoot = job.newRoot) := by
  obtain ⟨hpar, inv'⟩ := inv.linkChecked chk l
  cases pub with
  | side _ _ => exact ⟨inv', rfl, rfl, Or.inl ⟨rfl, rfl⟩⟩
  | head _ _ _ =>
    refine ⟨inv'.moveHead inv'.scheduled ?_, rfl, rfl, Or.inl ⟨rfl, rfl⟩⟩
    refine (inv.reach_link l hpar).mpr (Or.inr ⟨?_, rfl⟩)
    cases linear with
    | false =>
      rw [strict rfl]
      exact hpar
    | true =>
      rw [chk.onHead rfl]
      exact inv.head
  | roll _ hover _ hjob =>
    have hchunk := inv.inTree_link l hpar
    have hlt : heightOf h' chunk < u64Max := by
      obtain ⟨_, _, _, ho, -⟩ := inv'.attached hchunk
      exact heightOf_lt ho
    rw [l.heightOf_eq] at hlt
    obtain ⟨hat, hreach, -⟩ := inv'.planRollFrom_ok hchunk
      (by rw [l.heightOf_eq]; exact overWindow_le hlt hover) hjob
    refine ⟨inv'.moveHead (inv'.scheduled.trans hat.path.reach) hreach, rfl, rfl, Or.inr ?_⟩
    exact ⟨_, rfl, hat, rfl⟩

end

/-- **Every attach keeps the tree above the durable root**, wherever the scheduled root is: a strict
one may leave the branch of a roll that is planned. -/
theorem TreeInv.published_durable {ins : Inserted} (inv : TreeInv t.durable)
    (chk : LinkChecked t linear parentHash (hashOf t.heap chunk) (heightOf t.heap chunk) chunk
      parent)
    (l : Linked t.heap h' parent chunk) (pub : Published t h' parent chunk window linear ins t') :
    TreeInv t'.durable := by
  have chk' : LinkChecked t.durable linear parentHash (hashOf t.heap chunk)
      (heightOf t.heap chunk) chunk parent :=
    ⟨chk.find, chk.height, chk.new, chk.onHead, chk.parent⟩
  obtain ⟨hpar, inv'⟩ := inv.linkChecked chk' l
  cases pub with
  | side _ _ => exact inv'
  | head _ _ _ | roll _ _ _ _ => exact inv'.moveHead (Tree.inTree_root _) (inv.inTree_link l hpar)

/-- What beginning a block found and did. -/
theorem beginBlockExecution_ok {t : Tree} {block : Block} {key : ForkChoiceKey} {chunk parent : ℕ}
    (ok : t.beginBlockExecution parentHash block key = .ok (some (chunk, parent, h'))) :
    t.find parentHash = some parent ∧ block.height = heightOf t.heap parent + 1 ∧
      block.prevHash = parentHash ∧ t.heap.blockExecOn parent block key = .ok (chunk, h') := by
  unfold beginBlockExecution at ok
  split at ok
  · cases ok
  next q hq =>
    split_ifs at ok with h1 h2
    obtain ⟨⟨c, heap⟩, hexec, ok⟩ := bind_eq_ok ok
    cases ok
    exact ⟨hq, not_not.mp h1, not_not.mp h2, liftChunk_ok hexec⟩

end Hacash
