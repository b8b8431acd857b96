import Hacash.Chain.TreeRun

/-!
# Side capacity

Whole side branches are dropped, in the order of their roots, until the side blocks fit. **Key
result**: `enforceSideCapacity_evicts`.
-/

namespace Hacash

open Lib List Hacash.Tree Reach

variable {t : Tree} {h : Heap} {p q w : ℕ} {removed sides : List ℕ}

/-- Blocks that do not lead to the head. -/
def Tree.sideBlocks (t : Tree) : Set ℕ :=
  { p | t.InTree p ∧ ¬ Reach t.heap.children p t.head }

/-- The side blocks that are left without the branches of `removed`. -/
def Tree.leftBy (t : Tree) (removed : List ℕ) : Set ℕ :=
  { p | p ∈ t.sideBlocks ∧ ∀ w ∈ removed, ¬ Reach t.heap.children w p }

/-- The root of a side branch: a side block on a canonical one. -/
def IsSideRoot (t : Tree) (w : ℕ) : Prop :=
  ∃ p, t.InTree p ∧ Reach t.heap.children p t.head ∧ w ∈ t.heap.children p ∧
    ¬ Reach t.heap.children w t.head

theorem IsSideRoot.inTree (hw : IsSideRoot t w) : t.InTree w := by
  obtain ⟨p, hp, -, hmem, -⟩ := hw
  exact hp.tail hmem

theorem IsSideRoot.ne_root (hw : IsSideRoot t w) (inv : TreeInv t) : w ≠ t.root := by
  obtain ⟨p, -, -, -, hside⟩ := hw
  rintro rfl
  exact hside inv.inTree_head

/-- Every side block lies on a side branch. -/
theorem TreeInv.exists_sideRoot (inv : TreeInv t) (hp : p ∈ t.sideBlocks) :
    ∃ w, IsSideRoot t w ∧ Reach t.heap.children w p := by
  obtain ⟨hin, hside⟩ := hp
  induction hin with
  | refl => exact absurd inv.inTree_head hside
  | @tail a c ha hc ih =>
    by_cases hcanon : Reach t.heap.children a t.head
    · exact ⟨c, ⟨a, ha, hcanon, hc, hside⟩, refl c⟩
    · obtain ⟨w, hw, hwa⟩ := ih hcanon
      exact ⟨w, hw, hwa.tail hc⟩

/-! ## The side roots of the source -/

/-- Side roots are the children of canonical blocks from `r` on that do not lead to the head. -/
theorem TreeInv.mem_sideRoots (inv : TreeInv t) :
    ∀ {l : List ℕ} {r : ℕ}, t.InTree r → Path t.heap.children r l t.head →
      (w ∈ sideRoots t.heap (r :: l) ↔
        ∃ p ∈ r :: l, w ∈ t.heap.children p ∧ ¬ Reach t.heap.children w t.head)
  | [], r, hr, hl => by
    obtain rfl : r = t.head := hl
    have hleaf : w ∈ t.heap.children t.head → ¬ Reach t.heap.children w t.head := by
      intro hw hreach
      have h1 := (Heap.mem_children_lt hw).1
      have h2 := inv.isTree.rank_le (hr.tail hw) hreach
      omega
    simp only [sideRoots, head?_nil, Option.map_none, ne_eq, reduceCtorEq,
      not_false_eq_true, decide_true, filter_true, append_nil, mem_singleton,
      exists_eq_left]
    exact ⟨fun hw => ⟨hw, hleaf hw⟩, And.left⟩
  | c :: l, r, hr, hl => by
    have hnext : w ∈ t.heap.children r →
        (hashOf t.heap c ≠ hashOf t.heap w ↔ ¬ Reach t.heap.children w t.head) := by
      intro hw
      rw [not_iff_not]
      constructor
      · intro hhash
        rw [← inv.distinct (hr.tail hl.1) (hr.tail hw) hhash]
        exact hl.2.reach
      · intro hreach
        rw [inv.isTree.siblings_disjoint hr hw hl.1 hreach hl.2.reach]
    rw [sideRoots, mem_append, inv.mem_sideRoots (hr.tail hl.1) hl.2,
      mem_filter, exists_mem_cons_iff _ r (c :: l)]
    refine or_congr_left (and_congr_right fun hw => ?_)
    rw [← hnext hw, head?_cons, Option.map_some, decide_eq_true_eq, ne_eq,
      Option.some.injEq]

theorem TreeInv.sideRoots_nodup (inv : TreeInv t) :
    ∀ {l : List ℕ} {r : ℕ}, t.InTree r → Path t.heap.children r l t.head →
      (sideRoots t.heap (r :: l)).Nodup
  | [], r, hr, _ => by
    rw [sideRoots, sideRoots, append_nil]
    exact (inv.nodup hr).filter _
  | c :: l, r, hr, hl => by
    rw [sideRoots]
    refine List.Nodup.append ((inv.nodup hr).filter _) (inv.sideRoots_nodup (hr.tail hl.1) hl.2) ?_
    -- a child of `r` is no child of a block above it
    intro x hx hx'
    obtain ⟨p, hp, hxp, -⟩ := (inv.mem_sideRoots (hr.tail hl.1) hl.2).mp hx'
    have hlow := inv.height_lt_of_mem hr hl hp
    have hreach := (hl.reach_of_mem hp).1
    have := inv.isTree.unique hr (hr.trans hreach) (mem_of_mem_filter hx) hxp
    rw [this] at hlow
    exact lt_irrefl _ hlow

theorem TreeInv.mem_canonical (inv : TreeInv t) {l : List ℕ}
    (hl : Path t.heap.children t.root l t.head) :
    p ∈ t.root :: l ↔ t.InTree p ∧ Reach t.heap.children p t.head := by
  constructor
  · intro hp
    rcases mem_cons.mp hp with rfl | hp
    · exact ⟨t.inTree_root, inv.inTree_head⟩
    · exact hl.reach_of_mem hp
  · rintro ⟨hp, hreach⟩
    by_cases hroot : p = t.root
    · exact hroot ▸ mem_cons_self
    · exact mem_cons_of_mem _ (inv.mem_path t.inTree_root hl hp hroot hreach)

theorem TreeInv.mem_sideRoots_iff (inv : TreeInv t) {l : List ℕ}
    (hl : Path t.heap.children t.root l t.head) :
    w ∈ sideRoots t.heap (t.root :: l) ↔ IsSideRoot t w := by
  rw [inv.mem_sideRoots t.inTree_root hl]
  constructor
  · rintro ⟨p, hp, hw, hside⟩
    obtain ⟨hin, hreach⟩ := (inv.mem_canonical hl).mp hp
    exact ⟨p, hin, hreach, hw, hside⟩
  · rintro ⟨p, hin, hreach, hw, hside⟩
    exact ⟨p, (inv.mem_canonical hl).mpr ⟨hin, hreach⟩, hw, hside⟩

/-! ## The eviction order -/

namespace ForkChoiceKey

variable {a b c : ForkChoiceKey}

theorem lt_irrefl (a : ForkChoiceKey) : ¬ a < a := List.lt_irrefl _

theorem lt_trans (hab : a < b) (hbc : b < c) : a < c := List.lt_trans hab hbc

theorem eq_of_not_lt (hab : ¬ a < b) (hba : ¬ b < a) : a = b := by
  obtain ⟨a⟩ := a
  obtain ⟨b⟩ := b
  exact congrArg _ (List.le_antisymm (List.not_lt.mp hba) (List.not_lt.mp hab))

end ForkChoiceKey

open ForkChoiceKey

/-- Weaker fork choice, or the same and a smaller hash. -/
def Weaker (h : Heap) (a b : ℕ) : Prop :=
  forkKeyOf h a < forkKeyOf h b ∨
    forkKeyOf h a = forkKeyOf h b ∧ (hashOf h a).bytes < (hashOf h b).bytes

theorem evictionLe_iff {a b : ℕ} :
    evictionLe h a b = true ↔ forkKeyOf h a < forkKeyOf h b ∨
      forkKeyOf h a = forkKeyOf h b ∧ ¬ (hashOf h b).bytes < (hashOf h a).bytes := by
  rw [evictionLe]
  split_ifs with h1 h2
  · exact iff_of_true rfl (.inl h1)
  · refine iff_of_false id ?_
    rintro (h | ⟨h, -⟩)
    · exact h1 h
    · exact lt_irrefl _ (h ▸ h2)
  · rw [decide_eq_true_eq]
    exact ⟨fun h => .inr ⟨eq_of_not_lt h1 h2, h⟩,
      fun h => (h.resolve_left h1).2⟩

theorem evictionLe_total (a b : ℕ) : (evictionLe h a b || evictionLe h b a) = true := by
  rw [Bool.or_eq_true, evictionLe_iff, evictionLe_iff]
  by_cases h1 : forkKeyOf h a < forkKeyOf h b
  · exact .inl (.inl h1)
  · by_cases h2 : forkKeyOf h b < forkKeyOf h a
    · exact .inr (.inl h2)
    · have heq := eq_of_not_lt h1 h2
      by_cases h3 : (hashOf h b).bytes < (hashOf h a).bytes
      · exact .inr (.inr ⟨heq.symm, List.lt_asymm h3⟩)
      · exact .inl (.inr ⟨heq, h3⟩)

theorem evictionLe_trans {a b c : ℕ} (hab : evictionLe h a b = true)
    (hbc : evictionLe h b c = true) : evictionLe h a c = true := by
  rw [evictionLe_iff] at hab hbc ⊢
  rcases hab with hab | ⟨hab, hhab⟩
  · rcases hbc with hbc | ⟨hbc, -⟩
    · exact .inl (lt_trans hab hbc)
    · exact .inl (hbc ▸ hab)
  · rcases hbc with hbc | ⟨hbc, hhbc⟩
    · exact .inl (hab ▸ hbc)
    · refine .inr ⟨hab.trans hbc, ?_⟩
      exact List.not_lt.mpr (List.le_trans (List.not_lt.mp hhab) (List.not_lt.mp hhbc))

theorem TreeInv.weaker_of_evictionLe (inv : TreeInv t) {a b : ℕ} (ha : t.InTree a)
    (hb : t.InTree b) (hne : a ≠ b) (hle : evictionLe t.heap a b = true) : Weaker t.heap a b := by
  rcases evictionLe_iff.mp hle with h | ⟨hkey, hhash⟩
  · exact .inl h
  · refine .inr ⟨hkey, ?_⟩
    by_contra hlt
    have hbytes := List.le_antisymm (List.not_lt.mp hhash) (List.not_lt.mp hlt)
    exact hne (inv.distinct ha hb (Hash.eq_of_bytes hbytes))

/-! ## Cutting side branches off -/

/-- The memory of the tree with the branches of `removed` cut off. -/
structure Cut (t : Tree) (h : Heap) (removed : List ℕ) : Prop where
  pruned : Pruned t.heap h t.head
  children : ∀ a c, t.InTree a → (c ∈ h.children a ↔ c ∈ t.heap.children a ∧ c ∉ removed)

theorem Cut.refl (t : Tree) : Cut t t.heap [] where
  pruned := .rfl'
  children a c _ := by simp

theorem Cut.reach (hcut : Cut t h removed) (inv : TreeInv t)
    (hsides : ∀ w ∈ removed, IsSideRoot t w) :
    Reach h.children t.root p ↔ t.InTree p ∧ ∀ w ∈ removed, ¬ Reach t.heap.children w p :=
  inv.isTree.reach_cut (fun w hw => (hsides w hw).inTree)
    (fun hroot => (hsides _ hroot).ne_root inv rfl) hcut.children

theorem Cut.drop (hcut : Cut t h removed) (inv : TreeInv t) (hw : IsSideRoot t w)
    (hq : t.heap.parent w = some q) : Cut t (h.dropChild q w) (removed ++ [w]) where
  pruned := by
    obtain ⟨_, _, _, _, hside⟩ := hw
    exact hcut.pruned.trans (.dropChild fun hreach => hside (hcut.pruned.reach_of_reach hreach))
  children a c ha := by
    have hold := hcut.children a c ha
    rw [mem_append, mem_singleton, not_or]
    by_cases haq : a = q
    · subst haq
      rw [Heap.children_dropChild_self, mem_filter, decide_eq_true_eq, hold, and_assoc]
    · rw [Heap.children_dropChild_of_ne haq, hold]
      -- the branch hangs on one block only
      have hne : c ∈ t.heap.children a → c ≠ w := by
        rintro hc rfl
        rw [inv.parent_child ha hc] at hq
        exact haq (Option.some.inj hq)
      exact ⟨fun hc => ⟨hc.1, hc.2, hne hc.1⟩, fun hc => ⟨hc.1, hc.2.1⟩⟩

theorem Cut.countSide (hcut : Cut t h removed) (inv : TreeInv t)
    (hsides : ∀ w ∈ removed, IsSideRoot t w) {l : List ℕ}
    (hl : Path t.heap.children t.root l t.head) :
    countSide h t.root ((t.root :: l).map (hashOf t.heap)) = (t.leftBy removed).ncard := by
  have inv' : TreeInv { t with heap := h } := inv.prune hcut.pruned
  have hnodup : (visit h.children h.next [t.root]).Nodup :=
    inv'.isTree.visit_nodup _ _ (by simp [Reach.refl]) (pairwise_singleton _ _)
  have hmem : ∀ p, p ∈ visit h.children h.next [t.root] ↔ Reach h.children t.root p :=
    fun p => inv'.mem_nodes
  have hcanon : ∀ p, t.InTree p →
      (hashOf h p ∉ (t.root :: l).map (hashOf t.heap) ↔ ¬ Reach t.heap.children p t.head) := by
    intro p hp
    rw [not_iff_not, hcut.pruned.hashOf_eq, mem_map]
    constructor
    · rintro ⟨q, hq, heq⟩
      obtain ⟨hin, hreach⟩ := (inv.mem_canonical hl).mp hq
      rwa [← inv.distinct hin hp heq]
    · exact fun hreach => ⟨p, (inv.mem_canonical hl).mpr ⟨hp, hreach⟩, rfl⟩
  have hset : t.leftBy removed = ((visit h.children h.next [t.root]).filter
      fun p => hashOf h p ∉ (t.root :: l).map (hashOf t.heap)).toFinset := by
    ext p
    rw [coe_toFinset, Set.mem_ofPred_eq, mem_filter, hmem, hcut.reach inv hsides,
      decide_eq_true_eq]
    constructor
    · rintro ⟨⟨hin, hside⟩, hout⟩
      exact ⟨⟨hin, hout⟩, (hcanon p hin).mpr hside⟩
    · rintro ⟨⟨hin, hout⟩, hside⟩
      exact ⟨⟨hin, (hcanon p hin).mp hside⟩, hout⟩
  rw [hset, Set.ncard_coe_finset, toFinset_card_of_nodup (hnodup.filter _),
    Tree.countSide, countP_eq_length_filter]

theorem TreeInv.leftBy_eq_empty (inv : TreeInv t) (hall : ∀ w, IsSideRoot t w → w ∈ removed) :
    t.leftBy removed = ∅ := by
  rw [Set.eq_empty_iff_forall_notMem]
  rintro p ⟨hside, hout⟩
  obtain ⟨w, hw, hreach⟩ := inv.exists_sideRoot hside
  exact hout w (hall w hw) hreach

/-- **The eviction loop** cuts the first `k` branches off, after which the side blocks fit, and
they did not fit before. Its early exits are never taken. -/
theorem Cut.evict (inv : TreeInv t) {l : List ℕ} (hl : Path t.heap.children t.root l t.head)
    (capacity : ℕ) : ∀ (sides : List ℕ) {removed : List ℕ} {h : Heap}, Cut t h removed →
      (∀ w, w ∈ removed ++ sides ↔ IsSideRoot t w) → (removed ++ sides).Nodup →
      ∃ k ≤ sides.length,
        Cut t (evict t.root capacity ((t.root :: l).map (hashOf t.heap)) sides h)
          (removed ++ sides.take k) ∧ (t.leftBy (removed ++ sides.take k)).ncard ≤ capacity ∧
        ∀ j < k, capacity < (t.leftBy (removed ++ sides.take j)).ncard
  | [], removed, h, hcut, hsides, _ => by
    rw [append_nil] at hsides
    refine ⟨0, le_rfl, ?_, ?_, nofun⟩
    · rw [take_nil, append_nil]
      exact hcut
    · rw [take_nil, append_nil, inv.leftBy_eq_empty fun w => (hsides w).mpr,
        Set.ncard_empty]
      exact Nat.zero_le _
  | w :: rest, removed, h, hcut, hsides, hnodup => by
    have hcount := hcut.countSide inv
      (fun v hv => (hsides v).mp (mem_append_left _ hv)) hl
    rw [Tree.evict, hcount]
    split_ifs with hfull
    · -- the branch still hangs on the canonical block it was attached to
      have hw : IsSideRoot t w := (hsides w).mp (mem_append_right _ mem_cons_self)
      obtain ⟨q, hqin, -, hwq, -⟩ := id hw
      have hparent := inv.parent_child hqin hwq
      have hout : w ∉ removed := fun hmem =>
        (nodup_append.mp hnodup).2.2 w hmem w mem_cons_self rfl
      have hmem : w ∈ h.children q := (hcut.children q w hqin).mpr ⟨hwq, hout⟩
      have happ : removed ++ w :: rest = (removed ++ [w]) ++ rest := by simp
      rw [happ] at hsides hnodup
      obtain ⟨k, hk, hcut', hfits, hbefore⟩ :=
        Cut.evict inv hl capacity rest (hcut.drop inv hw hparent) hsides hnodup
      have htake : ∀ j, removed ++ (w :: rest).take (j + 1) = (removed ++ [w]) ++ rest.take j := by
        intro j
        simp
      refine ⟨k + 1, Nat.succ_le_succ hk, ?_, ?_, ?_⟩
      · rw [Heap.parent_congr hcut.pruned.source_eq, hparent, htake]
        simp only [Heap.removeBlockChild, hmem, decide_true, if_true]
        exact hcut'
      · rw [htake]
        exact hfits
      · intro j hj
        cases j with
        | zero =>
          rw [take_zero, append_nil]
          exact hfull
        | succ j =>
          rw [htake]
          exact hbefore j (Nat.lt_of_succ_lt_succ hj)
    · refine ⟨0, Nat.zero_le _, ?_, ?_, nofun⟩
      · rw [take_zero, append_nil]
        exact hcut
      · rw [take_zero, append_nil]
        exact not_lt.mp hfull

/-! ## The whole eviction -/

/-- What an eviction down to `capacity` does: the first `k` side roots in `order` are removed. -/
structure Evicted (t t' : Tree) (capacity : ℕ) (order : List ℕ) (k : ℕ) : Prop where
  /-- `order` lists the roots of the side branches, each once. -/
  mem_order : ∀ w, w ∈ order ↔ IsSideRoot t w
  nodup : order.Nodup
  /-- They are ordered by their own fork choice and hash. -/
  ordered : order.Pairwise (Weaker t.heap)
  le_length : k ≤ order.length
  /-- The cursors and the way from the root to the head are as before. -/
  root : t'.root = t.root
  head : t'.head = t.head
  canonical : ∀ l, Path t.heap.children t.root l t.head → Path t'.heap.children t.root l t.head
  /-- No chunk changes, apart from the children it retains. -/
  chunks : ∀ p, t'.heap.origin p = t.heap.origin p ∧ t'.heap.source p = t.heap.source p ∧
    t'.heap.body p = t.heap.body p
  /-- Whole branches are removed, and nothing else. -/
  nodes : ∀ p, t'.InTree p ↔
    t.InTree p ∧ ∀ w ∈ order.take k, ¬ Reach t.heap.children w p
  /-- The side blocks fit. -/
  fits : t'.sideBlocks.ncard ≤ capacity
  /-- With any branch fewer removed they would not. -/
  least : ∀ j < k, capacity < (t.leftBy (order.take j)).ncard

/-- **Eviction.** `enforce_side_capacity` removes the shortest prefix of the side branches, ordered
by the fork choice and hash of their roots, that makes the side blocks fit. -/
theorem enforceSideCapacity_evicts (inv : TreeInv t) (capacity : ℕ) :
    ∃ order k, Evicted t (t.enforceSideCapacity capacity) capacity order k := by
  obtain ⟨l, hl⟩ := inv.inTree_head.exists_path
  set order := (sideRoots t.heap (t.root :: l)).mergeSort (evictionLe t.heap)
    with horder
  have hmem : ∀ w, w ∈ order ↔ IsSideRoot t w := by
    intro w
    rw [horder, mem_mergeSort, inv.mem_sideRoots_iff hl]
  have hnodup : order.Nodup :=
    nodup_mergeSort.mpr (inv.sideRoots_nodup t.inTree_root hl)
  obtain ⟨k, hk, hcut, hfits, hleast⟩ := Cut.evict inv hl capacity order (Cut.refl t)
    (by simpa using hmem) (by simpa using hnodup)
  simp only [nil_append] at hcut hfits hleast
  have hsides : ∀ w ∈ order.take k, IsSideRoot t w :=
    fun w hw => (hmem w).mp (mem_of_mem_take hw)
  have htree : t.enforceSideCapacity capacity = { t with
      heap := evict t.root capacity ((t.root :: l).map (hashOf t.heap)) order t.heap } := by
    rw [enforceSideCapacity, inv.ancestry_head hl]
  refine ⟨order, k, ?_⟩
  rw [htree]
  refine
    { mem_order := hmem, nodup := hnodup, ordered := ?_, le_length := hk, root := rfl,
      head := rfl, canonical := fun l' hl' => hcut.pruned.path hl' (refl _)
      chunks := fun p => ⟨hcut.pruned.origin_eq p, hcut.pruned.source_eq p, hcut.pruned.body_eq p⟩
      nodes := fun p => hcut.reach inv hsides, fits := ?_, least := hleast }
  · have htrans : ∀ a b c, evictionLe t.heap a b = true →
        evictionLe t.heap b c = true → evictionLe t.heap a c = true :=
      fun _ _ _ => evictionLe_trans
    have hsorted := pairwise_mergeSort htrans evictionLe_total
      (sideRoots t.heap (t.root :: l))
    rw [← horder] at hsorted
    refine List.Pairwise.imp_of_mem ?_ (hnodup.and hsorted)
    rintro a b ha hb ⟨hne, hle⟩
    exact inv.weaker_of_evictionLe ((hmem a).mp ha).inTree ((hmem b).mp hb).inTree hne hle
  · -- a block that is left leads to the head as it did before
    refine le_trans (le_of_eq ?_) hfits
    congr 1
    ext p
    constructor
    · rintro ⟨hin, hside⟩
      obtain ⟨hin', hout⟩ := (hcut.reach inv hsides).mp hin
      exact ⟨⟨hin', fun hreach => hside (hcut.pruned.reach hreach (refl _))⟩, hout⟩
    · rintro ⟨⟨hin, hside⟩, hout⟩
      exact ⟨(hcut.reach inv hsides).mpr ⟨hin, hout⟩,
        fun hreach => hside (hcut.pruned.reach_of_reach hreach)⟩

/-- Three branches on `sampleRoot`: the canonical one of three blocks, one of two and one of one. -/
def sampleForkBlocks : List Block :=
  [.sample 1 10 1, .sample 2 11 10,
    .sample 3 12 11, .sample 1 20 1,
    .sample 2 21 20, .sample 1 30 1]

/-- The run that attaches these blocks, at 2 to 7, with the fork choice of their heights. -/
def sampleFork : TreeRun :=
  sampleForkBlocks.foldl
    (fun s block => (s.grow false 10 block (.fromHeight block.height)).getD s)
    ⟨(new .empty sampleRoot).resetRoot sampleRoot, [], []⟩

theorem treeReachable_sampleFork : TreeReachable sampleFork := by
  have hgrow : ∀ (blocks : List Block) (s : TreeRun), TreeReachable s →
      TreeReachable (blocks.foldl
        (fun s block => (s.grow false 10 block (.fromHeight block.height)).getD s) s) := by
    intro blocks
    induction blocks with
    | nil => exact fun s hs => hs
    | cons block blocks ih =>
      intro s hs
      refine ih _ ?_
      show TreeReachable ((s.grow false 10 block (.fromHeight block.height)).getD s)
      cases hg : s.grow false 10 block (.fromHeight block.height) with
      | none => exact hs
      | some s' => exact hs.grow hg
  exact hgrow _ _ ⟨_, _, .refl⟩

theorem sampleFork_children : sampleFork.tree.root = 1 ∧ sampleFork.tree.head = 4 ∧
      sampleFork.tree.heap.children 1 = [2, 5, 7] ∧ sampleFork.tree.heap.children 2 = [3] ∧
      sampleFork.tree.heap.children 3 = [4] ∧ sampleFork.tree.heap.children 4 = [] ∧
      sampleFork.tree.heap.children 5 = [6] ∧ sampleFork.tree.heap.children 6 = [] ∧
      sampleFork.tree.heap.children 7 = [] := by
  decide

theorem sampleFork_evicted : (sampleFork.tree.enforceSideCapacity 1).nodes = [1, 7, 2, 3, 4] := by
  have hchain : ancestry sampleFork.tree.heap (sampleFork.tree.head + 1) []
      sampleFork.tree.head = [1, 2, 3, 4] := by decide
  have hsides : (sideRoots sampleFork.tree.heap [1, 2, 3, 4]).mergeSort
      (evictionLe sampleFork.tree.heap) = [5, 7] := by
    have hroots : sideRoots sampleFork.tree.heap [1, 2, 3, 4] = [5, 7] := by decide
    rw [hroots]
    exact mergeSort_of_pairwise (by decide)
  rw [enforceSideCapacity, hchain, hsides]
  decide

/-- The tree of three branches, cut down to one side block. -/
theorem enforceSideCapacity_evicts_sampleFork :
    TreeInv sampleFork.tree ∧
      ∃ order k, Evicted sampleFork.tree (sampleFork.tree.enforceSideCapacity 1) 1 order k :=
  have inv := (runInv_of_reachable treeReachable_sampleFork).tree
  ⟨inv, enforceSideCapacity_evicts inv 1⟩

/-- A side branch with a root as strong as another's and a stronger block on it is evicted first. -/
theorem eviction_ignores_best_key :
    TreeReachable sampleFork ∧ IsSideRoot sampleFork.tree 5 ∧ IsSideRoot sampleFork.tree 7 ∧
      (∃ p, Reach sampleFork.tree.heap.children 5 p ∧
        ∀ q, Reach sampleFork.tree.heap.children 7 q →
          forkKeyOf sampleFork.tree.heap q < forkKeyOf sampleFork.tree.heap p) ∧
      ¬ (sampleFork.tree.enforceSideCapacity 1).InTree 5 ∧
      (sampleFork.tree.enforceSideCapacity 1).InTree 7 := by
  obtain ⟨hroot, hhead, h1, h2, h3, h4, h5, h6, h7⟩ := sampleFork_children
  have inv' : TreeInv (sampleFork.tree.enforceSideCapacity 1) :=
    (runInv_of_reachable (treeReachable_sampleFork.enforceSideCapacity 1)).tree
  have hcanon : Reach sampleFork.tree.heap.children 1 sampleFork.tree.head := by
    rw [hhead]
    exact head (b := 2) (by rw [h1]; decide) (head (b := 3) (by rw [h2]; decide)
      (step (by rw [h3]; decide)))
  have hleaf7 : ∀ q, Reach sampleFork.tree.heap.children 7 q → q = 7 :=
    fun q hq => (hq.eq_of_leaf h7).symm
  have hside5 : ¬ Reach sampleFork.tree.heap.children 5 sampleFork.tree.head := by
    rw [hhead]
    intro hq
    rcases hq.cases_head with h | ⟨b, hb, hq⟩
    · cases h
    · rw [h5, mem_singleton] at hb
      rw [hb] at hq
      cases hq.eq_of_leaf h6
  have hside7 : ¬ Reach sampleFork.tree.heap.children 7 sampleFork.tree.head := by
    rw [hhead]
    intro hq
    cases hleaf7 4 hq
  have hs5 : IsSideRoot sampleFork.tree 5 :=
    ⟨1, by rw [← hroot]; exact inTree_root _, hcanon, by rw [h1]; decide, hside5⟩
  have hs7 : IsSideRoot sampleFork.tree 7 :=
    ⟨1, by rw [← hroot]; exact inTree_root _, hcanon, by rw [h1]; decide, hside7⟩
  refine ⟨treeReachable_sampleFork, hs5, hs7, ⟨6, step (by rw [h5]; decide), ?_⟩, ?_⟩
  · intro q hq
    rw [hleaf7 q hq]
    decide +kernel
  · rw [← inv'.mem_nodes, ← inv'.mem_nodes, sampleFork_evicted]
    decide

end Hacash
