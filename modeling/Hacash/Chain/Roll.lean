import Hacash.Chain.Attach

/-!
# Rolling the root and pruning side branches

A job whose first block does not read from the durable root is refused, and eviction only cuts edges
into subtrees without the head.
-/

namespace Hacash

open Lib Heap List Hacash.Tree Option

variable {t t' : Tree} {h h' : Heap} {a b p q r w : ℕ} {job : RollJob}

/-! ## Validation -/

theorem TreeInv.checkChain_path (inv : TreeInv t) :
    ∀ {chain : List ℕ} {r : ℕ}, t.InTree r → Path t.heap.children r chain b →
      checkChain t.heap r chain = .ok b
  | [], r, _, hl => by
    obtain rfl : r = b := hl
    rfl
  | c :: chain, r, hr, hl => by
    rw [checkChain, if_neg (not_not.mpr (inv.height hr hl.1)), inv.parent_child hr hl.1]
    dsimp only
    rw [if_neg (not_not.mpr rfl), inv.checkChain_path (hr.tail hl.1) hl.2]

theorem TreeInv.checkOnHeadPath_path (inv : TreeInv t) (ha : t.InTree a) :
    ∀ (l : List ℕ) {b n : ℕ}, Path t.heap.children a l b → b < n →
      checkOnHeadPath t.heap a n b = .ok () := by
  intro l
  induction l using List.reverseRecOn with
  | nil =>
    intro b n hl hn
    obtain ⟨n, rfl⟩ : ∃ m, n = m + 1 := ⟨n - 1, by omega⟩
    rw [checkOnHeadPath, if_pos (show b = a from (show a = b from hl).symm)]
  | append_singleton l x ih =>
    intro b n hl hn
    obtain ⟨p, hp, hx, rfl⟩ := Path.snoc_iff.mp hl
    obtain ⟨n, rfl⟩ : ∃ m, n = m + 1 := ⟨n - 1, by omega⟩
    have hin : t.InTree p := ha.trans hp.reach
    have hlen := inv.height_path ha hp
    have hx' := inv.height hin hx
    have hlt := (mem_children_lt hx).1
    have hne : x ≠ a := by
      rintro rfl
      omega
    rw [checkOnHeadPath, if_neg hne, if_neg (by omega), inv.parent_child hin hx]
    exact ih hp (by omega)

/-- **A job that starts at the durable root and ends above the head is valid.** -/
theorem TreeInv.validateRoll_ok (inv : TreeInv t) (hj : JobAt t.heap t.root job)
    (hh : Reach t.heap.children job.newRoot t.head) : t.validateRoll job = .ok () := by
  have hnew : t.InTree job.newRoot := hj.path.reach
  have hlen := inv.height_path t.inTree_root hj.path
  obtain ⟨l, hl⟩ := hh.exists_path
  unfold validateRoll
  dsimp only
  rw [if_neg (by rw [hj.hash, hj.height]; simp), if_neg hj.nonempty, if_neg (by omega),
    inv.checkChain_path t.inTree_root hj.path]
  show (if job.newRoot ≠ job.newRoot then _ else _) = _
  rw [if_neg (not_not.mpr rfl)]
  exact inv.checkOnHeadPath_path hnew l hl (Nat.lt_succ_self _)

theorem TreeInv.path_of_checkChain (inv : TreeInv t) :
    ∀ {chain : List ℕ} {r : ℕ}, checkChain t.heap r chain = .ok b → t.InTree b →
      t.InTree r ∧ Path t.heap.children r chain b
  | [], r, h, hb => by
    cases h
    exact ⟨hb, rfl⟩
  | c :: chain, r, h, hb => by
    rw [checkChain] at h
    split_ifs at h
    split at h
    · cases h
    next q hq =>
      split_ifs at h with hne
      obtain rfl := not_not.mp hne
      -- the links are parent links; going down from the end they are links of the tree
      obtain ⟨hc, hpath⟩ := inv.path_of_checkChain h hb
      obtain ⟨hr, hmem⟩ := inv.inTree_parent hc hq
      exact ⟨hr, hmem, hpath⟩

theorem TreeInv.reach_of_checkOnHeadPath (inv : TreeInv t) :
    ∀ {n : ℕ}, t.InTree b → checkOnHeadPath t.heap a n b = .ok () →
      t.InTree a ∧ Reach t.heap.children a b := by
  intro n
  induction n generalizing b with
  | zero =>
    intro _ h
    cases h
  | succ n ih =>
    intro hb h
    rw [checkOnHeadPath] at h
    split_ifs at h with heq
    · cases heq
      exact ⟨hb, Reach.refl _⟩
    split at h
    · cases h
    next q hq =>
      obtain ⟨hin, hmem⟩ := inv.inTree_parent hb hq
      obtain ⟨ha, hreach⟩ := ih hin h
      exact ⟨ha, hreach.tail hmem⟩

/-- **What a valid job is**, whoever made it: it leads from the durable root to a block above which
the head lies. -/
theorem TreeInv.of_validateRoll (inv : TreeInv t) (h : t.validateRoll job = .ok ()) :
    job.chain ≠ [] ∧ Path t.heap.children t.root job.chain job.newRoot ∧
      Reach t.heap.children job.newRoot t.head := by
  unfold validateRoll at h
  dsimp only at h
  split_ifs at h with _ hnil
  obtain ⟨last, hlast, h⟩ := bind_eq_ok h
  split_ifs at h with hne
  obtain rfl := not_not.mp hne
  obtain ⟨hin, hreach⟩ := inv.reach_of_checkOnHeadPath inv.inTree_head h
  exact ⟨hnil, (inv.path_of_checkChain hlast hin).2, hreach⟩

theorem validateRoll_error_of_parent {c : ℕ} {chain : List ℕ} (hc : job.chain = c :: chain)
    (hpar : t.heap.parent c ≠ some t.root) : ∃ e, t.validateRoll job = .error e := by
  cases hv : t.validateRoll job with
  | error e => exact ⟨e, rfl⟩
  | ok _ =>
    unfold validateRoll at hv
    dsimp only at hv
    split_ifs at hv
    obtain ⟨last, hlast, -⟩ := bind_eq_ok hv
    rw [hc, checkChain] at hlast
    split_ifs at hlast
    split at hlast
    · cases hlast
    next q hq =>
      split_ifs at hlast with hne
      exact absurd (not_not.mp hne ▸ hq) hpar

/-! ## Committing -/

/-- `promote_to_root` accepts a frozen block that is not disk-backed yet. -/
theorem TreeInv.promoteToRoot_ok (inv : TreeInv t) (hp : t.InTree p) (hne : p ≠ t.root) :
    t.heap.promoteToRoot p = .ok (t.heap.setDisk p) := by
  obtain ⟨height, identity, δ, ho, hb⟩ := inv.attached hp
  obtain ⟨q, hq, hpq, -⟩ := inv.exists_parent hp hne
  have hsrc := inv.source hq hpq
  obtain ⟨c, hc, hco⟩ := map_eq_some_iff.mp ho
  simp only [Heap.body, hc, map_some, some.injEq] at hb
  simp only [Heap.source, hc, map_some, some.injEq] at hsrc
  simp [Heap.promoteToRoot, hc, hco, hb, hsrc, Origin.isBlock, ChunkBody.isFrozen]

/-- **The subtree of a promoted block is a fork tree.** -/
theorem TreeInv.promote (inv : TreeInv t) (hn : t.InTree p)
    (hs : Reach t.heap.children p t.scheduledRoot) :
    TreeInv { t with heap := t.heap.setDisk p, root := p } := by
  have hkids : ∀ q, (t.heap.setDisk p).children q = t.heap.children q :=
    fun q => children_setDisk
  have hin : ∀ {q}, ({ t with heap := t.heap.setDisk p, root := p } : Tree).InTree q →
      Reach t.heap.children p q :=
    fun hq => hq.mono fun a c hc => hkids a ▸ hc
  have hout : ∀ {x y}, Reach t.heap.children x y → Reach (t.heap.setDisk p).children x y :=
    fun hxy => hxy.mono fun a c hc => (hkids a).symm ▸ hc
  have horg : ∀ q, (t.heap.setDisk p).origin q = t.heap.origin q :=
    fun q => origin_setDisk
  refine
    { attached := ?_, source := ?_, height := ?_, nodup := ?_, distinct := ?_,
      rootDisk := ?_, scheduled := hout hs, head := hout inv.head, leaf := ?_ }
  · intro q hq
    obtain ⟨height, identity, δ, ho, hb⟩ := inv.attached (hn.trans (hin hq))
    exact ⟨height, identity, δ, (horg q).trans ho, body_setDisk.trans hb⟩
  · intro q r hq hr
    have hr' : r ∈ t.heap.children q := hkids q ▸ hr
    -- no block below the new root retains it
    have hne : r ≠ p := by
      rintro rfl
      have h1 := inv.isTree.rank_le hn (hin hq)
      have h2 := (mem_children_lt hr').1
      omega
    exact (source_setDisk_of_ne hne).trans (inv.source (hn.trans (hin hq)) hr')
  · intro q r hq hr
    have hr' : r ∈ t.heap.children q := hkids q ▸ hr
    simpa only [heightOf, horg] using inv.height (hn.trans (hin hq)) hr'
  · intro q hq
    exact (hkids q).symm ▸ inv.nodup (hn.trans (hin hq))
  · intro q r hq hr heq
    refine inv.distinct (hn.trans (hin hq)) (hn.trans (hin hr)) ?_
    simpa only [hashOf, identityOf, horg] using heq
  · obtain ⟨c, hc⟩ := isSome_iff_exists.mp (inv.isSome_cell hn)
    exact source_setDisk_self hc
  · intro q δ hq hw
    have hw' : t.heap.writable q = some δ := by
      simpa only [writable, body_setDisk] using hw
    exact (hkids q).trans (inv.leaf ((hn.root_le).trans hq) hw')

/-- **A valid job is committed**, and what it leaves is a fork tree. -/
theorem TreeInv.commitRoll_ok (inv : TreeInv t) (hj : JobAt t.heap t.root job)
    (hs : Reach t.heap.children job.newRoot t.scheduledRoot) :
    t.commitRoll job =
        (.ok (), { t with heap := t.heap.setDisk job.newRoot, root := job.newRoot }) ∧
      TreeInv { t with heap := t.heap.setDisk job.newRoot, root := job.newRoot } := by
  have hnew : t.InTree job.newRoot := hj.path.reach
  have hne : job.newRoot ≠ t.root := by
    intro heq
    have hlen := inv.height_path t.inTree_root hj.path
    rw [heq] at hlen
    have := length_pos_iff.mpr hj.nonempty
    omega
  refine ⟨?_, inv.promote hnew hs⟩
  unfold commitRoll
  rw [inv.validateRoll_ok hj (hs.trans inv.head)]
  dsimp only
  rw [if_neg (by rw [inv.rootDisk]; simp), inv.promoteToRoot_ok hnew hne]
  simp [find]

/-- **A commit of any job keeps the tree above the durable root**: it moves the root down towards
the head, or nothing. -/
theorem TreeInv.commitRoll_durable (inv : TreeInv t.durable) (job : RollJob) :
    (∃ e, t.commitRoll job = (.error e, t)) ∨
      job.chain ≠ [] ∧ Path t.heap.children t.root job.chain job.newRoot ∧
        Reach t.heap.children job.newRoot t.head ∧
        t.commitRoll job =
          (.ok (), { t with heap := t.heap.setDisk job.newRoot, root := job.newRoot }) ∧
        TreeInv (Tree.durable { t with
          heap := t.heap.setDisk job.newRoot, root := job.newRoot }) := by
  cases hv : t.validateRoll job with
  | error e => exact .inl ⟨e, by rw [commitRoll, hv]⟩
  | ok u =>
    have hvalid : t.durable.validateRoll job = .ok () := hv
    obtain ⟨hnil, hpath, hhead⟩ := inv.of_validateRoll hvalid
    have hnew : t.durable.InTree job.newRoot := hpath.reach
    have hne : job.newRoot ≠ t.durable.root := by
      intro heq
      have hlen := inv.height_path t.durable.inTree_root hpath
      rw [heq] at hlen
      have := length_pos_iff.mpr hnil
      omega
    have hdisk : t.heap.source t.root = some .disk := inv.rootDisk
    have hpromote : t.heap.promoteToRoot job.newRoot = .ok (t.heap.setDisk job.newRoot) :=
      inv.promoteToRoot_ok hnew hne
    refine .inr ⟨hnil, hpath, hhead, ?_, ?_⟩
    · unfold commitRoll
      rw [hv]
      dsimp only
      rw [if_neg (by rw [hdisk]; simp), hpromote]
      simp [find]
    · have inv' := inv.moveHead (e := t.epoch) hnew hhead
      exact inv'.promote hnew (Reach.refl _)

/-! ## Side capacity -/

/-- `h'` is `h` after cutting edges, none of them on a way to `head`. -/
structure Pruned (h h' : Heap) (head : ℕ) : Prop where
  next_eq : h'.next = h.next
  origin_eq : ∀ q, h'.origin q = h.origin q
  source_eq : ∀ q, h'.source q = h.source q
  body_eq : ∀ q, h'.body q = h.body q
  sublist : ∀ q, (h'.children q).Sublist (h.children q)
  keep : ∀ {a c}, c ∈ h.children a → Reach h.children c head → c ∈ h'.children a

namespace Pruned

variable {head : ℕ}

theorem rfl' : Pruned h h head where
  next_eq := rfl
  origin_eq _ := rfl
  source_eq _ := rfl
  body_eq _ := rfl
  sublist _ := List.Sublist.refl _
  keep hc _ := hc

/-- Ways to the head survive. -/
theorem path (pr : Pruned h h' head) {l : List ℕ} (hl : Path h.children a l b)
    (hb : Reach h.children b head) : Path h'.children a l b :=
  hl.keep hb fun _ _ _ => pr.keep

theorem reach (pr : Pruned h h' head) (hab : Reach h.children a b)
    (hb : Reach h.children b head) : Reach h'.children a b := by
  obtain ⟨l, hl⟩ := hab.exists_path
  exact (pr.path hl hb).reach

theorem trans {h'' : Heap} (pr : Pruned h h' head) (pr' : Pruned h' h'' head) :
    Pruned h h'' head where
  next_eq := pr'.next_eq.trans pr.next_eq
  origin_eq q := (pr'.origin_eq q).trans (pr.origin_eq q)
  source_eq q := (pr'.source_eq q).trans (pr.source_eq q)
  body_eq q := (pr'.body_eq q).trans (pr.body_eq q)
  sublist q := (pr'.sublist q).trans (pr.sublist q)
  keep hc hr := pr'.keep (pr.keep hc hr) (pr.reach hr (Reach.refl _))

theorem dropChild (hw : ¬ Reach h.children w head) : Pruned h (h.dropChild p w) head where
  next_eq := rfl
  origin_eq _ := origin_dropChild
  source_eq _ := source_dropChild
  body_eq _ := body_dropChild
  sublist q := by
    by_cases hq : q = p
    · subst hq
      rw [children_dropChild_self]
      exact filter_sublist
    · rw [children_dropChild_of_ne hq]
  keep {a c} hc hr := by
    have hne : c ≠ w := by
      rintro rfl
      exact hw hr
    by_cases ha : a = p
    · subst ha
      rw [children_dropChild_self]
      exact mem_filter.mpr ⟨hc, by simpa using hne⟩
    · rwa [children_dropChild_of_ne ha]

variable {head : ℕ} (pr : Pruned h h' head)
include pr

theorem heightOf_eq (q : ℕ) : heightOf h' q = heightOf h q := by
  unfold heightOf
  rw [pr.origin_eq]

theorem hashOf_eq (q : ℕ) : hashOf h' q = hashOf h q := by
  unfold hashOf identityOf
  rw [pr.origin_eq]

/-- Pruning only removes paths. -/
theorem reach_of_reach (hab : Reach h'.children a b) : Reach h.children a b :=
  hab.mono fun p _ hc => (pr.sublist p).subset hc

end Pruned

/-- **Pruning keeps the tree.** -/
theorem TreeInv.prune (inv : TreeInv t) (pr : Pruned t.heap h' t.head) :
    TreeInv { t with heap := h' } where
  attached hq := by
    obtain ⟨height, identity, δ, ho, hb⟩ := inv.attached (pr.reach_of_reach hq)
    exact ⟨height, identity, δ, (pr.origin_eq _).trans ho, (pr.body_eq _).trans hb⟩
  source hq hr := (pr.source_eq _).trans
    (inv.source (pr.reach_of_reach hq) ((pr.sublist _).subset hr))
  height hq hr := by
    rw [pr.heightOf_eq, pr.heightOf_eq]
    exact inv.height (pr.reach_of_reach hq) ((pr.sublist _).subset hr)
  nodup hq := (inv.nodup (pr.reach_of_reach hq)).sublist (pr.sublist _)
  distinct hq hr heq := by
    rw [pr.hashOf_eq, pr.hashOf_eq] at heq
    exact inv.distinct (pr.reach_of_reach hq) (pr.reach_of_reach hr) heq
  rootDisk := (pr.source_eq _).trans inv.rootDisk
  scheduled := pr.reach inv.scheduled inv.head
  head := pr.reach inv.head (Reach.refl _)
  leaf {q δ} hq hw := by
    have hw' : t.heap.writable q = some δ := by
      simpa only [writable, pr.body_eq] using hw
    exact sublist_nil.mp (inv.leaf hq hw' ▸ pr.sublist q)

theorem TreeInv.ancestry_path (inv : TreeInv t) :
    ∀ (l acc : List ℕ) {b n : ℕ}, Path t.heap.children t.root l b → b < n →
      ancestry t.heap n acc b = t.root :: l ++ acc := by
  intro l
  induction l using List.reverseRecOn with
  | nil =>
    intro acc b n hl hn
    obtain rfl : t.root = b := hl
    obtain ⟨n, rfl⟩ : ∃ m, n = m + 1 := ⟨n - 1, by omega⟩
    rw [ancestry, inv.parent_root]
    rfl
  | append_singleton l x ih =>
    intro acc b n hl hn
    obtain ⟨p, hp, hx, rfl⟩ := Path.snoc_iff.mp hl
    obtain ⟨n, rfl⟩ : ∃ m, n = m + 1 := ⟨n - 1, by omega⟩
    have hin : t.InTree p := hp.reach
    have hlt := (mem_children_lt hx).1
    rw [ancestry, inv.parent_child hin hx]
    dsimp only
    rw [ih _ hp (by omega)]
    simp

theorem TreeInv.ancestry_head (inv : TreeInv t) {l : List ℕ}
    (hl : Path t.heap.children t.root l t.head) :
    ancestry t.heap (t.head + 1) [] t.head = t.root :: l := by
  rw [inv.ancestry_path l [] hl (Nat.lt_succ_self _), append_nil]

/-- A side root does not hold the head. -/
theorem TreeInv.not_reach_of_mem_sideRoots (inv : TreeInv t) :
    ∀ {l : List ℕ} {r : ℕ}, t.InTree r → Path t.heap.children r l t.head →
      w ∈ sideRoots t.heap (r :: l) → ¬ Reach t.heap.children w t.head
  | [], r, hr, hl, hw, hreach => by
    obtain rfl : r = t.head := hl
    simp only [sideRoots, append_nil] at hw
    have h1 := (mem_children_lt (mem_of_mem_filter hw)).1
    have h2 := inv.isTree.rank_le (hr.tail (mem_of_mem_filter hw)) hreach
    omega
  | c :: l, r, hr, hl, hw, hreach => by
    rw [sideRoots, mem_append] at hw
    rcases hw with hw | hw
    · -- the head lies below the next canonical block only
      obtain ⟨hmem, hne⟩ := mem_filter.mp hw
      have := inv.isTree.siblings_disjoint hr hmem hl.1 hreach hl.2.reach
      subst this
      simp at hne
    · exact inv.not_reach_of_mem_sideRoots (hr.tail hl.1) hl.2 hw hreach

/-- The eviction loop prunes. -/
theorem evict_pruned {root capacity head : ℕ} {canonical : List Hash} :
    ∀ {sides : List ℕ} {h : Heap}, (∀ w ∈ sides, ¬ Reach h.children w head) →
      Pruned h (evict root capacity canonical sides h) head
  | [], _, _ => .rfl'
  | w :: rest, h, hsides => by
    have hw := hsides w mem_cons_self
    rw [evict]
    split_ifs with hcap
    · cases hpar : h.parent w with
      | none => exact .rfl'
      | some p =>
        have pr : Pruned h (h.dropChild p w) head := .dropChild hw
        dsimp only [removeBlockChild]
        split_ifs
        · refine pr.trans (evict_pruned fun v hv hreach => ?_)
          exact hsides v (mem_cons_of_mem _ hv) (pr.reach_of_reach hreach)
        · exact pr
    · exact .rfl'

/-- **Eviction prunes**: the canonical chain is never touched. -/
theorem TreeInv.enforceSideCapacity_pruned (inv : TreeInv t) (capacity : ℕ) :
    ∃ h', t.enforceSideCapacity capacity = { t with heap := h' } ∧
      Pruned t.heap h' t.head := by
  obtain ⟨l, hl⟩ := inv.inTree_head.exists_path
  rw [enforceSideCapacity, inv.ancestry_head hl]
  refine ⟨_, rfl, evict_pruned fun w hw => ?_⟩
  rw [mem_mergeSort] at hw
  exact inv.not_reach_of_mem_sideRoots t.inTree_root hl hw

end Hacash
