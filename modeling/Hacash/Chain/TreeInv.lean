import Hacash.Chain.Tree

/-!
# The fork-tree invariant

Below the durable root is a tree of frozen blocks with distinct hashes, and root, scheduled root and
head lie on one branch.
-/

namespace Hacash

open Lib List Heap

/-- What a chunk leads to is younger. -/
theorem Heap.le_of_reach {h : Heap} {a b : ℕ} (hab : Reach h.children a b) : a ≤ b := by
  induction hab with
  | refl => exact le_rfl
  | tail _ hc ih => exact ih.trans (mem_children_lt hc).1.le

/-- The chunk at `p` belongs to the tree. -/
def Tree.InTree (t : Tree) (p : ℕ) : Prop := Reach t.heap.children t.root p

theorem Tree.inTree_root (t : Tree) : t.InTree t.root := Reach.refl _

theorem Tree.InTree.root_le {t : Tree} {p : ℕ} (hp : t.InTree p) : t.root ≤ p :=
  le_of_reach hp

/-- The chunk at `p` is a frozen block with an identity. -/
def IsAttached (h : Heap) (p : ℕ) : Prop :=
  ∃ height identity δ, h.origin p = some (.block height (some identity)) ∧
    h.body p = some (.frozen δ)

/-- The invariant of the fork tree. -/
structure TreeInv (t : Tree) : Prop where
  /-- Every chunk of the tree is a frozen identified block. -/
  attached : ∀ {p}, t.InTree p → IsAttached t.heap p
  /-- A child reads from the chunk that retains it. -/
  source : ∀ {p q}, t.InTree p → q ∈ t.heap.children p → t.heap.source q = some (.parent p)
  /-- A child is one block higher. -/
  height : ∀ {p q}, t.InTree p → q ∈ t.heap.children p →
    heightOf t.heap q = heightOf t.heap p + 1
  nodup : ∀ {p}, t.InTree p → (t.heap.children p).Nodup
  /-- No two chunks share a block hash. -/
  distinct : ∀ {p q}, t.InTree p → t.InTree q → hashOf t.heap p = hashOf t.heap q → p = q
  rootDisk : t.heap.source t.root = some .disk
  scheduled : t.InTree t.scheduledRoot
  head : Reach t.heap.children t.scheduledRoot t.head
  /-- A chunk of this tree's age that is still writable retains nothing. -/
  leaf : ∀ {p δ}, t.root ≤ p → t.heap.writable p = some δ → t.heap.children p = []

namespace TreeInv

variable {t : Tree} {a b p q r : ℕ} (inv : TreeInv t)
include inv

/-! ## Structure -/

theorem inTree_head : t.InTree t.head := inv.scheduled.trans inv.head

theorem isSome_cell (hp : t.InTree p) : (t.heap.cell p).isSome := by
  obtain ⟨height, identity, δ, ho, -⟩ := inv.attached hp
  unfold origin at ho
  cases hc : t.heap.cell p with
  | none =>
    rw [hc] at ho
    cases ho
  | some c => rfl

theorem parent_child (hp : t.InTree p) (hq : q ∈ t.heap.children p) : t.heap.parent q = some p :=
  parent_eq_some.mpr ⟨inv.source hp hq, inv.isSome_cell hp⟩

theorem parent_root : t.heap.parent t.root = none := by
  cases hp : t.heap.parent t.root with
  | none => rfl
  | some q =>
    have := (parent_eq_some.mp hp).1
    rw [inv.rootDisk] at this
    cases this

theorem isTree : IsTree t.heap.children (fun p => p) t.root where
  rank_lt _ hc := (mem_children_lt hc).1
  nodup hp := inv.nodup hp
  unique hp hq hc hc' := by
    have h1 := inv.source hp hc
    rw [inv.source hq hc'] at h1
    cases h1
    rfl

theorem exists_parent (hp : t.InTree p) (hne : p ≠ t.root) :
    ∃ q, t.InTree q ∧ p ∈ t.heap.children q ∧ t.heap.parent p = some q := by
  rcases hp.cases_tail with h | ⟨q, hq, hpq⟩
  · exact absurd h.symm hne
  · exact ⟨q, hq, hpq, inv.parent_child hq hpq⟩

/-- The tree is closed under parent links. -/
theorem inTree_parent (hp : t.InTree p) (hq : t.heap.parent p = some q) :
    t.InTree q ∧ p ∈ t.heap.children q := by
  have hne : p ≠ t.root := by
    rintro rfl
    rw [inv.parent_root] at hq
    cases hq
  obtain ⟨r, hr, hpr, hpar⟩ := inv.exists_parent hp hne
  rw [hpar, Option.some.injEq] at hq
  exact hq ▸ ⟨hr, hpr⟩

theorem lt_next (hp : t.InTree p) : p < t.heap.next := by
  obtain ⟨c, hc⟩ := Option.isSome_iff_exists.mp (inv.isSome_cell hp)
  exact t.heap.lt_next hc

/-- Heights count the blocks of a path. -/
theorem height_path {l : List ℕ} (ha : t.InTree a) (hl : Path t.heap.children a l b) :
    heightOf t.heap b = heightOf t.heap a + l.length :=
  hl.rank_eq fun _ _ hp hc => inv.height (ha.trans hp) hc

theorem height_le (ha : t.InTree a) (hab : Reach t.heap.children a b) :
    heightOf t.heap a ≤ heightOf t.heap b := by
  obtain ⟨l, hl⟩ := hab.exists_path
  have := inv.height_path ha hl
  omega

/-! ## `find` -/

theorem mem_nodes : p ∈ t.nodes ↔ t.InTree p :=
  inv.isTree.mem_visit_root (N := Finset.range t.heap.next)
    (fun _ hx => Finset.mem_range.mpr (inv.lt_next hx)) (by rw [Finset.card_range])

/-- What `find` returns is in the tree and has the hash asked for. -/
theorem find_eq_some {hash : Hash} (hf : t.find hash = some p) :
    t.InTree p ∧ hashOf t.heap p = hash := by
  unfold Tree.find at hf
  split at hf
  · next heq =>
    cases hf
    exact ⟨inv.inTree_head, heq⟩
  · exact ⟨inv.mem_nodes.mp (mem_of_find?_eq_some hf),
      by simpa using find?_some hf⟩

/-- What `find` does not return is not in the tree. -/
theorem find_eq_none {hash : Hash} (hf : t.find hash = none) (hp : t.InTree p) :
    hashOf t.heap p ≠ hash := by
  unfold Tree.find at hf
  split at hf
  · cases hf
  · rw [find?_eq_none] at hf
    simpa using hf p (inv.mem_nodes.mpr hp)

theorem find_hashOf (hp : t.InTree p) : t.find (hashOf t.heap p) = some p := by
  cases hf : t.find (hashOf t.heap p) with
  | none => exact absurd rfl (inv.find_eq_none hf hp)
  | some q =>
    obtain ⟨hq, heq⟩ := inv.find_eq_some hf
    rw [inv.distinct hq hp heq]

/-! ## Climbing -/

/-- The climbing loop from the end of a path stops at its start, with the path collected. -/
theorem climb_path (ha : t.InTree a) :
    ∀ (l acc : List ℕ) {b n : ℕ}, Path t.heap.children a l b → b < n →
      climb t.heap (heightOf t.heap a) n acc b = some (l ++ acc, a) := by
  intro l
  induction l using reverseRecOn with
  | nil =>
    intro acc b n hl hn
    obtain rfl : a = b := hl
    obtain ⟨n, rfl⟩ : ∃ m, n = m + 1 := ⟨n - 1, by omega⟩
    rw [climb, if_neg (lt_irrefl _)]
    rfl
  | append_singleton l x ih =>
    intro acc b n hl hn
    obtain ⟨p, hp, hx, rfl⟩ := Path.snoc_iff.mp hl
    obtain ⟨n, rfl⟩ : ∃ m, n = m + 1 := ⟨n - 1, by omega⟩
    have hin : t.InTree p := ha.trans hp.reach
    have hlen := inv.height_path ha hp
    have hx' := inv.height hin hx
    have hlt := (mem_children_lt hx).1
    rw [climb, if_pos (by omega), inv.parent_child hin hx]
    simp only
    rw [ih _ hp (by omega), append_assoc]
    rfl

section

variable {l : List ℕ} (ha : t.InTree a) (hl : Path t.heap.children a l b)
include ha hl

theorem mem_path (hap : Reach t.heap.children a p) (hne : p ≠ a) (hpb : Reach t.heap.children p b) :
    p ∈ l := by
  obtain ⟨l₁, hl₁⟩ := hap.exists_path
  obtain ⟨l₂, hl₂⟩ := hpb.exists_path
  rw [inv.isTree.path_unique ha hl (hl₁.append hl₂)]
  obtain ⟨pre, hpre⟩ := hl₁.cons_eq_snoc
  have hmem : p ∈ a :: l₁ := by
    rw [hpre]
    exact mem_append_right _ (mem_singleton_self p)
  exact mem_append_left _ ((mem_cons.mp hmem).resolve_left hne)

/-- The blocks of a path lie above its start. -/
theorem height_lt_of_mem (hp : p ∈ l) : heightOf t.heap a < heightOf t.heap p := by
  obtain ⟨q, hq, hpq⟩ := hl.exists_parent hp
  have haq : Reach t.heap.children a q := by
    rcases mem_cons.mp hq with rfl | hq
    · exact Reach.refl _
    · exact (hl.reach_of_mem hq).1
  have h1 := inv.height (ha.trans haq) hpq
  have h2 := inv.height_le ha haq
  omega

end

theorem exists_height : ∀ {l : List ℕ} {a b : ℕ}, t.InTree a →
    Path t.heap.children a l b → ∀ {h : ℕ}, heightOf t.heap a < h → h ≤ heightOf t.heap b →
    ∃ x ∈ l, heightOf t.heap x = h
  | [], a, b, _, hl, h, hgt, hle => by
    obtain rfl : a = b := hl
    omega
  | c :: l, a, b, ha, hl, h, hgt, hle => by
    have hstep := inv.height ha hl.1
    by_cases hc : h = heightOf t.heap c
    · exact ⟨c, mem_cons_self, hc.symm⟩
    · obtain ⟨x, hx, hh⟩ := exists_height (ha.tail hl.1) hl.2 (by omega) hle
      exact ⟨x, mem_cons_of_mem _ hx, hh⟩

/-- Climbing to a height not below the root's arrives at the ancestor of that height. -/
theorem climb_to {target n : ℕ} (hb : t.InTree b) (hlow : heightOf t.heap t.root ≤ target)
    (hn : b < n) : ∃ l a, t.InTree a ∧ Path t.heap.children a l b ∧
      climb t.heap target n [] b = some (l, a) ∧
      heightOf t.heap a = min target (heightOf t.heap b) := by
  obtain ⟨l, hl⟩ := hb.exists_path
  have hlen := inv.height_path t.inTree_root hl
  by_cases htop : heightOf t.heap b ≤ target
  · refine ⟨[], b, hb, rfl, ?_, by omega⟩
    obtain ⟨n, rfl⟩ : ∃ m, n = m + 1 := ⟨n - 1, by omega⟩
    rw [climb, if_neg (by omega)]
  · -- cut the path from the root at the wanted height
    have hsplit : l = l.take (target - heightOf t.heap t.root) ++
        l.drop (target - heightOf t.heap t.root) := (take_append_drop _ l).symm
    rw [hsplit] at hl
    obtain ⟨a, hra, hab⟩ := hl.split
    have hin : t.InTree a := hra.reach
    have hha := inv.height_path t.inTree_root hra
    rw [length_take] at hha
    have heq : heightOf t.heap a = target := by omega
    refine ⟨_, a, hin, hab, ?_, by omega⟩
    have hclimb := inv.climb_path hin _ [] hab hn
    rwa [append_nil, heq] at hclimb

end TreeInv

end Hacash
