import Mathlib.Data.List.Perm.Lattice

/-!
# Binary trees under a hash of pairs

A root binds what is under it, if no pairs collide and no leaf is a merged pair
(`HashTree.leaf_mem_values`).
-/

namespace Hacash.Lib

open List

/-- A binary tree with values at its leaves. -/
inductive HashTree (α : Type) where
  | leaf (a : α)
  | node (left right : HashTree α)

namespace HashTree

variable {α : Type}

/-- The values at the leaves. -/
def leaves : HashTree α → List α
  | leaf a => [a]
  | node l r => l.leaves ++ r.leaves

variable (merge : α → α → α)

/-- The value of the tree. -/
def root : HashTree α → α
  | leaf a => a
  | node l r => merge l.root r.root

/-- The values of all nodes. -/
def values : HashTree α → List α
  | leaf a => [a]
  | node l r => merge (l.root merge) (r.root merge) :: (l.values ++ r.values)

/-- The pairs that are merged. -/
def merged : HashTree α → List (α × α)
  | leaf _ => []
  | node l r => (l.root merge, r.root merge) :: (l.merged ++ r.merged)

variable {merge}

theorem root_mem_values (t : HashTree α) : t.root merge ∈ t.values merge := by
  cases t with
  | leaf a => exact mem_singleton_self a
  | node l r => exact mem_cons_self

/-- Pairs of the two trees with one value are the same pair, in one order or the other. -/
def Separate (merge : α → α → α) (t u : HashTree α) : Prop :=
  ∀ p ∈ t.merged merge, ∀ q ∈ u.merged merge, merge p.1 p.2 = merge q.1 q.2 →
    p = q ∨ p = q.swap

/-- No leaf of the second tree is the value of a pair of the first. -/
def LeavesApart (merge : α → α → α) (t u : HashTree α) : Prop :=
  ∀ p ∈ t.merged merge, merge p.1 p.2 ∉ u.leaves

instance [DecidableEq α] (t u : HashTree α) : Decidable (Separate merge t u) :=
  inferInstanceAs (Decidable (∀ p ∈ t.merged merge, ∀ q ∈ u.merged merge,
    merge p.1 p.2 = merge q.1 q.2 → p = q ∨ p = q.swap))

instance [DecidableEq α] (t u : HashTree α) : Decidable (LeavesApart merge t u) :=
  inferInstanceAs (Decidable (∀ p ∈ t.merged merge, merge p.1 p.2 ∉ u.leaves))

theorem leaf_mem_values {t u : HashTree α} (hsep : Separate merge t u)
    (hapart : LeavesApart merge t u) (hroot : t.root merge = u.root merge) :
    ∀ a ∈ t.leaves, a ∈ u.values merge := by
  induction t generalizing u with
  | leaf b =>
    intro a ha
    have hb : b = u.root merge := hroot
    rw [mem_singleton.mp ha, hb]
    exact root_mem_values u
  | node l r ihl ihr =>
    cases u with
    | leaf b => exact absurd (mem_singleton.mpr hroot) (hapart _ mem_cons_self)
    | node l' r' =>
      -- a part of the first tree against a part of the second
      have hpart : ∀ {x y : HashTree α}, x.merged merge ⊆ (node l r).merged merge →
          y.merged merge ⊆ (node l' r').merged merge → y.leaves ⊆ (node l' r').leaves →
          Separate merge x y ∧ LeavesApart merge x y :=
        fun hx hy hleaves => ⟨fun p hp q hq => hsep p (hx hp) q (hy hq),
          fun p hp hmem => hapart p (hx hp) (hleaves hmem)⟩
      have hl : ∀ v w : HashTree α, v.merged merge ⊆ (node v w).merged merge :=
        fun v w p hp => mem_cons_of_mem _ (mem_append_left _ hp)
      have hr : ∀ v w : HashTree α, w.merged merge ⊆ (node v w).merged merge :=
        fun v w p hp => mem_cons_of_mem _ (mem_append_right _ hp)
      have hvl : l'.values merge ⊆ (node l' r').values merge :=
        fun a ha => mem_cons_of_mem _ (mem_append_left _ ha)
      have hvr : r'.values merge ⊆ (node l' r').values merge :=
        fun a ha => mem_cons_of_mem _ (mem_append_right _ ha)
      have hleft : l'.leaves ⊆ (node l' r').leaves := fun a => mem_append_left _
      have hright : r'.leaves ⊆ (node l' r').leaves := fun a => mem_append_right _
      intro a ha
      rcases hsep _ mem_cons_self _ mem_cons_self hroot with heq | heq
      · obtain ⟨hll, hrr⟩ := Prod.mk.inj heq
        rcases mem_append.mp ha with ha | ha
        · obtain ⟨hs, hp⟩ := hpart (hl l r) (hl l' r') hleft
          exact hvl (ihl hs hp hll a ha)
        · obtain ⟨hs, hp⟩ := hpart (hr l r) (hr l' r') hright
          exact hvr (ihr hs hp hrr a ha)
      · obtain ⟨hlr, hrl⟩ := Prod.mk.inj heq
        rcases mem_append.mp ha with ha | ha
        · obtain ⟨hs, hp⟩ := hpart (hl l r) (hr l' r') hright
          exact hvr (ihl hs hp hlr a ha)
        · obtain ⟨hs, hp⟩ := hpart (hr l r) (hl l' r') hleft
          exact hvl (ihr hs hp hrl a ha)

end HashTree

end Hacash.Lib
