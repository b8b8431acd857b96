import Mathlib.Data.Set.Function
import Mathlib.Data.List.Basic

/-!
# Trees over the pairs of a layer

A list is folded by merging neighbours, layer by layer; the last element of an odd layer is merged
with itself. The top binds lists of one length (`Top.inj`).
-/

namespace Hacash.Lib

open List

variable {α : Type*}

/-! ## One layer -/

/-- The neighbours of a layer. The last element of an odd layer is its own neighbour. -/
def pairs : List α → List (α × α)
  | [] => []
  | [a] => [(a, a)]
  | a :: b :: rest => (a, b) :: pairs rest

theorem pairs_length (layer : List α) : (pairs layer).length = (layer.length + 1) / 2 := by
  induction layer using pairs.induct with
  | case1 | case2 a => simp [pairs]
  | case3 a b rest ih =>
    simp only [pairs, length_cons, ih]
    omega

theorem pairs_inj {l₁ l₂ : List α} (hlen : l₁.length = l₂.length) (h : pairs l₁ = pairs l₂) :
    l₁ = l₂ := by
  induction l₁ using pairs.induct generalizing l₂ with
  | case1 => exact (length_eq_zero_iff.mp hlen.symm).symm
  | case2 a =>
    obtain ⟨b, rfl⟩ := length_eq_one_iff.mp hlen.symm
    cases h
    rfl
  | case3 a b rest ih =>
    match l₂, hlen, h with
    | c :: d :: rest₂, hlen, h =>
      obtain ⟨hhead, htail⟩ := List.cons.inj h
      cases hhead
      rw [ih (by simpa using hlen) htail]

theorem pairs_concat_last (layer : List α) (x : α) (hodd : (layer ++ [x]).length % 2 = 1) :
    pairs (layer ++ [x] ++ [x]) = pairs (layer ++ [x]) := by
  induction layer using pairs.induct with
  | case1 => rfl
  | case2 a => simp at hodd
  | case3 a b rest ih =>
    simp only [cons_append, pairs]
    rw [ih (by simp only [length_cons, cons_append] at hodd ⊢; omega)]

/-- The layer above. -/
def pairUp (node : α → α → α) (layer : List α) : List α :=
  (pairs layer).map fun p => node p.1 p.2

variable {node : α → α → α}

@[simp] theorem pairUp_cons (a b : α) (rest : List α) :
    pairUp node (a :: b :: rest) = node a b :: pairUp node rest := rfl

theorem pairUp_length (layer : List α) : (pairUp node layer).length = (layer.length + 1) / 2 := by
  rw [pairUp, length_map, pairs_length]

theorem pairUp_inj {l₁ l₂ : List α} {S : Set (α × α)}
    (hinj : Set.InjOn (fun p : α × α => node p.1 p.2) S) (h₁ : ∀ p ∈ pairs l₁, p ∈ S)
    (h₂ : ∀ p ∈ pairs l₂, p ∈ S) (hlen : l₁.length = l₂.length)
    (h : pairUp node l₁ = pairUp node l₂) : l₁ = l₂ := by
  refine pairs_inj hlen ?_
  have hsame : ∀ {ps qs : List (α × α)}, (∀ p ∈ ps, p ∈ S) → (∀ q ∈ qs, q ∈ S) →
      (ps.map fun p => node p.1 p.2) = (qs.map fun p => node p.1 p.2) → ps = qs := by
    intro ps
    induction ps with
    | nil =>
      intro qs _ _ h
      exact (map_eq_nil_iff.mp h.symm).symm
    | cons p ps ih =>
      intro qs hp hq h
      cases qs with
      | nil => cases h
      | cons q qs =>
        obtain ⟨hhead, htail⟩ := List.cons.inj h
        rw [hinj (hp p mem_cons_self) (hq q mem_cons_self) hhead,
          ih (fun x hx => hp x (mem_cons_of_mem _ hx))
            (fun x hx => hq x (mem_cons_of_mem _ hx)) htail]
  exact hsame h₁ h₂ h

/-! ## All layers -/

/-- Folding the layer ends at `r`. -/
inductive Top (node : α → α → α) : List α → α → Prop
  | leaf (a : α) : Top node [a] a
  | up {layer : List α} {r : α} (hlen : 1 < layer.length) (htop : Top node (pairUp node layer) r) :
      Top node layer r

/-- Every layer but the empty one has a top. -/
theorem exists_top (node : α → α → α) (layer : List α) (hne : layer ≠ []) :
    ∃ r, Top node layer r := by
  match layer, hne with
  | [a], _ => exact ⟨a, .leaf a⟩
  | a :: b :: rest, _ =>
    obtain ⟨r, hr⟩ := exists_top node (pairUp node (a :: b :: rest)) (by simp)
    exact ⟨r, .up (by simp) hr⟩
termination_by layer.length
decreasing_by
  rw [pairUp_length]
  simp only [length_cons]
  omega

/-- The loop that merges the layer while it has more than one element. -/
def climb (merge : List α → List α) : ℕ → List α → List α
  | 0, layer => layer
  | fuel + 1, layer => if 1 < layer.length then climb merge fuel (merge layer) else layer

variable {layer : List α} {r : α} {fuel : ℕ}

theorem climb_pairUp (htop : Top node layer r)
    (hfuel : layer.length ≤ fuel) : climb (pairUp node) fuel layer = [r] := by
  induction htop generalizing fuel with
  | leaf a => cases fuel <;> rfl
  | @up layer r hlen htop ih =>
    cases fuel with
    | zero => omega
    | succ fuel =>
      rw [climb, if_pos hlen]
      exact ih (by rw [pairUp_length]; omega)

/-- The layers that the loop merges. -/
def layers (merge : List α → List α) : ℕ → List α → List (List α)
  | 0, _ => []
  | fuel + 1, layer =>
    if 1 < layer.length then layer :: layers merge fuel (merge layer) else []

/-- The top binds lists of one length, if the node is injective on the pairs merged on the
way from both. -/
theorem Top.inj {S : Set (α × α)} (hinj : Set.InjOn (fun p : α × α => node p.1 p.2) S)
    {l₁ l₂ : List α} (h₁ : Top node l₁ r) (h₂ : Top node l₂ r)
    (hlen : l₁.length = l₂.length) (hfuel : l₁.length ≤ fuel)
    (hS₁ : ∀ layer ∈ layers (pairUp node) fuel l₁, ∀ p ∈ pairs layer, p ∈ S)
    (hS₂ : ∀ layer ∈ layers (pairUp node) fuel l₂, ∀ p ∈ pairs layer, p ∈ S) : l₁ = l₂ := by
  induction h₁ generalizing l₂ fuel with
  | leaf a =>
    obtain ⟨b, rfl⟩ := length_eq_one_iff.mp hlen.symm
    cases h₂ with
    | leaf => rfl
    | up hlen₂ _ => simp at hlen₂
  | @up l₁ r hlen₁ htop ih =>
    cases h₂ with
    | leaf a => rw [hlen] at hlen₁; simp at hlen₁
    | up hlen₂ htop₂ =>
      cases fuel with
      | zero => omega
      | succ fuel =>
        rw [layers, if_pos hlen₁] at hS₁
        rw [layers, if_pos hlen₂] at hS₂
        -- the layers above are equal by induction, and the node is injective on this one
        refine pairUp_inj hinj (hS₁ l₁ mem_cons_self) (hS₂ l₂ mem_cons_self) hlen ?_
        have hup : (pairUp node l₁).length ≤ fuel := by
          rw [pairUp_length]
          omega
        refine ih htop₂ (by rw [pairUp_length, pairUp_length, hlen]) hup ?_ ?_
        · exact fun layer hl => hS₁ layer (mem_cons_of_mem _ hl)
        · exact fun layer hl => hS₂ layer (mem_cons_of_mem _ hl)

theorem Top.concat_last {x : α} (hodd : (layer ++ [x]).length % 2 = 1)
    (hne : layer ≠ []) (h : Top node (layer ++ [x]) r) : Top node (layer ++ [x] ++ [x]) r := by
  have hlen : 1 < (layer ++ [x]).length := by
    have := length_pos_iff.mpr hne
    rw [length_append, length_singleton]
    omega
  generalize hl : layer ++ [x] = l at h hlen
  cases h with
  | leaf => simp at hlen
  | up _ htop =>
    subst hl
    refine .up (by rw [length_append]; omega) ?_
    rw [pairUp, pairs_concat_last layer x hodd]
    exact htop

/-! ## The path of the first leaf -/

/-- The second element of every layer that the loop merges. -/
def siblings (merge : List α → List α) : ℕ → List α → List α
  | 0, _ => []
  | fuel + 1, layer =>
    match layer with
    | _ :: b :: _ => b :: siblings merge fuel (merge layer)
    | _ => []

theorem Top.replace (h : Top node layer r) {a : α} {rest : List α}
    (hlayer : layer = a :: rest) (c : α) (hfuel : layer.length ≤ fuel) :
    Top node (c :: rest) ((siblings (pairUp node) fuel layer).foldl node c) := by
  induction h generalizing a rest c fuel with
  | leaf b =>
    cases hlayer
    cases fuel <;> exact .leaf c
  | @up layer r hlen htop ih =>
    subst hlayer
    match rest, fuel, hlen, hfuel with
    | b :: rest, fuel + 1, hlen, hfuel =>
      -- one layer up, the first leaf is the pair of `c` and its sibling
      refine .up (by simp) ?_
      rw [siblings, foldl_cons, pairUp_cons]
      refine ih (pairUp_cons a b rest) (node c b) ?_
      rw [pairUp_length]
      simp only [length_cons] at hfuel ⊢
      omega

end Hacash.Lib
