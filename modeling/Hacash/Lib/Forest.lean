import Mathlib

/-!
# Pointer forests

A forest is a map from a node to the list of its children. In a tree there is exactly one path
between two nodes (`IsTree.path_unique`).
-/

namespace Hacash.Lib

open List Relation

universe u

variable {α : Type u}

/-- `b` lies in the subtree of `a`: a path of children lists leads there. -/
def Reach (kids : α → List α) : α → α → Prop :=
  ReflTransGen fun p c => c ∈ kids p

namespace Reach

variable {kids kids' : α → List α} {a b c : α}

@[refl] theorem refl (a : α) : Reach kids a a := ReflTransGen.refl

theorem step (h : b ∈ kids a) : Reach kids a b :=
  ReflTransGen.single h

theorem trans (h₁ : Reach kids a b) (h₂ : Reach kids b c) : Reach kids a c :=
  ReflTransGen.trans h₁ h₂

theorem tail (h₁ : Reach kids a b) (h₂ : c ∈ kids b) : Reach kids a c :=
  ReflTransGen.tail h₁ h₂

theorem head (h₁ : b ∈ kids a) (h₂ : Reach kids b c) : Reach kids a c :=
  ReflTransGen.head h₁ h₂

/-- A path is empty or leaves through a child. -/
theorem cases_head (h : Reach kids a c) : a = c ∨ ∃ b ∈ kids a, Reach kids b c := by
  rcases ReflTransGen.cases_head h with rfl | ⟨b, hb, hbc⟩
  · exact .inl rfl
  · exact .inr ⟨b, hb, hbc⟩

/-- A path is empty or enters through a parent. -/
theorem cases_tail (h : Reach kids a c) : a = c ∨ ∃ b, Reach kids a b ∧ c ∈ kids b := by
  rcases ReflTransGen.cases_tail h with rfl | ⟨b, hab, hbc⟩
  · exact .inl rfl
  · exact .inr ⟨b, hab, hbc⟩

/-- Fewer edges, fewer paths. -/
theorem mono (hk : ∀ p c, c ∈ kids' p → c ∈ kids p) (h : Reach kids' a b) : Reach kids a b := by
  induction h with
  | refl => exact Reach.refl _
  | tail _ hc ih => exact ih.tail (hk _ _ hc)

/-- A node without children reaches itself only. -/
theorem eq_of_leaf (hleaf : kids a = []) (h : Reach kids a b) : a = b := by
  rcases h.cases_head with rfl | ⟨c, hc, -⟩
  · rfl
  · rw [hleaf] at hc
    cases hc

end Reach

open Reach

/-- Below `root` the children lists form a tree ranked by `rank`. -/
structure IsTree (kids : α → List α) (rank : α → ℕ) (root : α) : Prop where
  rank_lt : ∀ {p c}, Reach kids root p → c ∈ kids p → rank p < rank c
  nodup : ∀ {p}, Reach kids root p → (kids p).Nodup
  unique : ∀ {p q c}, Reach kids root p → Reach kids root q →
    c ∈ kids p → c ∈ kids q → p = q

namespace IsTree

variable {kids : α → List α} {rank : α → ℕ} {root a b c p x : α}

section

variable (t : IsTree kids rank root)
include t

/-- The rank grows along every path of the tree. -/
theorem rank_le (ha : Reach kids root a) (h : Reach kids a b) : rank a ≤ rank b := by
  induction h with
  | refl => exact Nat.le_refl _
  | tail hab hc ih => exact ih.trans (t.rank_lt (ha.trans hab) hc).le

/-- The ancestors of a node form a chain. -/
theorem linear (ha : Reach kids root a)
    (hb : Reach kids root b) (hax : Reach kids a x) (hbx : Reach kids b x) :
    Reach kids a b ∨ Reach kids b a := by
  induction hax with
  | refl => exact .inr hbx
  | tail hay hy ih =>
    rcases hbx.cases_tail with rfl | ⟨z, hbz, hz⟩
    · exact .inl (hay.tail hy)
    · -- both paths enter `x` through its only parent
      have hyz := t.unique (ha.trans hay) (hb.trans hbz) hy hz
      subst hyz
      exact ih hbz

/-- A path back up the tree is empty. -/
theorem antisymm (ha : Reach kids root a)
    (hab : Reach kids a b) (hba : Reach kids b a) : a = b := by
  rcases hab.cases_tail with h | ⟨z, haz, hz⟩
  · exact h
  · have h1 := t.rank_le ha haz
    have h2 := t.rank_lt (ha.trans haz) hz
    have h3 := t.rank_le (ha.trans hab) hba
    omega

/-- The subtrees of two siblings are disjoint. -/
theorem siblings_disjoint (hp : Reach kids root p)
    (ha : a ∈ kids p) (hb : b ∈ kids p) (hax : Reach kids a x) (hbx : Reach kids b x) : a = b := by
  have key : ∀ {u v}, u ∈ kids p → v ∈ kids p → Reach kids u v → u = v := by
    intro u v hu hv huv
    rcases huv.cases_tail with h | ⟨z, huz, hz⟩
    · exact h
    · -- `v` has the one parent `p`, which would lie below its own child `u`
      have hzp := t.unique ((hp.tail hu).trans huz) hp hz hv
      subst hzp
      have h1 := t.rank_lt hp hu
      have h2 := t.rank_le (hp.tail hu) huz
      omega
  rcases t.linear (hp.tail ha) (hp.tail hb) hax hbx with h | h
  · exact key ha hb h
  · exact (key hb ha h).symm

end

end IsTree

/-! ## Paths -/

/-- `l` lists the nodes strictly below `a` on a path down to `b`. -/
def Path (kids : α → List α) : α → List α → α → Prop
  | a, [], b => a = b
  | a, c :: l, b => c ∈ kids a ∧ Path kids c l b

namespace Path

variable {kids kids' : α → List α} {a b c x : α} {l l' : List α}

theorem reach : ∀ {l : List α} {a : α}, Path kids a l b → Reach kids a b
  | [], _, h => h ▸ refl _
  | _ :: _, _, h => head h.1 h.2.reach

theorem append : ∀ {l : List α} {a : α}, Path kids a l b → Path kids b l' c →
    Path kids a (l ++ l') c
  | [], _, h, h' => by
    obtain rfl : _ = b := h
    exact h'
  | _ :: _, _, h, h' => ⟨h.1, h.2.append h'⟩

/-- A path can be cut anywhere. -/
theorem split : ∀ {l : List α} {a : α}, Path kids a (l ++ l') c →
    ∃ b, Path kids a l b ∧ Path kids b l' c
  | [], a, h => ⟨a, rfl, h⟩
  | _ :: _, _, h => by
    obtain ⟨b, hl, hl'⟩ := h.2.split
    exact ⟨b, ⟨h.1, hl⟩, hl'⟩

theorem snoc_iff : Path kids a (l ++ [x]) b ↔ ∃ p, Path kids a l p ∧ x ∈ kids p ∧ x = b := by
  constructor
  · intro h
    obtain ⟨p, hl, hx, hb⟩ := h.split
    exact ⟨p, hl, hx, hb⟩
  · rintro ⟨p, hl, hx, rfl⟩
    exact hl.append ⟨hx, rfl⟩

/-- Every node of a path lies between its ends. -/
theorem reach_of_mem : ∀ {l : List α} {a : α}, Path kids a l b → x ∈ l →
    Reach kids a x ∧ Reach kids x b
  | c :: l, a, h, hx => by
    rcases mem_cons.mp hx with rfl | hx
    · exact ⟨step h.1, h.2.reach⟩
    · obtain ⟨h1, h2⟩ := h.2.reach_of_mem hx
      exact ⟨head h.1 h1, h2⟩

theorem cons_eq_snoc : ∀ {l : List α} {a : α}, Path kids a l b → ∃ pre, a :: l = pre ++ [b]
  | [], a, h => ⟨[], by rw [show a = b from h]; rfl⟩
  | c :: l, a, h => by
    obtain ⟨pre, hpre⟩ := h.2.cons_eq_snoc
    exact ⟨a :: pre, by rw [hpre, cons_append]⟩

/-- Neighbours on a path are joined by an edge. -/
theorem consecutive : ∀ {l : List α} {a x y : α} {pre post : List α}, Path kids a l b →
    a :: l = pre ++ x :: y :: post → y ∈ kids x
  | [], _, _, _, pre, _, _, heq => by
    have := congrArg List.length heq
    rw [length_append, length_cons, length_cons, length_cons,
      length_nil] at this
    omega
  | c :: l, a, x, y, [], post, h, heq => by
    simp only [nil_append, List.cons.injEq] at heq
    obtain ⟨rfl, rfl, -⟩ := heq
    exact h.1
  | c :: l, a, x, y, _ :: pre, post, h, heq => by
    simp only [cons_append, List.cons.injEq] at heq
    exact h.2.consecutive heq.2

theorem exists_parent : ∀ {l : List α} {a : α}, Path kids a l b → x ∈ l →
    ∃ p ∈ a :: l, x ∈ kids p
  | c :: l, a, h, hx => by
    rcases mem_cons.mp hx with rfl | hx
    · exact ⟨a, mem_cons_self, h.1⟩
    · obtain ⟨p, hp, hxp⟩ := h.2.exists_parent hx
      exact ⟨p, mem_cons_of_mem _ hp, hxp⟩

theorem rank_eq {rank : α → ℕ} : ∀ {l : List α} {a : α},
    (∀ p c, Reach kids a p → c ∈ kids p → rank c = rank p + 1) → Path kids a l b →
    rank b = rank a + l.length
  | [], _, _, h => by
    obtain rfl : _ = b := h
    rfl
  | c :: l, a, hr, h => by
    have h1 := hr a c (refl a) h.1
    have h2 := rank_eq (fun p d hp => hr p d (head h.1 hp)) h.2
    rw [length_cons]
    omega

/-- Fewer edges, fewer paths. -/
theorem mono (hk : ∀ p c, c ∈ kids p → c ∈ kids' p) :
    ∀ {l : List α} {a : α}, Path kids a l b → Path kids' a l b
  | [], _, h => h
  | _ :: _, _, h => ⟨hk _ _ h.1, h.2.mono hk⟩

end Path

theorem Reach.exists_path {kids : α → List α} {a b : α} (h : Reach kids a b) :
    ∃ l, Path kids a l b := by
  induction h with
  | refl => exact ⟨[], rfl⟩
  | tail _ hc ih =>
    obtain ⟨l, hl⟩ := ih
    exact ⟨l ++ [_], Path.snoc_iff.mpr ⟨_, hl, hc, rfl⟩⟩

/-- A tree has one path between two nodes. -/
theorem IsTree.path_unique {kids : α → List α} {rank : α → ℕ} {root b : α}
    (t : IsTree kids rank root) : ∀ {l l' : List α} {a : α}, Reach kids root a →
      Path kids a l b → Path kids a l' b → l = l'
  | [], [], _, _, _, _ => rfl
  | [], c :: l', a, ha, h, h' => by
    obtain rfl : a = b := h
    have h1 := t.rank_lt ha h'.1
    have h2 := t.rank_le (ha.tail h'.1) h'.2.reach
    omega
  | c :: l, [], a, ha, h, h' => by
    obtain rfl : a = b := h'
    have h1 := t.rank_lt ha h.1
    have h2 := t.rank_le (ha.tail h.1) h.2.reach
    omega
  | c :: l, d :: l', a, ha, h, h' => by
    obtain rfl := t.siblings_disjoint ha h.1 h'.1 h.2.reach h'.2.reach
    rw [t.path_unique (ha.tail h.1) h.2 h'.2]

/-! ## The explicit-stack walk -/

/-- Pop order of the loop that pops a node and pushes its children. -/
def visit (kids : α → List α) : ℕ → List α → List α
  | 0, _ => []
  | _ + 1, [] => []
  | n + 1, p :: stack => p :: visit kids n ((kids p).reverse ++ stack)

theorem reach_of_mem_visit {kids : α → List α} {x : α} :
    ∀ (n : ℕ) (stack : List α), x ∈ visit kids n stack →
      ∃ s ∈ stack, Reach kids s x
  | 0, _, h => by cases h
  | _ + 1, [], h => by cases h
  | n + 1, p :: stack, h => by
    rcases mem_cons.mp h with rfl | h
    · exact ⟨x, mem_cons_self, refl x⟩
    · obtain ⟨s, hs, hsx⟩ := reach_of_mem_visit n _ h
      rcases mem_append.mp hs with hk | hst
      · exact ⟨p, mem_cons_self, head (mem_reverse.mp hk) hsx⟩
      · exact ⟨s, mem_cons_of_mem _ hst, hsx⟩

section

variable (kids : α → List α) (N : Finset α)

open Classical in
/-- The part of `N` below `p`: what the loop pays for popping `p` and
everything pushed because of it. -/
noncomputable def below (p : α) : Finset α := N.filter (Reach kids p)

/-- Number of nodes of `N` below `p`. -/
noncomputable def weight (p : α) : ℕ := (below kids N p).card

variable {kids N} {rank : α → ℕ} {root p : α}

theorem mem_below {x : α} : x ∈ below kids N p ↔ x ∈ N ∧ Reach kids p x := by
  simp only [below, Finset.mem_filter]

theorem weight_le_card : weight kids N p ≤ N.card :=
  Finset.card_le_card fun _ hx => (mem_below.mp hx).1

/-- Children weigh less than their parent: their subtrees are disjoint and do not hold it. -/
theorem IsTree.weight_kids (t : IsTree kids rank root) (hp : Reach kids root p) (hin : p ∈ N) :
    ((kids p).map (weight kids N)).sum + 1 ≤ weight kids N p := by
  classical
  have hdisj : ∀ l : List α, l.Nodup → (∀ c ∈ l, c ∈ kids p) →
      ∃ U : Finset α, U.card = (l.map (weight kids N)).sum ∧
        ∀ x, x ∈ U ↔ ∃ c ∈ l, x ∈ below kids N c := by
    intro l
    induction l with
    | nil =>
      intro _ _
      exact ⟨∅, rfl, by simp⟩
    | cons c l ih =>
      intro hnd hsub
      obtain ⟨hc, hnd'⟩ := nodup_cons.mp hnd
      obtain ⟨U, hcard, hmem⟩ := ih hnd' fun d hd => hsub d (mem_cons_of_mem _ hd)
      refine ⟨below kids N c ∪ U, ?_, ?_⟩
      · rw [Finset.card_union_of_disjoint, hcard]
        · rfl
        · rw [Finset.disjoint_left]
          intro x hx hU
          obtain ⟨d, hd, hxd⟩ := (hmem x).mp hU
          have hcd := t.siblings_disjoint hp (hsub c mem_cons_self)
            (hsub d (mem_cons_of_mem _ hd)) (mem_below.mp hx).2 (mem_below.mp hxd).2
          exact hc (hcd ▸ hd)
      · intro x
        simp [hmem x]
  obtain ⟨U, hcard, hmem⟩ := hdisj (kids p) (t.nodup hp) fun _ h => h
  have hnp : p ∉ U := by
    intro hU
    obtain ⟨c, hc, hpc⟩ := (hmem p).mp hU
    have h1 := t.rank_lt hp hc
    have h2 := t.rank_le (hp.tail hc) (mem_below.mp hpc).2
    omega
  have hsub : insert p U ⊆ below kids N p := by
    intro x hx
    rcases Finset.mem_insert.mp hx with rfl | hU
    · exact mem_below.mpr ⟨hin, refl _⟩
    · obtain ⟨c, hc, hxc⟩ := (hmem x).mp hU
      exact mem_below.mpr ⟨(mem_below.mp hxc).1, head hc (mem_below.mp hxc).2⟩
  calc ((kids p).map (weight kids N)).sum + 1
      = (insert p U).card := by rw [Finset.card_insert_of_notMem hnp, hcard]
    _ ≤ weight kids N p := Finset.card_le_card hsub

section

variable (t : IsTree kids rank root) (hin : ∀ x, Reach kids root x → x ∈ N)
include t hin

theorem IsTree.visit_complete : ∀ (n : ℕ) (stack : List α), (∀ s ∈ stack, Reach kids root s) →
      (stack.map (weight kids N)).sum ≤ n →
      ∀ s ∈ stack, ∀ x, Reach kids s x → x ∈ visit kids n stack := by
  intro n
  induction n with
  | zero =>
    intro stack hst hfuel s hs x hsx
    -- a stack entry weighs at least one, so an empty budget means no entry
    have h1 := t.weight_kids (N := N) (hst s hs) (hin s (hst s hs))
    have h2 := single_le_sum (l := stack.map (weight kids N)) (by simp)
      (weight kids N s) (mem_map_of_mem hs)
    omega
  | succ n ih =>
    intro stack hst hfuel s hs x hsx
    cases stack with
    | nil => cases hs
    | cons p stack =>
      have hp := hst p mem_cons_self
      have hw := t.weight_kids (N := N) hp (hin p hp)
      have hst' : ∀ q ∈ (kids p).reverse ++ stack, Reach kids root q := by
        intro q hq
        rcases mem_append.mp hq with hq | hq
        · exact hp.tail (mem_reverse.mp hq)
        · exact hst q (mem_cons_of_mem _ hq)
      have hfuel' : (((kids p).reverse ++ stack).map (weight kids N)).sum ≤ n := by
        rw [map_append, sum_append, map_reverse, sum_reverse]
        rw [map_cons, sum_cons] at hfuel
        omega
      show x ∈ p :: visit kids n ((kids p).reverse ++ stack)
      rcases mem_cons.mp hs with rfl | hs
      · rcases hsx.cases_head with rfl | ⟨c, hc, hcx⟩
        · exact mem_cons_self
        · refine mem_cons_of_mem _ (ih _ hst' hfuel' c ?_ x hcx)
          exact mem_append_left _ (mem_reverse.mpr hc)
      · refine mem_cons_of_mem _ (ih _ hst' hfuel' s ?_ x hsx)
        exact mem_append_right _ hs

theorem IsTree.mem_visit_root {n : ℕ} (hn : N.card ≤ n) {x : α} :
    x ∈ visit kids n [root] ↔ Reach kids root x := by
  constructor
  · intro h
    obtain ⟨s, hs, hsx⟩ := reach_of_mem_visit n _ h
    rw [mem_singleton] at hs
    exact hs ▸ hsx
  · intro h
    refine t.visit_complete (N := N) hin n [root] ?_ ?_ root (by simp) x h
    · intro s hs
      rw [mem_singleton] at hs
      exact hs ▸ refl _
    · simpa using weight_le_card.trans hn

end

end

theorem IsTree.visit_nodup {kids : α → List α} {rank : α → ℕ} {root : α}
    (t : IsTree kids rank root) : ∀ (n : ℕ) (stack : List α), (∀ s ∈ stack, Reach kids root s) →
      stack.Pairwise (fun a b => ∀ x, Reach kids a x → ¬ Reach kids b x) →
      (visit kids n stack).Nodup
  | 0, _, _, _ => nodup_nil
  | _ + 1, [], _, _ => nodup_nil
  | n + 1, p :: stack, hst, hdisj => by
    obtain ⟨hp, hrest⟩ := pairwise_cons.mp hdisj
    have hroot := hst p mem_cons_self
    refine nodup_cons.mpr ⟨fun hmem => ?_, t.visit_nodup n _ ?_ ?_⟩
    · -- the node itself lies below neither its children nor the rest of the stack
      obtain ⟨s, hs, hsp⟩ := reach_of_mem_visit n _ hmem
      rcases mem_append.mp hs with hs | hs
      · have hk := mem_reverse.mp hs
        have h1 := t.rank_lt hroot hk
        have h2 := t.rank_le (hroot.tail hk) hsp
        omega
      · exact hp s hs p (refl p) hsp
    · intro s hs
      rcases mem_append.mp hs with hs | hs
      · exact hroot.tail (mem_reverse.mp hs)
      · exact hst s (mem_cons_of_mem _ hs)
    · refine pairwise_append.mpr ⟨?_, hrest, fun a ha b hb x hax => ?_⟩
      · refine pairwise_reverse.mpr (List.Pairwise.imp_of_mem ?_ (t.nodup hroot))
        intro a b ha hb hne x hbx hax
        exact hne (t.siblings_disjoint hroot ha hb hax hbx)
      · exact hp b hb x (head (mem_reverse.mp ha) hax)

/-! ## Edits -/

section

variable {kids kids' : α → List α} {p q x y : α}

/-- Attaching a childless node `p` below `q` adds the paths into `p` and no other. -/
theorem reach_addLeaf (hleaf : kids' p = [])
    (hadd : ∀ a c, c ∈ kids' a ↔ c ∈ kids a ∨ (a = q ∧ c = p)) :
    Reach kids' x y ↔ Reach kids x y ∨ (Reach kids x q ∧ y = p) := by
  have hmono : ∀ {x y}, Reach kids x y → Reach kids' x y :=
    fun h => h.mono fun a c hc => (hadd a c).mpr (.inl hc)
  constructor
  · intro h
    induction h with
    | refl => exact .inl (refl _)
    | tail _ hc ih =>
      rcases ih with ih | ⟨-, rfl⟩
      · rcases (hadd _ _).mp hc with hc | ⟨rfl, rfl⟩
        · exact .inl (ih.tail hc)
        · exact .inr ⟨ih, rfl⟩
      · rw [hleaf] at hc
        cases hc
  · rintro (h | ⟨h, rfl⟩)
    · exact hmono h
    · exact (hmono h).tail ((hadd _ _).mpr (.inr ⟨rfl, rfl⟩))

/-- Cutting the edges into the nodes `cut` removes their subtrees and nothing else. -/
theorem IsTree.reach_cut {rank : α → ℕ} {root : α} (t : IsTree kids rank root) {cut : List α}
    (hin : ∀ w ∈ cut, Reach kids root w) (hroot : root ∉ cut)
    (hcut : ∀ a c, Reach kids root a → (c ∈ kids' a ↔ c ∈ kids a ∧ c ∉ cut)) :
    Reach kids' root x ↔ Reach kids root x ∧ ∀ w ∈ cut, ¬ Reach kids w x := by
  constructor
  · intro h
    induction h with
    | refl =>
      refine ⟨refl _, fun w hw hreach => ?_⟩
      have := t.antisymm (refl _) (hin w hw) hreach
      exact hroot (this ▸ hw)
    | @tail a c _ hc ih =>
      obtain ⟨hkeep, hnot⟩ := (hcut a c ih.1).mp hc
      refine ⟨ih.1.tail hkeep, fun w hw hreach => ?_⟩
      rcases hreach.cases_tail with rfl | ⟨z, hz, hcz⟩
      · exact hnot hw
      · -- the one parent of the node lies below `w` already
        have := t.unique ((hin w hw).trans hz) ih.1 hcz hkeep
        exact ih.2 w hw (this ▸ hz)
  · rintro ⟨h, hout⟩
    induction h with
    | refl => exact refl _
    | @tail a c ha hc ih =>
      have hkept := ih fun w hw hreach => hout w hw (hreach.tail hc)
      exact hkept.tail ((hcut a c ha).mpr ⟨hc, fun hmem => hout c hmem (refl c)⟩)

/-- When every edge below `x` on a way to `z` is kept, so is every path from `x`
to an ancestor of `z`. -/
theorem Path.keep {z : α} (hb : Reach kids y z) : ∀ {l : List α} {x : α},
    (∀ a c, Reach kids x a → c ∈ kids a → Reach kids c z → c ∈ kids' a) →
    Path kids x l y → Path kids' x l y
  | [], _, _, hl => hl
  | _ :: _, x, hk, hl =>
    ⟨hk x _ (refl x) hl.1 (hl.2.reach.trans hb),
      hl.2.keep hb fun a c ha => hk a c (head hl.1 ha)⟩

end

end Hacash.Lib
