import Mathlib

/-!
# Overlays: partial maps with tombstones

A layer says of a key nothing (`none`), that it was deleted (`some none`), or that it holds `v`
(`some (some v)`).
-/

namespace Hacash.Lib

open Function List

universe u v

variable {K : Type u} {V : Type v}

/-- A partial map with tombstones. -/
def Overlay (K : Type u) (V : Type v) : Type max u v := K → Option (Option V)

namespace Overlay

/-- The layer that says nothing. -/
def empty : Overlay K V := fun _ => none

/-- Write `v` at `k`. -/
def put [DecidableEq K] (o : Overlay K V) (k : K) (v : V) : Overlay K V :=
  update o k (some (some v))

/-- Delete `k`: leave a tombstone. -/
def del [DecidableEq K] (o : Overlay K V) (k : K) : Overlay K V :=
  update o k (some none)

/-- Merge: what `upper` says wins. -/
def onto (upper lower : Overlay K V) : Overlay K V :=
  fun k => (upper k).or (lower k)

/-- A layer on top of a flat base map. -/
def apply (o : Overlay K V) (base : K → Option V) : K → Option V :=
  fun k => (o k).getD (base k)

@[ext] theorem ext {o₁ o₂ : Overlay K V} (h : ∀ k, o₁ k = o₂ k) : o₁ = o₂ := funext h

@[simp] theorem onto_apply (o₁ o₂ : Overlay K V) (k : K) :
    o₁.onto o₂ k = (o₁ k).or (o₂ k) := rfl

@[simp] theorem empty_onto (o : Overlay K V) : empty.onto o = o := rfl

theorem apply_onto (upper lower : Overlay K V) (base : K → Option V) :
    (upper.onto lower).apply base = upper.apply (lower.apply base) := by
  funext k
  unfold apply
  rw [onto_apply]
  cases upper k <;> rfl

theorem apply_of_some {o : Overlay K V} {k : K} {v : Option V} (h : o k = some v)
    (base : K → Option V) : o.apply base k = v := by
  unfold apply
  rw [h]
  rfl

theorem apply_of_none {o : Overlay K V} {k : K} (h : o k = none)
    (base : K → Option V) : o.apply base k = base k := by
  unfold apply
  rw [h]
  rfl

section

variable [DecidableEq K]

@[simp] theorem put_self (o : Overlay K V) (k : K) (v : V) :
    o.put k v k = some (some v) := update_self ..

theorem put_other (o : Overlay K V) {k k' : K} (v : V) (h : k' ≠ k) :
    o.put k v k' = o k' := update_of_ne h ..

@[simp] theorem del_self (o : Overlay K V) (k : K) : o.del k k = some none :=
  update_self ..

theorem del_other (o : Overlay K V) {k k' : K} (h : k' ≠ k) : o.del k k' = o k' :=
  update_of_ne h ..

theorem put_onto (upper lower : Overlay K V) (k : K) (v : V) :
    (upper.put k v).onto lower = (upper.onto lower).put k v := by
  ext1 k'
  by_cases h : k' = k
  · rw [h, onto_apply, put_self, put_self, Option.some_or]
  · rw [onto_apply, put_other _ _ h, put_other _ _ h, onto_apply]

theorem del_onto (upper lower : Overlay K V) (k : K) :
    (upper.del k).onto lower = (upper.onto lower).del k := by
  ext1 k'
  by_cases h : k' = k
  · rw [h, onto_apply, del_self, del_self, Option.some_or]
  · rw [onto_apply, del_other _ h, del_other _ h, onto_apply]

/-- Write every entry of a list, in order. -/
def putAll (o : Overlay K V) (entries : List (K × V)) : Overlay K V :=
  entries.foldl (fun o kv => o.put kv.1 kv.2) o

/-- Delete every key of a list. -/
def delAll (o : Overlay K V) (keys : List K) : Overlay K V :=
  keys.foldl (fun o k => o.del k) o

theorem putAll_of_not_mem {k : K} : ∀ {entries : List (K × V)} {o : Overlay K V},
    (∀ kv ∈ entries, kv.1 ≠ k) → o.putAll entries k = o k
  | [], _, _ => rfl
  | kv :: entries, o, h => by
    have ih := putAll_of_not_mem (o := o.put kv.1 kv.2) fun kv hkv =>
      h kv (mem_cons_of_mem _ hkv)
    exact ih.trans (put_other _ _ (h kv mem_cons_self).symm)

theorem putAll_of_mem {k : K} {v : V} : ∀ {entries : List (K × V)} {o : Overlay K V},
    entries.Pairwise (fun a b => a.1 ≠ b.1) → (k, v) ∈ entries →
      o.putAll entries k = some (some v)
  | [], _, _, h => by cases h
  | kv :: entries, o, hp, h => by
    obtain ⟨hne, hp⟩ := pairwise_cons.mp hp
    rcases mem_cons.mp h with rfl | h
    · have := putAll_of_not_mem (o := o.put k v) fun kv hkv => (hne kv hkv).symm
      exact this.trans (put_self ..)
    · exact putAll_of_mem (o := o.put kv.1 kv.2) hp h

theorem delAll_of_not_mem {k : K} : ∀ {keys : List K} {o : Overlay K V}, k ∉ keys →
    o.delAll keys k = o k
  | [], _, _ => rfl
  | k' :: keys, o, h => by
    rw [mem_cons, not_or] at h
    exact (delAll_of_not_mem (o := o.del k') h.2).trans (del_other _ h.1)

theorem delAll_of_mem {k : K} : ∀ {keys : List K} {o : Overlay K V}, k ∈ keys →
    o.delAll keys k = some none
  | [], _, h => by cases h
  | k' :: keys, o, h => by
    by_cases hk : k ∈ keys
    · exact delAll_of_mem (o := o.del k') hk
    · obtain rfl := (mem_cons.mp h).resolve_right hk
      exact (delAll_of_not_mem (o := o.del k) hk).trans (del_self ..)

end

end Overlay

end Hacash.Lib
