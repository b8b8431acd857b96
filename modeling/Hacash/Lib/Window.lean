import Mathlib.Algebra.BigOperators.Group.Finset.Basic
import Mathlib.Algebra.Order.BigOperators.Group.Finset
import Mathlib.Data.Fintype.BigOperators
import Mathlib.Data.Int.ModEq
import Mathlib.Data.PNat.Basic

/-!
# Sequence numbers in a ring, counters over threads

The slots `seq % capacity` of a window of at most `capacity` sequence numbers are distinct.
-/

namespace Hacash.Lib

open Finset Function

/-- The slot of a sequence number. -/
def slotOf (capacity : ℕ+) (seq : ℕ) : Fin capacity :=
  ⟨seq % capacity, Nat.mod_lt _ capacity.pos⟩

theorem slotOf_injOn {capacity : ℕ+} {n a b : ℕ} (ha : n ≤ a) (ha' : a < n + capacity)
    (hb : n ≤ b) (hb' : b < n + capacity) (h : slotOf capacity a = slotOf capacity b) : a = b := by
  have hmod : a % (capacity : ℕ) = b % capacity := congrArg Fin.val h
  -- without loss of generality the smaller one comes first
  have key : ∀ {x y : ℕ}, x ≤ y → y < x + capacity → x % (capacity : ℕ) = y % capacity →
      x = y := by
    intro x y hxy hlt hm
    have hdvd : (capacity : ℕ) ∣ y - x := (Nat.modEq_iff_dvd' hxy).mp hm
    have := Nat.eq_zero_of_dvd_of_lt hdvd (by omega)
    omega
  rcases le_total a b with hab | hba
  · exact key hab (by omega) hmod
  · exact (key hba (by omega) hmod.symm).symm

/-- A sum over all indices when the index `i` goes to `x`. -/
theorem sum_update {ι σ M : Type*} [Fintype ι] [DecidableEq ι] [AddCommMonoid M] (f : σ → M)
    (d : ι → σ) (i : ι) (x : σ) : ∑ j, f (update d i x j) + f (d i) = ∑ j, f (d j) + f x := by
  have h1 := add_sum_erase univ (fun j => f (update d i x j))
    (mem_univ i)
  have h2 := add_sum_erase univ (fun j => f (d j)) (mem_univ i)
  have h3 : ∑ j ∈ univ.erase i, f (update d i x j) =
      ∑ j ∈ univ.erase i, f (d j) := by
    refine sum_congr rfl fun j hj => ?_
    rw [update_of_ne (ne_of_mem_erase hj)]
  simp only [update_self] at h1
  rw [← h1, ← h2, h3]
  ac_rfl

end Hacash.Lib
