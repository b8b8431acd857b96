import Mathlib.Data.List.TakeDrop

/-!
# Buffers of blocks of one size

Values of `k` elements each, one after the other in a flat buffer.
-/

namespace Hacash.Lib

open List

variable {α β : Type}

/-- The block at position `i`. -/
def block (k : ℕ) (buf : List α) (i : ℕ) : List α := (buf.drop (i * k)).take k

/-- The buffer with the block at position `i` overwritten. -/
def putBlock (k : ℕ) (buf : List α) (i : ℕ) (b : List α) : List α :=
  buf.take (i * k) ++ b ++ buf.drop ((i + 1) * k)

section

variable {k : ℕ} {f : β → List α} (hf : ∀ x, (f x).length = k)

include hf

theorem length_flatMap_block (xs : List β) : (xs.flatMap f).length = xs.length * k := by
  induction xs with
  | nil => rw [flatMap_nil, length_nil, length_nil, Nat.zero_mul]
  | cons x xs ih =>
    rw [flatMap_cons, length_append, ih, hf, length_cons, Nat.succ_mul, Nat.add_comm]

theorem drop_flatMap_block (xs : List β) (i : ℕ) :
    (xs.flatMap f).drop (i * k) = (xs.drop i).flatMap f := by
  induction xs generalizing i with
  | nil => rw [flatMap_nil, drop_nil, drop_nil, flatMap_nil]
  | cons x xs ih =>
    cases i with
    | zero => rw [Nat.zero_mul, drop_zero, drop_zero]
    | succ i =>
      rw [flatMap_cons, Nat.succ_mul, Nat.add_comm, ← hf x, drop_length_add_append,
        hf x, ih, drop_succ_cons]

theorem take_flatMap_block (xs : List β) (i : ℕ) :
    (xs.flatMap f).take (i * k) = (xs.take i).flatMap f := by
  induction xs generalizing i with
  | nil => rw [flatMap_nil, take_nil, take_nil, flatMap_nil]
  | cons x xs ih =>
    cases i with
    | zero => rw [Nat.zero_mul, take_zero, take_zero, flatMap_nil]
    | succ i =>
      rw [flatMap_cons, Nat.succ_mul, Nat.add_comm, ← hf x, take_length_add_append,
        hf x, ih, take_succ_cons, flatMap_cons]

/-- The block after the blocks of `pre`. -/
theorem block_flatMap (pre post : List β) (x : β) :
    block k ((pre ++ x :: post).flatMap f) pre.length = f x := by
  rw [block, drop_flatMap_block hf, drop_left, flatMap_cons, take_left' (hf x)]

/-- Overwriting a block is replacing a value. -/
theorem putBlock_flatMap (pre post : List β) (x y : β) :
    putBlock k ((pre ++ x :: post).flatMap f) pre.length (f y) = (pre ++ y :: post).flatMap f := by
  have hdrop : (pre ++ x :: post).drop (pre.length + 1) = post := by
    rw [drop_length_add_append, drop_succ_cons, drop_zero]
  rw [putBlock, take_flatMap_block hf, drop_flatMap_block hf, take_left, hdrop,
    flatMap_append, flatMap_cons, append_assoc]

/-- A buffer of blocks determines its values. -/
theorem flatMap_block_inj (hk : 0 < k) (hinj : Function.Injective f) :
    ∀ {xs ys : List β}, xs.flatMap f = ys.flatMap f → xs = ys
  | [], [], _ => rfl
  | [], y :: ys, h | y :: ys, [], h => by
    have hlen := congrArg List.length h
    rw [length_flatMap_block hf, length_flatMap_block hf, length_cons, Nat.succ_mul] at hlen
    simp only [length_nil, Nat.zero_mul] at hlen
    omega
  | x :: xs, y :: ys, h => by
    rw [flatMap_cons, flatMap_cons] at h
    obtain ⟨hhead, htail⟩ := append_inj h ((hf x).trans (hf y).symm)
    rw [hinj hhead, flatMap_block_inj hk hinj htail]

end

end Hacash.Lib
