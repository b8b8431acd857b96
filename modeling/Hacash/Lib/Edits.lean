import Mathlib.Data.List.Basic

/-!
# Edits of a list, in the positions of the original

Edits give their ranges in the positions of the original, in order and without overlap
(`applyLast_eq`).
-/

namespace Hacash.Lib

open List

variable {α : Type}

/-- Replace `delete` elements from `offset` on by `insert`. -/
structure Edit (α : Type) where
  offset : ℕ
  delete : ℕ
  insert : List α

namespace Edit

/-- The position behind the range. -/
def stop (e : Edit α) : ℕ := e.offset + e.delete

/-- The list with the edit made. -/
def splice (e : Edit α) (l : List α) : List α := l.take e.offset ++ e.insert ++ l.drop e.stop

end Edit

/-- Edits whose ranges are in order from a position on, do not overlap, and end by `size`. -/
def InOrder (size : ℕ) : ℕ → List (Edit α) → Prop
  | _, [] => True
  | start, e :: es => start ≤ e.offset ∧ e.stop ≤ size ∧ InOrder size e.stop es

/-- All edits, the last one first. -/
def applyLast (l : List α) (edits : List (Edit α)) : List α := edits.foldr Edit.splice l

/-- One pass from `start` on: the elements before each range, what it is replaced by, and the
rest. -/
def copyEdits (l : List α) : ℕ → List (Edit α) → List α
  | start, [] => l.drop start
  | start, e :: es => (l.drop start).take (e.offset - start) ++ e.insert ++ copyEdits l e.stop es

theorem take_add_drop_take (l : List α) {i j : ℕ} (h : i ≤ j) :
    l.take i ++ (l.drop i).take (j - i) = l.take j := by
  rw [← take_add, Nat.add_sub_cancel' h]

/-- **Edits made from the last to the first are one pass from the left.** -/
theorem applyLast_eq (l : List α) (edits : List (Edit α)) {start : ℕ} (hstart : start ≤ l.length)
    (h : InOrder l.length start edits) :
    applyLast l edits = l.take start ++ copyEdits l start edits := by
  induction edits generalizing start with
  | nil => exact (take_append_drop start l).symm
  | cons e es ih =>
    obtain ⟨hfrom, hstop, hrest⟩ := h
    have hlen : (l.take e.stop).length = e.stop := length_take_of_le hstop
    have hoff : e.offset ≤ e.stop := Nat.le_add_right e.offset e.delete
    -- behind the range the other edits have been made, in front of it nothing has changed
    have hbefore : (applyLast l es).take e.offset = l.take e.offset := by
      rw [ih hstop hrest, take_append_of_le_length (by rw [hlen]; exact hoff),
        take_take, Nat.min_eq_left hoff]
    have hafter : (applyLast l es).drop e.stop = copyEdits l e.stop es := by
      rw [ih hstop hrest, drop_left' hlen]
    show e.splice (applyLast l es) = _
    rw [Edit.splice, hbefore, hafter, copyEdits, ← take_add_drop_take l hfrom]
    simp only [append_assoc]

end Hacash.Lib
