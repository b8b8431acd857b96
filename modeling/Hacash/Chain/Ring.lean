import Hacash.Lib.Window

/-!
# The decode ring (`chain/src/ring.rs`)

A bounded buffer between decoders and applier. A method that waits on a condition variable is `none`
in the states in which it waits.
-/

namespace Hacash

open Lib Function

/-- `RingState`, with the capacity of its `Ring`. -/
structure Ring (capacity : ℕ+) (Slot : Type) where
  items : Fin capacity → Option Slot
  /-- Reservations, including work still being decoded. -/
  inFlight : ℕ
  next : ℕ
  /-- `end` -/
  closedAt : Option ℕ
  stopped : Bool

namespace Ring

variable {capacity : ℕ+} {Slot : Type}

def new (capacity : ℕ+) (Slot : Type) : Ring capacity Slot where
  items := fun _ => none
  inFlight := 0
  next := 0
  closedAt := none
  stopped := false

/-- `reserve`: waits for room, and fails once the ring is stopped. -/
def reserve (r : Ring capacity Slot) : Option (Bool × Ring capacity Slot) :=
  if !r.stopped && decide (r.inFlight ≥ capacity) then none
  else if r.stopped then some (false, r)
  else some (true, { r with inFlight := r.inFlight + 1 })

def release (r : Ring capacity Slot) : Ring capacity Slot :=
  { r with inFlight := r.inFlight - 1 }

def publishReserved (r : Ring capacity Slot) (seq : ℕ) (slot : Slot) :
    Bool × Ring capacity Slot :=
  if r.stopped then (false, { r with inFlight := r.inFlight - 1 })
  else (true, { r with items := update r.items (slotOf capacity seq) (some slot) })

/-- `take`: the slot of `seq`, or `none` inside once nothing can arrive there. -/
def take (r : Ring capacity Slot) (seq : ℕ) : Option (Option Slot × Ring capacity Slot) :=
  match r.items (slotOf capacity seq) with
  | some slot =>
    some (some slot, { r with
      items := update r.items (slotOf capacity seq) none
      next := seq + 1
      inFlight := r.inFlight - 1 })
  | none =>
    if r.stopped then some (none, r)
    else if r.closedAt.any (· ≤ seq) then some (none, r)
    else none

def close (r : Ring capacity Slot) (total : ℕ) : Ring capacity Slot :=
  { r with closedAt := some total }

def stop (r : Ring capacity Slot) : Ring capacity Slot := { r with stopped := true }

/-! ## What the calls return -/

variable {r r' : Ring capacity Slot} {seq : ℕ} {slot : Slot} {ok : Bool}

theorem reserve_cases (h : r.reserve = some (ok, r')) :
    (ok = true ∧ r.stopped = false ∧ r.inFlight < capacity ∧
        r' = { r with inFlight := r.inFlight + 1 }) ∨
      (ok = false ∧ r.stopped = true ∧ r' = r) := by
  unfold reserve at h
  split_ifs at h with h1 h2
  · cases h
    exact Or.inr ⟨rfl, h2, rfl⟩
  · cases h
    simp only [Bool.not_eq_true] at h2
    simp only [h2, Bool.not_false, Bool.true_and, decide_eq_true_eq, ge_iff_le, not_le] at h1
    exact Or.inl ⟨rfl, h2, h1, rfl⟩

theorem reserve_of_lt (hs : r.stopped = false) (hlt : r.inFlight < capacity) :
    r.reserve = some (true, { r with inFlight := r.inFlight + 1 }) := by
  simp [reserve, hs, hlt]

/-- `take` returns what the slot holds and empties it. -/
theorem take_some (h : r.take seq = some (some slot, r')) :
    r.items (slotOf capacity seq) = some slot ∧
      r' = { r with
        items := update r.items (slotOf capacity seq) none
        next := seq + 1
        inFlight := r.inFlight - 1 } := by
  unfold take at h
  split at h
  next v hv =>
    cases h
    exact ⟨hv, rfl⟩
  · split_ifs at h <;> cases h

theorem take_of_some (h : r.items (slotOf capacity seq) = some slot) :
    r.take seq = some (some slot, { r with
      items := update r.items (slotOf capacity seq) none
      next := seq + 1
      inFlight := r.inFlight - 1 }) := by
  unfold take
  split
  next v hv =>
    rw [h, Option.some.injEq] at hv
    rw [hv]
  next hv =>
    rw [h] at hv
    cases hv

theorem take_of_closed {total : ℕ} (h : r.items (slotOf capacity seq) = none)
    (hend : r.closedAt = some total) (hle : total ≤ seq) : r.take seq = some (none, r) := by
  unfold take
  split
  next v hv =>
    rw [h] at hv
    cases hv
  · simp [hend, hle]

/-- `take` ends on a stopped ring, or past the end of a closed one. -/
theorem take_none (h : r.take seq = some (none, r')) :
    r' = r ∧ (r.stopped = true ∨ ∃ total, r.closedAt = some total ∧ total ≤ seq) := by
  unfold take at h
  split at h
  · cases h
  · split_ifs at h with h1 h2
    · cases h
      exact ⟨rfl, Or.inl h1⟩
    · cases h
      rw [Option.any_eq_true] at h2
      obtain ⟨total, htotal, hle⟩ := h2
      exact ⟨rfl, Or.inr ⟨total, htotal, by simpa using hle⟩⟩

end Ring

end Hacash
