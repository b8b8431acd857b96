import Mathlib.Data.Nat.Notation
import Mathlib.Logic.Relation
import Mathlib.Tactic.SplitIfs

/-!
# Scans

A loop that takes a step until it is done, where a step may fail.
-/

namespace Hacash.Lib

open Relation

variable {σ ε : Type}

/-- Repeat `step` until `done`. -/
def scan (done : σ → Bool) (step : σ → Except ε σ) (stuck : ε) : ℕ → σ → Except ε σ
  | 0, s => if done s then .ok s else .error stuck
  | fuel + 1, s =>
    if done s then .ok s
    else
      match step s with
      | .ok t => scan done step stuck fuel t
      | .error e => .error e

/-- One step of a scan. -/
def ScanStep (done : σ → Bool) (step : σ → Except ε σ) (s t : σ) : Prop :=
  done s = false ∧ step s = .ok t

variable {done : σ → Bool} {step : σ → Except ε σ} {stuck : ε}

theorem scan_reaches : ∀ {fuel : ℕ} {s t : σ}, scan done step stuck fuel s = .ok t →
    done t = true ∧ ReflTransGen (ScanStep done step) s t
  | 0, s, t, h => by
    rw [scan] at h
    split_ifs at h with hdone
    cases h
    exact ⟨hdone, .refl⟩
  | fuel + 1, s, t, h => by
    rw [scan] at h
    split_ifs at h with hdone
    · cases h
      exact ⟨hdone, .refl⟩
    · cases hstep : step s with
      | error e => simp only [hstep, reduceCtorEq] at h
      | ok u =>
        simp only [hstep] at h
        obtain ⟨ht, hreach⟩ := scan_reaches h
        exact ⟨ht, .head ⟨Bool.eq_false_iff.mpr hdone, hstep⟩ hreach⟩

end Hacash.Lib
