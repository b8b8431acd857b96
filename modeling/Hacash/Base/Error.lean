import Hacash.Base.Types

/-!
# Errors (`sys`)

A `revert` may be caught by an AST node, a `fault` may not (error.rs). Message texts are the
source's, with the formatted values left out.
-/

namespace Hacash

open List

/-- `ErrorKind`: how an error is handled, from mild to strict. -/
inductive ErrorKind where
  | normal
  | revert
  | fault
  | abort
  deriving DecidableEq, Repr

/-- `Error`: kind and message. -/
structure Error where
  kind : ErrorKind
  msg : String
  deriving DecidableEq, Repr

namespace Error

def normal (msg : String) : Error := ⟨.normal, msg⟩

def revert (msg : String) : Error := ⟨.revert, msg⟩

def fault (msg : String) : Error := ⟨.fault, msg⟩

def abort (msg : String) : Error := ⟨.abort, msg⟩

def isRevert (e : Error) : Bool := decide (e.kind = .revert)

end Error

/-- `Ret<T>`. -/
abbrev Ret (α : Type) : Type := Except Error α

/-- `errf!`: a fault. -/
def errf {α : Type} (msg : String) : Ret α := .error (.fault msg)

/-- `revertf!`. -/
def revertf {α : Type} (msg : String) : Ret α := .error (.revert msg)

/-- `normalf!`. -/
def normalf {α : Type} (msg : String) : Ret α := .error (.normal msg)

/-- A test whose failure returns the error. -/
def ensure (p : Prop) [Decidable p] (e : Error) : Ret Unit :=
  if p then .ok () else .error e

variable {p : Prop} {e : Error} {α : Type}

/-- A test that passed. -/
theorem of_ensure [Decidable p] {u : Unit} (h : ensure p e = .ok u) : p := by
  by_contra hp
  rw [ensure, if_neg hp] at h
  cases h

theorem ensure_of [Decidable p] (e : Error) (hp : p) : ensure p e = .ok () :=
  if_pos hp

/-- A test in front of a computation. -/
theorem ensure_bind_iff [Decidable p] {f : Unit → Ret α}
    {a : α} : (ensure p e >>= f) = .ok a ↔ p ∧ f () = .ok a := by
  by_cases hp : p
  · rw [ensure_of e hp, ok_bind]
    exact ⟨fun h => ⟨hp, h⟩, fun h => h.2⟩
  · rw [ensure, if_neg hp]
    exact ⟨nofun, fun h => absurd h.1 hp⟩

/-- Past a check that has passed. -/
theorem ensure_drop [Decidable p] {f : Unit → Ret α} {a : α}
    (h : (ensure p e >>= f) = .ok a) : f () = .ok a := (ensure_bind_iff.mp h).2

/-- A result that is not an error is a value. -/
theorem exists_of_isOk {x : Ret α} (h : x.isOk = true) : ∃ a, x = .ok a := by
  cases x with
  | error e => cases h
  | ok a => exact ⟨a, rfl⟩

/-- `Option::ok_or_else`. -/
def okOr {α : Type} (x : Option α) (e : Error) : Ret α :=
  match x with
  | some a => .ok a
  | none => .error e

theorem okOr_eq_ok {x : Option α} {a : α} (h : okOr x e = .ok a) : x = some a := by
  cases x with
  | none => cases h
  | some b => cases h; rfl

/-- A loop that refuses a key it has seen passes if the keys are new and distinct and all is good.
-/
theorem foldlM_scan {β : Type} {key : α → β} {good : α → Prop} {step : List β → α → Ret (List β)}
    (hstep : ∀ present x out,
      step present x = .ok out ↔ key x ∉ present ∧ good x ∧ out = present ++ [key x]) :
    ∀ {xs : List α} {present out : List β}, xs.foldlM step present = .ok out ↔
      (xs.map key).Nodup ∧ (∀ x ∈ xs, key x ∉ present) ∧ (∀ x ∈ xs, good x) ∧
        out = present ++ xs.map key
  | [], present, out => by
    constructor
    · intro h
      cases h
      exact ⟨nodup_nil, nofun, nofun, (append_nil _).symm⟩
    · rintro ⟨-, -, -, rfl⟩
      rw [map_nil, append_nil]
      rfl
  | x :: xs, present, out => by
    rw [foldlM_cons, map_cons, nodup_cons, forall_mem_cons,
      forall_mem_cons]
    constructor
    · intro h
      obtain ⟨mid, hmid, h⟩ := bind_eq_ok h
      obtain ⟨hnew, hgood, rfl⟩ := (hstep _ _ _).mp hmid
      obtain ⟨hnodup, hnews, hgoods, rfl⟩ := (foldlM_scan hstep).mp h
      refine ⟨⟨?_, hnodup⟩, ⟨hnew, fun y hy hp => hnews y hy (mem_append_left _ hp)⟩,
        ⟨hgood, hgoods⟩, by rw [append_assoc, singleton_append]⟩
      intro hx
      obtain ⟨y, hy, hkey⟩ := mem_map.mp hx
      exact hnews y hy (mem_append_right _ (mem_singleton.mpr hkey))
    · rintro ⟨⟨hx, hnodup⟩, ⟨hnew, hnews⟩, ⟨hgood, hgoods⟩, rfl⟩
      rw [(hstep present x _).mpr ⟨hnew, hgood, rfl⟩, ok_bind]
      refine (foldlM_scan hstep).mpr ⟨hnodup, fun y hy hp => ?_, hgoods,
        by rw [append_assoc, singleton_append]⟩
      rcases mem_append.mp hp with hp | hp
      · exact hnews y hy hp
      · exact hx (mem_map.mpr ⟨y, hy, mem_singleton.mp hp⟩)

end Hacash
