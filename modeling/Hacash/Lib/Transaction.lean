import Mathlib.Logic.Basic

/-!
# Programs that change a state and may fail

Rules for programs in `EStateM`, which keep the state they had reached when they fail.
-/

namespace Hacash.Lib

variable {ε σ α β : Type}

/-- The state that a run ends in. -/
def finalState (m : EStateM ε σ α) (s : σ) : σ :=
  match m s with
  | .ok _ t => t
  | .error _ t => t

/-- Look at the state. -/
def peek (f : σ → Except ε α) : EStateM ε σ α := fun s =>
  match f s with
  | .ok a => .ok a s
  | .error e => .error e s

variable {f : σ → Except ε α} {s t : σ} {a : α} {e : ε} {m : EStateM ε σ α}
  {k : α → EStateM ε σ β}

/-- A look that succeeds. -/
theorem peek_ok (h : f s = .ok a) : peek f s = .ok a s := by
  rw [peek, h]

/-- A look that fails leaves the state. -/
theorem peek_error (h : f s = .error e) : peek f s = .error e s := by
  rw [peek, h]

/-- After a success the rest runs on the new state. -/
theorem bind_ok (h : m s = .ok a t) : (m >>= k) s = k a t := by
  show EStateM.bind m k s = k a t
  rw [EStateM.bind, h]

/-- A success after a look comes from the same state. -/
theorem peek_bind_ok {b : β}
    (h : (peek f >>= k) s = .ok b t) : ∃ a, f s = .ok a ∧ k a s = .ok b t := by
  cases hf : f s with
  | error e =>
    have hbind : (peek f >>= k) s = EStateM.bind (peek f) k s := rfl
    rw [hbind, EStateM.bind, peek_error hf] at h
    cases h
  | ok a => exact ⟨a, rfl, (bind_ok (peek_ok hf)).symm.trans h⟩

/-- After a failure nothing runs. -/
theorem bind_error (h : m s = .error e t) : (m >>= k) s = .error e t := by
  show EStateM.bind m k s = .error e t
  rw [EStateM.bind, h]

theorem map_ok {f : α → β} (h : m s = .ok a t) : (f <$> m) s = .ok (f a) t := by
  show EStateM.map f m s = .ok (f a) t
  rw [EStateM.map, h]

theorem map_error {f : α → β} (h : m s = .error e t) : (f <$> m) s = .error e t := by
  show EStateM.map f m s = .error e t
  rw [EStateM.map, h]

/-! ## What a run leaves alone -/

/-- Every run ends in a state related to the one it started from. -/
def Leaves (F : σ → σ → Prop) (m : EStateM ε σ α) : Prop := ∀ s, F s (finalState m s)

namespace Leaves

variable {F : σ → σ → Prop}

protected theorem pure (hrefl : ∀ s, F s s) (a : α) : Leaves F (pure a : EStateM ε σ α) :=
  fun s => hrefl s

protected theorem peek (hrefl : ∀ s, F s s) (f : σ → Except ε α) : Leaves F (peek f) := by
  intro s
  rw [finalState, Lib.peek]
  cases f s with
  | ok a | error e => exact hrefl s

/-- Two programs, one after the other, for a transitive relation. -/
protected theorem bind (htrans : ∀ s t u, F s t → F t u → F s u) {m : EStateM ε σ α}
    {k : α → EStateM ε σ β} (hm : Leaves F m) (hk : ∀ a, Leaves F (k a)) : Leaves F (m >>= k) := by
  intro s
  have hfirst := hm s
  rw [finalState] at hfirst ⊢
  cases hrun : m s with
  | error e t =>
    rw [hrun] at hfirst
    rw [bind_error hrun]
    exact hfirst
  | ok a t =>
    rw [hrun] at hfirst
    rw [bind_ok hrun]
    exact htrans s t _ hfirst (hk a t)

protected theorem map {m : EStateM ε σ α} (hm : Leaves F m) (f : α → β) : Leaves F (f <$> m) := by
  intro s
  have hrun := hm s
  rw [finalState] at hrun ⊢
  cases h : m s with
  | ok a t =>
    rw [h] at hrun
    rw [map_ok h]
    exact hrun
  | error e t =>
    rw [h] at hrun
    rw [map_error h]
    exact hrun

/-- A loop, for a reflexive and transitive relation. -/
protected theorem forM (hrefl : ∀ s, F s s) (htrans : ∀ s t u, F s t → F t u → F s u)
    {f : α → EStateM ε σ PUnit} (hf : ∀ a, Leaves F (f a)) (l : List α) : Leaves F (l.forM f) := by
  induction l with
  | nil => exact .pure hrefl _
  | cons a l ih => exact .bind htrans (hf a) fun _ => ih

end Leaves

/-! ## What a run cannot tell apart -/

/-- One result in related states. -/
def SameResult (R : σ → σ → Prop) : EStateM.Result ε σ α → EStateM.Result ε σ α → Prop
  | .ok a t, .ok a' t' => a = a' ∧ R t t'
  | .error e t, .error e' t' => e = e' ∧ R t t'
  | _, _ => False

/-- Runs from related states have one result. -/
def Blind (R : σ → σ → Prop) (m : EStateM ε σ α) : Prop :=
  ∀ s s', R s s' → SameResult R (m s) (m s')

namespace Blind

variable {R : σ → σ → Prop}

protected theorem pure (a : α) : Blind R (pure a : EStateM ε σ α) :=
  fun _ _ h => ⟨rfl, h⟩

protected theorem peek {f : σ → Except ε α} (hf : ∀ s s', R s s' → f s = f s') :
    Blind R (peek f) := by
  intro s s' h
  rw [Lib.peek, Lib.peek, hf s s' h]
  cases f s' with
  | ok a | error e => exact ⟨rfl, h⟩

/-- Two programs that see nothing of the difference. -/
protected theorem bind {m : EStateM ε σ α} {k : α → EStateM ε σ β} (hm : Blind R m)
    (hk : ∀ a, Blind R (k a)) : Blind R (m >>= k) := by
  intro s s' h
  have hfirst := hm s s' h
  cases hrun : m s with
  | error e t =>
    cases hrun' : m s' with
    | error e' t' =>
      rw [hrun, hrun'] at hfirst
      rw [bind_error hrun, bind_error hrun']
      exact hfirst
    | ok a' t' =>
      rw [hrun, hrun'] at hfirst
      exact hfirst.elim
  | ok a t =>
    cases hrun' : m s' with
    | error e' t' =>
      rw [hrun, hrun'] at hfirst
      exact hfirst.elim
    | ok a' t' =>
      rw [hrun, hrun'] at hfirst
      obtain ⟨rfl, hrel⟩ := hfirst
      rw [bind_ok hrun, bind_ok hrun']
      exact hk a t t' hrel

protected theorem map {m : EStateM ε σ α} (hm : Blind R m) (f : α → β) : Blind R (f <$> m) := by
  intro s s' h
  have hrun := hm s s' h
  cases hs : m s with
  | error e t =>
    cases hs' : m s' with
    | error e' t' =>
      rw [hs, hs'] at hrun
      rw [map_error hs, map_error hs']
      exact hrun
    | ok a' t' =>
      rw [hs, hs'] at hrun
      exact hrun.elim
  | ok a t =>
    cases hs' : m s' with
    | error e' t' =>
      rw [hs, hs'] at hrun
      exact hrun.elim
    | ok a' t' =>
      rw [hs, hs'] at hrun
      rw [map_ok hs, map_ok hs']
      exact ⟨congrArg f hrun.1, hrun.2⟩

/-- A change that keeps the difference out of sight. -/
protected theorem modify {f : σ → σ} (hf : ∀ s s', R s s' → R (f s) (f s')) :
    Blind R (modify f : EStateM ε σ PUnit) :=
  fun s s' h => ⟨rfl, hf s s' h⟩

protected theorem forM {f : α → EStateM ε σ PUnit} (hf : ∀ a, Blind R (f a)) (l : List α) :
    Blind R (l.forM f) := by
  induction l with
  | nil => exact .pure _
  | cons a l ih => exact .bind (hf a) fun _ => ih

end Blind

/-! ## How a run may fail -/

/-- Every failure satisfies `P`. -/
def FailsOnly (P : ε → Prop) (x : Except ε α) : Prop := ∀ e, x = .error e → P e

namespace FailsOnly

variable {P : ε → Prop}

protected theorem ok (a : α) : FailsOnly P (.ok a) := nofun

protected theorem pure (a : α) : FailsOnly P (pure a : Except ε α) := nofun

/-- An error that is allowed. -/
protected theorem error {e : ε} (h : P e) : FailsOnly P (.error e : Except ε α) := by
  rintro _ ⟨⟩
  exact h

/-- Both parts fail in allowed ways only. -/
protected theorem bind {x : Except ε α} {k : α → Except ε β} (hx : FailsOnly P x)
    (hk : ∀ a, x = .ok a → FailsOnly P (k a)) : FailsOnly P (x >>= k) := by
  intro e he
  cases hrun : x with
  | error e' =>
    rw [hrun] at he
    cases he
    exact hx e hrun
  | ok a =>
    rw [hrun] at he
    exact hk a hrun e he

end FailsOnly

/-! ## How a run ends -/

/-- From a state, a success satisfies `Q` and a failure `E`. -/
def Ends (Q : α → σ → Prop) (E : ε → σ → Prop) (m : EStateM ε σ α) (s : σ) : Prop :=
  match m s with
  | .ok a t => Q a t
  | .error e t => E e t

namespace Ends

variable {Q : α → σ → Prop} {E : ε → σ → Prop} {s : σ}

protected theorem pure {a : α} (h : Q a s) : Ends Q E (pure a : EStateM ε σ α) s := h

/-- The second part starts where the first has ended. -/
protected theorem bind {P : β → σ → Prop} {m : EStateM ε σ α} {k : α → EStateM ε σ β}
    (hm : Ends Q E m s) (hk : ∀ a t, m s = .ok a t → Q a t → Ends P E (k a) t) :
    Ends P E (m >>= k) s := by
  rw [Ends] at hm
  cases hrun : m s with
  | error e t =>
    rw [hrun] at hm
    rw [Ends, bind_error hrun]
    exact hm
  | ok a t =>
    rw [hrun] at hm
    rw [Ends, bind_ok hrun]
    exact hk a t hrun hm

/-- What was only looked at cannot be left half done. -/
protected theorem peek_bind {P : β → σ → Prop} {f : σ → Except ε α} {k : α → EStateM ε σ β}
    (hok : ∀ a, f s = .ok a → Ends P E (k a) s) (herr : ∀ e, f s = .error e → E e s) :
    Ends P E (Lib.peek f >>= k) s := by
  cases hf : f s with
  | ok a =>
    rw [Ends, bind_ok (peek_ok hf)]
    exact hok a hf
  | error e =>
    rw [Ends, bind_error (peek_error hf)]
    exact herr e hf

/-- Weaker conditions on both ends. -/
theorem mono {Q' : α → σ → Prop} {E' : ε → σ → Prop} {m : EStateM ε σ α} (hm : Ends Q E m s)
    (hQ : ∀ a t, Q a t → Q' a t) (hE : ∀ e t, E e t → E' e t) : Ends Q' E' m s := by
  rw [Ends] at hm ⊢
  cases hrun : m s with
  | ok a t =>
    rw [hrun] at hm
    exact hQ a t hm
  | error e t =>
    rw [hrun] at hm
    exact hE e t hm

end Ends

/-! ## A part of the state -/

/-- Run a program on the part of the state that `view` shows and `put` writes back. -/
def zoom {τ : Type} (view : σ → τ) (put : τ → σ → σ) (m : EStateM ε τ α) : EStateM ε σ α := fun s =>
  match m (view s) with
  | .ok a t => .ok a (put t s)
  | .error e t => .error e (put t s)

/-- A program on a part of the state. -/
protected theorem Ends.zoom {τ : Type} {view : σ → τ} {put : τ → σ → σ} {Q : α → τ → Prop}
    {E : ε → τ → Prop} {Q' : α → σ → Prop} {E' : ε → σ → Prop} {m : EStateM ε τ α} {s : σ}
    (hm : Ends Q E m (view s)) (hQ : ∀ a t, Q a t → Q' a (put t s))
    (hE : ∀ e t, E e t → E' e (put t s)) : Ends Q' E' (zoom view put m) s := by
  rw [Ends] at hm
  rw [Ends, Lib.zoom]
  cases hrun : m (view s) with
  | ok a t =>
    rw [hrun] at hm
    exact hQ a t hm
  | error e t =>
    rw [hrun] at hm
    exact hE e t hm

/-! ## All or nothing -/

/-- From a state, a failure changes nothing and a success keeps the invariant. -/
def Atomic (Inv : σ → Prop) (m : EStateM ε σ α) (s : σ) : Prop :=
  match m s with
  | .ok _ t => Inv t
  | .error _ t => t = s

/-- From a state, a run does not fail. -/
def Succeeds (Q : α → σ → Prop) (m : EStateM ε σ α) (s : σ) : Prop :=
  ∃ a t, m s = .ok a t ∧ Q a t

namespace Succeeds

/-- A first step that is known to succeed. -/
theorem step {Q : β → σ → Prop} {m : EStateM ε σ α} {k : α → EStateM ε σ β} {s t : σ} {a : α}
    (hm : m s = .ok a t) (hk : Succeeds Q (k a) t) : Succeeds Q (m >>= k) s := by
  obtain ⟨b, u, hrun, hq⟩ := hk
  exact ⟨b, u, (bind_ok hm).trans hrun, hq⟩

/-- What cannot fail is atomic. -/
theorem atomic {Inv : σ → Prop} {m : EStateM ε σ α} {s : σ}
    (h : Succeeds (fun _ => Inv) m s) : Atomic Inv m s := by
  obtain ⟨a, t, hrun, hinv⟩ := h
  rw [Atomic, hrun]
  exact hinv

end Succeeds

namespace Atomic

variable {Inv : σ → Prop} {s : σ}

protected theorem pure (h : Inv s) (a : α) : Atomic Inv (pure a : EStateM ε σ α) s := h

protected theorem peek (h : Inv s) (f : σ → Except ε α) : Atomic Inv (peek f) s := by
  rw [Atomic, Lib.peek]
  cases f s with
  | ok a => exact h
  | error e => rfl

/-- What was only looked at cannot be left half done. -/
protected theorem peek_bind {f : σ → Except ε α} {k : α → EStateM ε σ β}
    (hk : ∀ a, f s = .ok a → Atomic Inv (k a) s) : Atomic Inv (Lib.peek f >>= k) s := by
  cases hf : f s with
  | error e => rw [Atomic, bind_error (peek_error hf)]
  | ok a =>
    rw [Atomic, bind_ok (peek_ok hf)]
    exact hk a hf

variable {m : EStateM ε σ α}

section

variable (hm : Atomic Inv m s)
include hm

/-- Nothing that follows the last change fails. -/
protected theorem bind_succeeds {k : α → EStateM ε σ β}
    (hk : ∀ a t, m s = .ok a t → Inv t → Succeeds (fun _ => Inv) (k a) t) :
    Atomic Inv (m >>= k) s := by
  rw [Atomic] at hm ⊢
  cases hrun : m s with
  | error e t =>
    rw [hrun] at hm
    rw [bind_error hrun]
    exact hm
  | ok a t =>
    rw [hrun] at hm
    rw [bind_ok hrun]
    obtain ⟨b, u, hrun', hinv⟩ := hk a t hrun hm
    rw [hrun']
    exact hinv

/-- An answer does not change the state. -/
protected theorem bind_pure (f : α → β) : Atomic Inv (m >>= fun a => pure (f a)) s :=
  hm.bind_succeeds fun a t _ ht => ⟨f a, t, rfl, ht⟩

protected theorem map (f : α → β) : Atomic Inv (f <$> m) s := by
  rw [Atomic] at hm ⊢
  cases h : m s with
  | ok a t =>
    rw [h] at hm
    rw [map_ok h]
    exact hm
  | error e t =>
    rw [h] at hm
    rw [map_error h]
    exact hm

/-- A weaker invariant. -/
theorem mono {Inv' : σ → Prop} (h : ∀ t, Inv t → Inv' t) : Atomic Inv' m s := by
  rw [Atomic] at hm ⊢
  cases hrun : m s with
  | ok a t =>
    rw [hrun] at hm
    exact h t hm
  | error e t =>
    rw [hrun] at hm
    exact hm

/-- An atomic run ends in a state with the invariant if it started in one. -/
theorem finalState (h : Inv s) : Inv (Lib.finalState m s) := by
  rw [Atomic] at hm
  rw [Lib.finalState]
  cases hrun : m s with
  | ok a t =>
    rw [hrun] at hm
    exact hm
  | error e t =>
    rw [hrun] at hm
    exact hm ▸ h

end

end Atomic

end Hacash.Lib
