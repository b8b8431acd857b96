import Hacash.Lib.BigEndian

/-!
# Decoders of byte strings

A decoder returns a value and the number of bytes it has used. `Codes d encode valid` says that `d`
is the inverse of `encode` on the valid values.
-/

namespace Hacash.Lib

open List

variable {ε α β : Type}

/-- A decoder: from the bytes left, a value and the number of bytes used. -/
def Decoder (ε α : Type) : Type := List UInt8 → Except ε (α × ℕ)

namespace Decoder

/-- The decoder that uses nothing. -/
def pure (a : α) : Decoder ε α := fun _ => .ok (a, 0)

/-- The decoder that refuses. -/
def fail (e : ε) : Decoder ε α := fun _ => .error e

/-- One decoder, then another on the bytes that are left. -/
def bind (d : Decoder ε α) (f : α → Decoder ε β) : Decoder ε β := fun buf =>
  match d buf with
  | .error e => .error e
  | .ok (a, n) =>
    match f a (buf.drop n) with
    | .error e => .error e
    | .ok (b, m) => .ok (b, n + m)

instance : Monad (Decoder ε) where
  pure := pure
  bind := bind

/-- A look at the value of `d`, without using its bytes. -/
def peek (d : Decoder ε α) (f : α → Decoder ε β) : Decoder ε β := fun buf =>
  match d buf with
  | .error e => .error e
  | .ok (a, _) => f a buf

/-- A test. -/
def guard (p : Prop) [Decidable p] (e : ε) : Decoder ε Unit := if p then pure () else fail e

/-- `n` times the same decoder. -/
def many (d : Decoder ε α) : ℕ → Decoder ε (List α)
  | 0 => pure []
  | n + 1 => bind d fun a => bind (many d n) fun rest => pure (a :: rest)

/-! ## What a decoder returns -/

/-- Every result is in relation `R` to the bytes used, of which there are enough. -/
def Reads (d : Decoder ε α) (R : α → List UInt8 → Prop) : Prop :=
  ∀ ⦃buf a n⦄, d buf = .ok (a, n) → n ≤ buf.length ∧ R a (buf.take n)

/-- `d` returns `a` on `bytes`, whatever follows. -/
def Accepts (d : Decoder ε α) (a : α) (bytes : List UInt8) : Prop :=
  ∀ rest, d (bytes ++ rest) = .ok (a, bytes.length)

section

variable {d : Decoder ε α} {f : α → Decoder ε β} {R : α → List UInt8 → Prop}
  {S : β → List UInt8 → Prop} {a : α} {b : β} {u v : List UInt8}

theorem reads_mono {R' : α → List UInt8 → Prop} (h : d.Reads R)
    (hle : ∀ a bytes, R a bytes → R' a bytes) : d.Reads R' := by
  intro buf a n hd
  obtain ⟨hn, hR⟩ := h hd
  exact ⟨hn, hle a _ hR⟩

theorem reads_pure (hS : R a []) : (Pure.pure a : Decoder ε α).Reads R := by
  intro buf a' n h
  cases h
  exact ⟨Nat.zero_le _, hS⟩

theorem reads_fail (e : ε) : (fail e : Decoder ε α).Reads R := by
  intro buf a n h
  cases h

theorem of_bind {buf : List UInt8} {k : ℕ} (h : (d >>= f) buf = .ok (b, k)) :
    ∃ a n m, d buf = .ok (a, n) ∧ f a (buf.drop n) = .ok (b, m) ∧ k = n + m := by
  change bind d f buf = .ok (b, k) at h
  unfold bind at h
  cases h₁ : d buf with
  | error e => rw [h₁] at h; cases h
  | ok r =>
    obtain ⟨a, n⟩ := r
    rw [h₁] at h
    dsimp only at h
    cases h₂ : f a (buf.drop n) with
    | error e => rw [h₂] at h; cases h
    | ok r =>
      obtain ⟨b', m⟩ := r
      rw [h₂] at h
      cases h
      exact ⟨a, n, m, rfl, h₂, rfl⟩

/-- A decoder run `n` times returns `n` values. -/
theorem length_of_many {n : ℕ} {buf : List UInt8} {as : List α} {k : ℕ}
    (h : many d n buf = .ok (as, k)) : as.length = n := by
  induction n generalizing buf as k with
  | zero =>
    cases h
    rfl
  | succ n ih =>
    obtain ⟨a, _, _, -, h, -⟩ := of_bind h
    obtain ⟨rest, _, _, hrest, h, -⟩ := of_bind h
    cases h
    rw [length_cons, ih hrest]

theorem reads_bind (hd : d.Reads R)
    (hf : ∀ a u, R a u → (f a).Reads fun b v => S b (u ++ v)) : (d >>= f).Reads S := by
  intro buf b k h
  obtain ⟨a, n, m, h₁, h₂, rfl⟩ := of_bind h
  obtain ⟨hn, hR⟩ := hd h₁
  obtain ⟨hm, hS⟩ := hf a _ hR h₂
  rw [length_drop] at hm
  refine ⟨by omega, ?_⟩
  rw [take_add]
  exact hS

theorem reads_peek_of {R : α → β → List UInt8 → Prop} (hf : ∀ a, (f a).Reads (R a))
    (hS : ∀ a b bytes rest n, R a b bytes → d (bytes ++ rest) = .ok (a, n) → S b bytes) :
    (peek d f).Reads S := by
  intro buf b m h
  unfold peek at h
  cases h₁ : d buf with
  | error e => rw [h₁] at h; cases h
  | ok r =>
    obtain ⟨a, n⟩ := r
    rw [h₁] at h
    obtain ⟨hm, hR⟩ := hf a h
    refine ⟨hm, hS a b _ (buf.drop m) n hR ?_⟩
    rw [take_append_drop, h₁]

theorem reads_peek (hf : ∀ a, (f a).Reads S) : (peek d f).Reads S :=
  reads_peek_of hf fun _ _ _ _ _ hR _ => hR

theorem reads_guard {p : Prop} [Decidable p] (e : ε) :
    (guard p e).Reads fun _ bytes => p ∧ bytes = [] := by
  intro buf a n h
  unfold guard at h
  split_ifs at h with hp
  · cases h
    exact ⟨Nat.zero_le _, hp, take_zero⟩
  · cases h

theorem reads_many {encode : α → List UInt8} {valid : α → Prop}
    (hd : d.Reads fun a bytes => bytes = encode a ∧ valid a) :
    ∀ n, (many d n).Reads fun as bytes =>
      bytes = as.flatMap encode ∧ as.length = n ∧ ∀ a ∈ as, valid a
  | 0 => reads_pure ⟨rfl, rfl, fun _ h => absurd h not_mem_nil⟩
  | n + 1 => by
    refine reads_bind hd fun a u hu => reads_bind (reads_many hd n) fun as v hv => reads_pure ?_
    obtain ⟨rfl, ha⟩ := hu
    obtain ⟨rfl, hlen, has⟩ := hv
    refine ⟨by rw [append_nil, flatMap_cons], by rw [length_cons, hlen], ?_⟩
    intro x hx
    rcases mem_cons.mp hx with rfl | hx
    · exact ha
    · exact has x hx

/-! ## What a decoder accepts -/

theorem accepts_pure (a : α) : (Pure.pure a : Decoder ε α).Accepts a [] := fun _ => rfl

theorem accepts_bind (hd : d.Accepts a u) (hf : (f a).Accepts b v) :
    (d >>= f).Accepts b (u ++ v) := by
  intro rest
  change bind d f ((u ++ v) ++ rest) = _
  rw [append_assoc, bind, hd]
  dsimp only
  rw [drop_left, hf]
  dsimp only
  rw [length_append]

theorem accepts_last (hd : d.Accepts a u) (hf : f a = Pure.pure b) : (d >>= f).Accepts b u := by
  have h := accepts_bind hd (hf ▸ accepts_pure b : (f a).Accepts b [])
  rwa [append_nil] at h

theorem accepts_peek {n : ℕ} (hd : ∀ rest, d (v ++ rest) = .ok (a, n))
    (hf : (f a).Accepts b v) : (peek d f).Accepts b v := by
  intro rest
  unfold peek
  rw [hd]
  exact hf rest

theorem accepts_guard {p : Prop} [Decidable p] (e : ε) (hp : p) : (guard p e).Accepts () [] := by
  intro rest
  rw [guard, if_pos hp]
  rfl

theorem accepts_many {encode : α → List UInt8} : ∀ {as : List α},
    (∀ a ∈ as, d.Accepts a (encode a)) → (many d as.length).Accepts as (as.flatMap encode)
  | [], _ => accepts_pure []
  | a :: as, h => by
    have hrest := accepts_many fun x hx => h x (mem_cons_of_mem a hx)
    rw [flatMap_cons]
    exact accepts_bind (f := fun a => bind (many d as.length) fun rest => pure (a :: rest))
      (h a mem_cons_self) (accepts_last hrest rfl)

end

end Decoder

open Decoder

/-- **`d` is the inverse of `encode`** on the values that are `valid`. -/
structure Codes (d : Decoder ε α) (encode : α → List UInt8) (valid : α → Prop) : Prop where
  reads : d.Reads fun a bytes => bytes = encode a ∧ valid a
  accepts : ∀ a, valid a → d.Accepts a (encode a)

namespace Codes

variable {d : Decoder ε α} {encode : α → List UInt8} {valid : α → Prop}

theorem congr (h : Codes d encode valid) {valid' : α → Prop} (hv : ∀ a, valid a ↔ valid' a) :
    Codes d encode valid' where
  reads := reads_mono h.reads fun a _ ha => ⟨ha.1, (hv a).mp ha.2⟩
  accepts a ha := h.accepts a ((hv a).mpr ha)

/-- The decoder that refuses accepts no value. -/
theorem fail (e : ε) (encode : α → List UInt8) :
    Codes (fail e : Decoder ε α) encode fun _ => False where
  reads := reads_fail e
  accepts _ h := h.elim

theorem many (h : Codes d encode valid) (n : ℕ) :
    Codes (d.many n) (List.flatMap encode) fun as => as.length = n ∧ ∀ a ∈ as, valid a where
  reads := reads_many h.reads n
  accepts as has := by
    obtain ⟨rfl, hvalid⟩ := has
    exact accepts_many fun a ha => h.accepts a (hvalid a ha)

end Codes

end Hacash.Lib
