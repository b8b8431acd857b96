import Hacash.Field.Wire
import Hacash.Field.RawAmount

/-!
# Canonical wire forms (`field`, fold64.rs, amount.rs)

Only the shortest form of a value is accepted: `fold64_canonical` and `amount_wire_codec`.
-/

namespace Hacash

open Lib List Fold64

/-! ## Folded integers (fold64.rs:36–82) -/

theorem foldTag_toNat (b : UInt8) {k : ℕ} (hk : k < 8) :
    ((b &&& (31 : UInt8)) ||| (UInt8.ofNat k <<< (5 : UInt8))).toNat = 32 * k + b.toNat % 32 := by
  have hand : (b &&& (31 : UInt8)).toNat = b.toNat % 2 ^ 5 := by
    rw [UInt8.toNat_and]
    exact Nat.and_two_pow_sub_one_eq_mod b.toNat 5
  have hshift : (UInt8.ofNat k <<< (5 : UInt8)).toNat = 2 ^ 5 * k := by
    interval_cases k <;> rfl
  rw [UInt8.toNat_or, hand, hshift, Nat.or_comm,
    ← Nat.two_pow_add_eq_or_of_lt (Nat.mod_lt _ (by norm_num))]

theorem foldTag_shift (b : UInt8) : (b >>> (5 : UInt8)).toNat = b.toNat / 32 := by
  rw [UInt8.toNat_shiftRight]
  exact Nat.shiftRight_eq_div_pow b.toNat 5

theorem foldTag_low (b : UInt8) : (b &&& (31 : UInt8)).toNat = b.toNat % 32 := by
  rw [UInt8.toNat_and]
  exact Nat.and_two_pow_sub_one_eq_mod b.toNat 5

namespace Fold64

/-- `decode`: the canonical form, or else another form of zero. -/
def decode : Decode Fold64
  | [] => normalf "buffer too short for Fold64"
  | bt :: rest =>
    let n := (bt >>> (5 : UInt8)).toNat
    if rest.length < n then normalf "Fold64 parse length"
    else do
      let value := (rest.take n).foldl (fun v b => v * 256 + b.toNat) (bt &&& (31 : UInt8)).toNat
      let fold ← ofNat value
      ensure (fold.size = 1 + n) (.normal "Fold64 non-canonical size")
      return (fold, 1 + n)

/-- The loop of `decode` reads a big-endian number. -/
theorem foldl_value (bytes : List UInt8) : ∀ v,
    bytes.foldl (fun v b => v * 256 + b.toNat) v = v * 256 ^ bytes.length + beValue bytes := by
  induction bytes with
  | nil => simp
  | cons b bytes ih =>
    intro v
    rw [foldl_cons, ih, beValue_cons, length_cons, pow_succ]
    ring

/-- **The size is the least that has room for the value.** -/
theorem size_le_iff (f : Fold64) (n : ℕ) : f.size ≤ n + 1 ↔ f.uint < 32 * 256 ^ n := by
  have hpow : 32 * 256 ^ n = 2 ^ (8 * n + 5) := by
    rw [pow_add, pow_mul]
    norm_num
    ring
  have hsize : f.size = 1 + (Nat.size f.uint - 5 + 7) / 8 := by
    rw [size]
    split_ifs with hlt
    · have : Nat.size f.uint ≤ 5 := Nat.size_le.mpr hlt
      omega
    · rfl
  rw [hsize, hpow, ← Nat.size_le]
  omega

theorem one_le_size (f : Fold64) : 1 ≤ f.size := by
  rw [size]
  split_ifs <;> omega

theorem size_le_eight (f : Fold64) : f.size ≤ 8 := by
  rw [size_le_iff f 7]
  have := f.le
  rw [fold64Max] at this
  omega

/-- The first byte and the bytes after it. -/
theorem encode_eq {f : Fold64} {n : ℕ} (h : f.size = n + 1) :
    f.encode = ((UInt8.ofNat (f.uint / 256 ^ n) &&& (31 : UInt8))
      ||| (UInt8.ofNat n <<< (5 : UInt8))) :: beBytes n (f.uint % 256 ^ n) := by
  rw [encode, h, beBytes, Nat.add_sub_cancel]

theorem encode_length (f : Fold64) : f.encode.length = f.size := by
  obtain ⟨n, hn⟩ : ∃ n, f.size = n + 1 := ⟨f.size - 1, by have := f.one_le_size; omega⟩
  rw [encode_eq hn, length_cons, beBytes_length, hn]

theorem codes : Codes decode encode fun _ => True where
  reads := by
    intro buf f k h
    cases buf with
    | nil => cases h
    | cons bt rest =>
      rw [decode] at h
      dsimp only at h
      rw [foldTag_shift, foldTag_low] at h
      split_ifs at h with hlen
      · cases h
      · obtain ⟨fold, hfold, h⟩ := bind_eq_ok h
        obtain ⟨hsize, h⟩ := ensure_bind_iff.mp h
        cases h
        have hbytes : (rest.take (bt.toNat / 32)).length = bt.toNat / 32 :=
          length_take_of_le (not_lt.mp hlen)
        have hvalue := ofNat_ok hfold
        rw [foldl_value, hbytes] at hvalue
        have hlt := beValue_lt (rest.take (bt.toNat / 32))
        rw [hbytes] at hlt
        have hpos : 0 < 256 ^ (bt.toNat / 32) := by positivity
        have hdiv : f.uint / 256 ^ (bt.toNat / 32) = bt.toNat % 32 := by
          rw [hvalue, mul_comm, Nat.mul_add_div hpos, Nat.div_eq_of_lt hlt, add_zero]
        have hmod : f.uint % 256 ^ (bt.toNat / 32) = beValue (rest.take (bt.toNat / 32)) := by
          rw [hvalue, mul_comm, Nat.mul_add_mod, Nat.mod_eq_of_lt hlt]
        refine ⟨by rw [length_cons]; omega, ?_, trivial⟩
        have htag : ((UInt8.ofNat (bt.toNat % 32) &&& (31 : UInt8))
            ||| (UInt8.ofNat (bt.toNat / 32) <<< (5 : UInt8))) = bt := by
          have hbt := bt.toNat_lt
          refine UInt8.toNat_inj.mp ?_
          rw [foldTag_toNat _ (by omega), UInt8.toNat_ofNat']
          omega
        rw [encode_eq (by rw [hsize, add_comm]), hdiv, hmod, htag, add_comm 1, take_succ_cons]
        congr 1
        have := beBytes_beValue (rest.take (bt.toNat / 32))
        rw [hbytes] at this
        exact this.symm
  accepts f _ := by
    intro rest
    obtain ⟨n, hn⟩ : ∃ n, f.size = n + 1 := ⟨f.size - 1, by have := f.one_le_size; omega⟩
    have hn8 : n < 8 := by
      have := f.size_le_eight
      omega
    have hpos : 0 < 256 ^ n := by positivity
    have hlt : f.uint / 256 ^ n < 32 := by
      rw [Nat.div_lt_iff_lt_mul hpos]
      exact (size_le_iff f n).mp hn.le
    rw [encode_length, hn, encode_eq hn, cons_append, decode]
    dsimp only
    rw [foldTag_shift, foldTag_low, foldTag_toNat _ hn8, UInt8.toNat_ofNat']
    have hbits : f.uint / 256 ^ n % 2 ^ 8 % 32 = f.uint / 256 ^ n := by
      rw [Nat.mod_eq_of_lt (hlt.trans (by norm_num)), Nat.mod_eq_of_lt hlt]
    have hshift : (32 * n + f.uint / 256 ^ n) / 32 = n := by
      rw [Nat.mul_add_div (by norm_num), Nat.div_eq_of_lt hlt, add_zero]
    have hlow : (32 * n + f.uint / 256 ^ n) % 32 = f.uint / 256 ^ n := by
      rw [Nat.mul_add_mod, Nat.mod_eq_of_lt hlt]
    have htake : (beBytes n (f.uint % 256 ^ n) ++ rest).take n = beBytes n (f.uint % 256 ^ n) :=
      take_left' (beBytes_length n _)
    have hvalue : f.uint / 256 ^ n * 256 ^ n + f.uint % 256 ^ n = f.uint :=
      Nat.div_add_mod' f.uint _
    rw [hbits, hshift, hlow, if_neg (by rw [length_append, beBytes_length]; omega), htake,
      foldl_value, beBytes_length, beValue_beBytes (Nat.mod_lt _ hpos), hvalue]
    have hof : ofNat f.uint = .ok f := by rw [ofNat, dif_pos f.le]
    rw [hof, ok_bind, ensure_of _ (by rw [hn, add_comm]), ok_bind, add_comm]
    rfl

end Fold64

/-- **`Fold64` is a canonical code.** The numbers below `2 ^ 61` have encodings; the decoder reads
them back and accepts nothing else; and a larger number has no shorter encoding. -/
theorem fold64_canonical (n k : ℕ) (f g : Fold64) (s buf : List UInt8) :
    ((∃ f, ofNat n = .ok f ∧ f.uint = n) ↔ n < 2 ^ 61) ∧
    decode (f.encode ++ s) = .ok (f, f.size) ∧
    (decode buf = .ok (f, k) → k ≤ buf.length ∧ buf.take k = f.encode) ∧
    (f.uint ≤ g.uint → f.encode.length ≤ g.encode.length) := by
  refine ⟨?_, ?_, ?_, ?_⟩
  · rw [show n < 2 ^ 61 ↔ n ≤ fold64Max by rw [fold64Max]; omega]
    constructor
    · rintro ⟨f, -, rfl⟩
      exact f.le
    · intro hle
      exact ⟨⟨n, hle⟩, by rw [ofNat, dif_pos hle], rfl⟩
  · have h := codes.accepts f trivial s
    rwa [encode_length] at h
  · intro h
    obtain ⟨hk, henc, -⟩ := codes.reads h
    exact ⟨hk, henc⟩
  · intro hle
    obtain ⟨m, hm⟩ : ∃ m, g.size = m + 1 := ⟨g.size - 1, by have := g.one_le_size; omega⟩
    have hlt := (g.size_le_iff m).mp hm.le
    rw [f.encode_length, g.encode_length, hm, f.size_le_iff]
    omega

/-! ## Amounts with their bytes (amount.rs:638–755) -/

/-- The bytes of any fields. -/
def RawAmount.encode (a : RawAmount) : List UInt8 :=
  UInt8.ofNat a.unit :: byteOfI8 a.dist :: a.byte

/-- `WireAmount`: an amount and the bytes it stands on the wire as. -/
structure WireAmount where
  amount : Amount
  wire : List UInt8
  deriving DecidableEq

namespace WireAmount

def fromAmount (amount : Amount) : WireAmount := ⟨amount, amount.encode⟩

def isCanonicalWire (w : WireAmount) : Bool := decide (w.wire = w.amount.encode)

/-- `encode_to`. -/
def encode (w : WireAmount) : List UInt8 := w.wire

def tryDecodeNonCanonicalSemanticZero : Decode Amount
  | unit :: distRaw :: rest =>
    if distRaw = 128 then normalf "dist cannot be -128"
    else
      let dist := i8OfByte distRaw
      let byte := rest.take dist.natAbs
      if rest.length < dist.natAbs then normalf "buffer too short for WireAmount"
      else if 1 < dist.natAbs ∧ byte.all (· == 0) = true then
        normalf "multi-byte amount cannot be all zero"
      else if 1 < dist.natAbs ∧ byte.head? = some 0 then
        normalf "amount leading zero byte is not canonical"
      else if byte.any (· != 0) = true then
        normalf "wire amount fallback only accepts semantic zero"
      else if unit = 0 ∧ dist = 0 ∧ byte = [] then
        normalf "canonical zero must use Amount decode"
      else .ok (.zero, 2 + dist.natAbs)
  | _ => normalf "buffer too short for WireAmount"

/-- `decode`: the canonical form, or else another form of zero. -/
def decode : Decode WireAmount := fun buf =>
  match Amount.decode buf with
  | .ok (amount, used) => .ok (⟨amount, buf.take used⟩, used)
  | .error _ =>
    match tryDecodeNonCanonicalSemanticZero buf with
    | .ok (amount, used) => .ok (⟨amount, buf.take used⟩, used)
    | .error e => .error e

/-- The other forms it reads are of zero. -/
theorem tryDecode_ok {buf : List UInt8} {a : Amount} {n : ℕ}
    (h : tryDecodeNonCanonicalSemanticZero buf = .ok (a, n)) : a = .zero ∧ n ≤ buf.length ∧
      ∃ raw : RawAmount, raw.encode = buf.take n ∧ raw.value = 0 := by
  match buf with
  | [] => cases h
  | [_] => cases h
  | unit :: distRaw :: rest =>
    rw [tryDecodeNonCanonicalSemanticZero] at h
    dsimp only at h
    split_ifs at h with hmin hlen hmulti hhead hany hzero
    all_goals try cases h
    have hbyte : (rest.take (i8OfByte distRaw).natAbs).length = (i8OfByte distRaw).natAbs :=
      length_take_of_le (not_lt.mp hlen)
    have hvalue : beValue (rest.take (i8OfByte distRaw).natAbs) = 0 := by
      refine (all_zero_iff _).mp (all_eq_true.mpr fun b hb => ?_)
      by_contra hne
      exact hany (any_eq_true.mpr ⟨b, hb, by simpa using hne⟩)
    refine ⟨rfl, by simp only [length_cons]; omega,
      ⟨unit.toNat, i8OfByte distRaw, rest.take (i8OfByte distRaw).natAbs, unit.toNat_lt,
        hbyte.symm, hbyte.trans_le (i8OfByte_natAbs hmin)⟩, ?_, ?_⟩
    · rw [RawAmount.encode, UInt8.ofNat_toNat, byteOfI8_i8OfByte, add_comm]
      rfl
    · rw [RawAmount.value, hvalue]
      simp

end WireAmount

/-- **The wire form of amounts.** Bytes that are decoded are the encoding of what they are decoded
to, and every encoding is decoded. `WireAmount` decodes the same, and besides the other forms of
zero, whose bytes it keeps. -/
theorem amount_wire_codec (a : Amount) (w : WireAmount) (n : ℕ) (buf rest : List UInt8) :
    (Amount.decode buf = .ok (a, n) → n ≤ buf.length ∧ a.encode = buf.take n) ∧
    Amount.decode (a.encode ++ rest) = .ok (a, a.encode.length) ∧
    (Amount.decode buf = .ok (a, n) →
      WireAmount.decode buf = .ok (.fromAmount a, n) ∧
        (WireAmount.fromAmount a).encode = buf.take n) ∧
    (WireAmount.decode buf = .ok (w, n) → n ≤ buf.length ∧ w.encode = buf.take n ∧
      (Amount.decode buf = .ok (w.amount, n) ∨
        (∃ e, Amount.decode buf = .error e) ∧ w.amount = .zero ∧
          ∃ raw : RawAmount, raw.encode = w.encode ∧ raw.value = 0)) := by
  have hreads : ∀ {a : Amount} {n : ℕ}, Amount.decode buf = .ok (a, n) →
      n ≤ buf.length ∧ a.encode = buf.take n := by
    intro a n h
    obtain ⟨hn, henc, -⟩ := Amount.codes.reads h
    exact ⟨hn, henc.symm⟩
  refine ⟨hreads, Amount.codes.accepts a trivial rest, ?_, ?_⟩
  · intro h
    obtain ⟨-, henc⟩ := hreads h
    rw [WireAmount.decode, h, WireAmount.fromAmount, henc]
    exact ⟨rfl, rfl⟩
  · intro h
    rw [WireAmount.decode] at h
    cases hd : Amount.decode buf with
    | ok r =>
      obtain ⟨amount, used⟩ := r
      rw [hd] at h
      cases h
      exact ⟨(hreads hd).1, rfl, Or.inl rfl⟩
    | error e =>
      rw [hd] at h
      dsimp only at h
      cases ht : WireAmount.tryDecodeNonCanonicalSemanticZero buf with
      | error e =>
        rw [ht] at h
        cases h
      | ok r =>
        obtain ⟨amount, used⟩ := r
        rw [ht] at h
        cases h
        obtain ⟨hzero, hn, raw, hraw, hvalue⟩ := WireAmount.tryDecode_ok ht
        exact ⟨hn, rfl, Or.inr ⟨⟨e, rfl⟩, hzero, raw, hraw, hvalue⟩⟩

/-- Zero with a unit is read by `WireAmount` only. -/
example : (Amount.decode [248, 0]).isOk = false ∧
    WireAmount.decode [248, 0] = .ok (⟨.zero, [248, 0]⟩, 2) := by decide

end Hacash
