import Hacash.Field.Types
import Hacash.Lib.Codec

/-!
# Wire formats of the field types (`field::codec`, `field::types`)

Encoders and decoders of the field types, each with its `Codes` lemma. A count that does not fit its
field is a panic of the encoder.
-/

namespace Hacash

open Lib List Decoder

/-- A decoder of the code. -/
abbrev Decode (α : Type) : Type := Decoder Error α

/-- The error of a read past the end. -/
def shortBuffer : Error := .normal "buffer too short"

/-! ## Integers and byte arrays (uint.rs, fixed.rs) -/

/-- `UintN`: an unsigned integer of `w` bytes. -/
structure Uint (w : ℕ) where
  uint : ℕ
  lt : uint < 256 ^ w
  deriving DecidableEq

namespace Uint

variable {w : ℕ}

@[ext] theorem ext {x y : Uint w} (h : x.uint = y.uint) : x = y := by
  cases x
  cases y
  cases h
  rfl

/-- `UintN::from` of a literal. -/
instance (v : ℕ) : OfNat (Uint w) v :=
  ⟨⟨v % 256 ^ w, Nat.mod_lt _ (Nat.pow_pos (by decide))⟩⟩

/-- `encode_to`. -/
def encode (x : Uint w) : List UInt8 := beBytes w x.uint

def decode (w : ℕ) : Decode (Uint w) := fun buf =>
  if h : w ≤ buf.length then
    .ok (⟨beValue (buf.take w), by
      have := beValue_lt (buf.take w)
      rwa [length_take_of_le h] at this⟩, w)
  else .error shortBuffer

@[simp] theorem encode_length (x : Uint w) : x.encode.length = w := beBytes_length ..

theorem codes (w : ℕ) : Codes (decode w) encode fun _ => True where
  reads := by
    intro buf x n h
    unfold decode at h
    split_ifs at h with hw
    cases h
    refine ⟨hw, ?_, trivial⟩
    have := beBytes_beValue (buf.take w)
    rw [length_take_of_le hw] at this
    exact this.symm
  accepts x _ := by
    intro rest
    have hlen : w ≤ (x.encode ++ rest).length := by
      rw [length_append, encode_length]
      exact Nat.le_add_right ..
    have hvalue : beValue ((x.encode ++ rest).take w) = x.uint := by
      rw [take_left' x.encode_length]
      exact beValue_beBytes x.lt
    rw [decode, dif_pos hlen, encode_length]
    simp only [hvalue]

end Uint

/-- A byte array of length `n`, made into a value. -/
def decodeFixed {α : Type} (n : ℕ) (mk : (bytes : List UInt8) → bytes.length = n → α) :
    Decode α := fun buf =>
  if h : n ≤ buf.length then .ok (mk (buf.take n) (length_take_of_le h), n)
  else .error shortBuffer

theorem decodeFixed_codes {α : Type} {n : ℕ} (mk : (bytes : List UInt8) → bytes.length = n → α)
    {encode : α → List UInt8} (hlen : ∀ a, (encode a).length = n)
    (hmk : ∀ a, mk (encode a) (hlen a) = a) (henc : ∀ bytes h, encode (mk bytes h) = bytes) :
    Codes (decodeFixed n mk) encode fun _ => True where
  reads := by
    intro buf a k h
    unfold decodeFixed at h
    split_ifs at h with hn
    cases h
    exact ⟨hn, (henc _ _).symm, trivial⟩
  accepts a _ := by
    intro rest
    have hle : n ≤ (encode a ++ rest).length := by
      rw [length_append, hlen]
      exact Nat.le_add_right ..
    have htake : (encode a ++ rest).take n = encode a := take_left' (hlen a)
    rw [decodeFixed, dif_pos hle, hlen]
    simp only [htake, hmk]

/-- `Fixed<N>`. -/
structure Fixed (n : ℕ) where
  bytes : List UInt8
  size : bytes.length = n
  deriving DecidableEq

namespace Fixed

/-- `Fixed::from([b; N])`. -/
def fill {n : ℕ} (b : UInt8) : Fixed n := ⟨List.replicate n b, length_replicate⟩

/-- The byte vectors of a length. -/
def equivVector (n : ℕ) : List.Vector UInt8 n ≃ Fixed n where
  toFun v := ⟨v.1, v.2⟩
  invFun a := ⟨a.bytes, a.size⟩
  left_inv _ := rfl
  right_inv _ := rfl

instance (n : ℕ) : Fintype (Fixed n) := Fintype.ofEquiv _ (equivVector n)

def decode (n : ℕ) : Decode (Fixed n) := decodeFixed n Fixed.mk

theorem codes (n : ℕ) : Codes (decode n) bytes fun _ => True :=
  decodeFixed_codes Fixed.mk size (fun _ => rfl) fun _ _ => rfl

end Fixed

def Hash.decode : Decode Hash := decodeFixed 32 Hash.mk

theorem Hash.codes : Codes Hash.decode Hash.bytes fun _ => True :=
  decodeFixed_codes Hash.mk Hash.size (fun _ => rfl) fun _ _ => rfl

/-- `Address::decode`: the version must be a supported one. -/
def Address.decode : Decode Address := do
  let a ← decodeFixed 21 Address.mk
  Decoder.guard (a.isSupported = true) (.normal "address version invalid")
  return a

theorem Address.codes : Codes Address.decode Address.bytes fun a => a.isSupported = true where
  reads := by
    have hfixed := (decodeFixed_codes Address.mk Address.size (fun _ => rfl)
      fun _ _ => rfl).reads
    refine reads_bind hfixed fun a u hu =>
      reads_bind (reads_guard _) fun _ v hv => reads_pure ?_
    obtain ⟨hs, rfl⟩ := hv
    exact ⟨by rw [append_nil, append_nil, hu.1], hs⟩
  accepts a ha := by
    have hfixed := (decodeFixed_codes Address.mk Address.size (fun _ => rfl)
      fun _ _ => rfl).accepts a trivial
    rw [← append_nil a.bytes]
    exact accepts_bind hfixed (accepts_last (accepts_guard _ ha) rfl)

/-! ## Flags (bool.rs) -/

/-- `Bool`: `encode_to`. -/
def encodeBool (b : Bool) : List UInt8 := beBytes 1 b.toNat

/-- `Bool::decode`: the byte must be zero or one. -/
def decodeBool : Decode Bool := do
  let v ← Uint.decode 1
  Decoder.guard (v.uint ≤ 1) (.normal "Bool value invalid")
  return v.uint == 1

theorem decodeBool_codes : Codes decodeBool encodeBool fun _ => True where
  reads := by
    refine reads_bind (Uint.codes 1).reads fun v u hu =>
      reads_bind (reads_guard _) fun _ w hw => reads_pure ?_
    obtain ⟨hle, rfl⟩ := hw
    have hv : (v.uint == 1).toNat = v.uint := by
      interval_cases v.uint <;> rfl
    refine ⟨?_, trivial⟩
    rw [hu.1, encodeBool, hv, append_nil, append_nil]
    rfl
  accepts b _ := by
    have hlt : b.toNat < 256 ^ 1 := lt_of_le_of_lt b.toNat_le (by decide)
    rw [encodeBool, ← append_nil (beBytes 1 b.toNat)]
    refine accepts_bind ((Uint.codes 1).accepts ⟨b.toNat, hlt⟩ trivial)
      (accepts_last (accepts_guard _ b.toNat_le) ?_)
    cases b <;> rfl

/-! ## Lists with a count (list.rs) -/

/-- `ListW1` and `ListW2`: a count of `w` bytes and the elements. -/
def encodeListW {α : Type} (w : ℕ) (encode : α → List UInt8) (as : List α) : List UInt8 :=
  beBytes w as.length ++ as.flatMap encode

/-- The decoder of a counted list. -/
def decodeListW {α : Type} (w : ℕ) (decode : Decode α) : Decode (List α) := do
  let count ← Uint.decode w
  decode.many count.uint

theorem decodeListW_codes {α : Type} {w : ℕ} {decode : Decode α} {encode : α → List UInt8}
    {valid : α → Prop} (h : Codes decode encode valid) :
    Codes (decodeListW w decode) (encodeListW w encode) fun as =>
      as.length < 256 ^ w ∧ ∀ a ∈ as, valid a where
  reads := by
    refine reads_bind (Uint.codes w).reads fun count u hu =>
      reads_mono (h.many count.uint).reads fun as v hv => ?_
    obtain ⟨rfl, hlen, hvalid⟩ := hv
    refine ⟨?_, hlen ▸ count.lt, hvalid⟩
    rw [hu.1, encodeListW, hlen]
    rfl
  accepts as has :=
    accepts_bind ((Uint.codes w).accepts ⟨as.length, has.1⟩ trivial)
      ((h.many as.length).accepts as ⟨rfl, has.2⟩)

/-! ## Signatures (sign.rs) -/

structure Sign where
  publickey : Fixed 33
  signature : Fixed 64
  deriving DecidableEq

namespace Sign

/-- `encode_to`. -/
def encode (s : Sign) : List UInt8 := s.publickey.bytes ++ s.signature.bytes

def size (_ : Sign) : ℕ := 33 + 64

def decode : Decode Sign := do
  let publickey ← Fixed.decode 33
  let signature ← Fixed.decode 64
  return ⟨publickey, signature⟩

theorem encode_length (s : Sign) : s.encode.length = s.size := by
  rw [encode, length_append, s.publickey.size, s.signature.size, size]

theorem codes : Codes decode encode fun _ => True where
  reads := by
    refine reads_bind (Fixed.codes 33).reads fun publickey u hu =>
      reads_bind (Fixed.codes 64).reads fun signature v hv => reads_pure ?_
    exact ⟨by rw [hu.1, hv.1, append_nil]; rfl, trivial⟩
  accepts s _ := by
    exact accepts_bind ((Fixed.codes 33).accepts s.publickey trivial)
      (accepts_last ((Fixed.codes 64).accepts s.signature trivial) rfl)

end Sign

/-! ## Folded integers (fold64.rs:34–54) -/

/-- `size`: three bits of the first byte hold the number of the bytes after it. -/
def Fold64.size (f : Fold64) : ℕ :=
  if f.uint < 32 then 1 else 1 + (Nat.size f.uint - 5 + 7) / 8

/-- `encode_to`. -/
def Fold64.encode (f : Fold64) : List UInt8 :=
  match beBytes f.size f.uint with
  | [] => []
  | b :: bytes => ((b &&& (31 : UInt8)) ||| (UInt8.ofNat (f.size - 1) <<< (5 : UInt8))) :: bytes

/-- `AssetAmt::encode_to`. -/
def AssetAmt.encode (a : AssetAmt) : List UInt8 := a.serial.encode ++ a.amount.encode

/-! ## Amounts (amount.rs:603–636) -/

/-- `as i8`. -/
def i8OfByte (b : UInt8) : ℤ := if b.toNat < 128 then b.toNat else b.toNat - 256

/-- `as u8`. -/
def byteOfI8 (d : ℤ) : UInt8 := UInt8.ofNat (d % 256).toNat

theorem byteOfI8_i8OfByte (b : UInt8) : byteOfI8 (i8OfByte b) = b := by
  have hb := b.toNat_lt
  rw [byteOfI8, i8OfByte]
  split_ifs with h
  · have : ((b.toNat : ℤ) % 256).toNat = b.toNat := by omega
    rw [this, UInt8.ofNat_toNat]
  · have : (((b.toNat : ℤ) - 256) % 256).toNat = b.toNat := by omega
    rw [this, UInt8.ofNat_toNat]

theorem i8OfByte_byteOfI8 {d : ℤ} (h : d.natAbs ≤ 127) : i8OfByte (byteOfI8 d) = d := by
  have hlt : (d % 256).toNat < 256 := by omega
  rw [i8OfByte, byteOfI8, UInt8.toNat_ofNat_of_lt' hlt]
  split_ifs <;> omega

theorem i8OfByte_natAbs {b : UInt8} (h : b ≠ 128) : (i8OfByte b).natAbs ≤ 127 := by
  have hb := b.toNat_lt
  have hne : b.toNat ≠ 128 := fun h' => h (UInt8.toNat_inj.mp h')
  rw [i8OfByte]
  split_ifs <;> omega

namespace Amount

/-- `encode_to`. -/
def encode (a : Amount) : List UInt8 := UInt8.ofNat a.unit :: byteOfI8 a.dist :: a.byte

theorem encode_length (a : Amount) : a.encode.length = a.size := by
  rw [encode, length_cons, length_cons, size]
  omega

/-- The checks of `decode` on the bytes of an amount. -/
def checkWire (unit : UInt8) (dist : ℤ) (byte : List UInt8) (hdist : dist.natAbs = byte.length)
    (hlen : byte.length ≤ 127) : Ret Amount :=
  if 1 < byte.length ∧ byte.all (· == 0) = true then
    normalf "multi-byte amount cannot be all zero"
  else if hhead : 1 < byte.length ∧ byte.head? = some 0 then
    normalf "amount leading zero byte is not canonical"
  else if hzero : byte.all (· == 0) = true ∧ (unit ≠ 0 ∨ dist ≠ 0 ∨ byte ≠ []) then
    normalf "amount semantic zero is not canonical"
  else .ok {
    unit := unit.toNat
    dist := dist
    byte := byte
    unit_lt := unit.toNat_lt
    dist_byte := hdist
    byte_le := hlen
    head_ne := by
      intro h
      match byte, hhead, hzero, h with
      | [_], _, hzero, h =>
        cases h
        exact hzero ⟨rfl, Or.inr (Or.inr (cons_ne_nil _ _))⟩
      | _ :: _ :: _, hhead, _, h => exact hhead ⟨by simp, h⟩
    zero_unit := by
      rintro rfl
      by_contra hne
      exact hzero ⟨rfl, Or.inl fun h => hne (by rw [h]; rfl)⟩ }

def decode : Decode Amount
  | unit :: distU :: rest =>
    if hmin : distU = 128 then normalf "dist cannot be -128"
    else if hlen : (i8OfByte distU).natAbs ≤ rest.length then
      match checkWire unit (i8OfByte distU) (rest.take (i8OfByte distU).natAbs)
        (length_take_of_le hlen).symm
        ((length_take_of_le hlen).trans_le (i8OfByte_natAbs hmin)) with
      | .error e => .error e
      | .ok a => .ok (a, 2 + (i8OfByte distU).natAbs)
    else .error shortBuffer
  | _ => .error shortBuffer

/-- What passes the checks is what was checked. -/
theorem checkWire_ok {unit : UInt8} {dist : ℤ} {byte : List UInt8} {hdist hlen} {a : Amount}
    (h : checkWire unit dist byte hdist hlen = .ok a) :
    a.unit = unit.toNat ∧ a.dist = dist ∧ a.byte = byte := by
  unfold checkWire at h
  split_ifs at h
  · cases h
  · cases h
  · cases h
  · cases h
    exact ⟨rfl, rfl, rfl⟩

/-- An amount passes the checks. -/
theorem checkWire_self (a : Amount) (hdist hlen) :
    checkWire (UInt8.ofNat a.unit) a.dist a.byte hdist hlen = .ok a := by
  have hall : a.byte.all (· == 0) = true → a.byte = [] := by
    intro h
    match hb : a.byte, a.head_ne with
    | [], _ => rfl
    | b :: _, hne =>
      rw [hb, all_cons, Bool.and_eq_true, beq_iff_eq] at h
      exact absurd (congrArg some h.1) hne
  have hzero : a.byte = [] → UInt8.ofNat a.unit = 0 ∧ a.dist = 0 := by
    intro h
    have hdist := a.dist_byte
    rw [h] at hdist
    exact ⟨by rw [a.zero_unit h]; rfl, Int.natAbs_eq_zero.mp hdist⟩
  unfold checkWire
  rw [if_neg (fun h => by rw [hall h.2] at h; simp at h), dif_neg (fun h => a.head_ne h.2),
    dif_neg (fun h => ?_)]
  · congr 1
    have hunit : (UInt8.ofNat a.unit).toNat = a.unit := UInt8.toNat_ofNat_of_lt' a.unit_lt
    cases a
    simp only [hunit]
  · obtain ⟨hunit, hdist⟩ := hzero (hall h.1)
    rcases h.2 with hne | hne | hne
    · exact hne hunit
    · exact hne hdist
    · exact hne (hall h.1)

theorem codes : Codes decode encode fun _ => True where
  reads := by
    intro buf a n h
    match buf with
    | [] => cases h
    | [_] => cases h
    | unit :: distU :: rest =>
      unfold decode at h
      dsimp only at h
      by_cases hmin : distU = 128
      · rw [dif_pos hmin] at h
        cases h
      by_cases hlen : (i8OfByte distU).natAbs ≤ rest.length
      swap
      · rw [dif_neg hmin, dif_neg hlen] at h
        cases h
      rw [dif_neg hmin, dif_pos hlen] at h
      split at h
      · cases h
      next a' hcheck =>
        cases h
        obtain ⟨hunit, hdist, hbyte⟩ := checkWire_ok hcheck
        refine ⟨by simp only [length_cons]; omega, ?_, trivial⟩
        rw [encode, hunit, hdist, hbyte, UInt8.ofNat_toNat, byteOfI8_i8OfByte, add_comm]
        rfl
  accepts a _ := by
    intro rest
    have hdist : i8OfByte (byteOfI8 a.dist) = a.dist :=
      i8OfByte_byteOfI8 (a.dist_byte.trans_le a.byte_le)
    have hmin : byteOfI8 a.dist ≠ 128 := by
      intro h
      rw [h] at hdist
      have := a.dist_byte.trans_le a.byte_le
      rw [← hdist] at this
      revert this
      decide
    have hlen : (i8OfByte (byteOfI8 a.dist)).natAbs = a.byte.length := by
      rw [hdist, a.dist_byte]
    have htake : (a.byte ++ rest).take a.dist.natAbs = a.byte := by
      rw [a.dist_byte, take_left]
    have hcheck := checkWire_self a a.dist_byte a.byte_le
    change decode (UInt8.ofNat a.unit :: byteOfI8 a.dist :: (a.byte ++ rest)) = _
    rw [decode, dif_neg hmin, dif_pos (by rw [hlen, length_append]; omega)]
    simp only [hdist, htake, hcheck]
    rw [a.dist_byte, encode, length_cons, length_cons, add_comm]

end Amount

/-! ## Addresses of a transaction (addr_or_list.rs, addr_or_ptr.rs) -/

def addrRefMarkerBase : ℕ := 20

/-- `AddrOrPtr`: an address, or an index into the addresses of the transaction. -/
inductive AddrOrPtr where
  | addr (a : Address)
  | ptr (index : UInt8)
  deriving DecidableEq

def AddrOrPtr.real (addrs : List Address) : AddrOrPtr → Ret Address
  | .addr a => .ok a
  | .ptr index => okOr addrs[index.toNat]? (.fault "addr ptr index out of range")

/-- `AddrOrList`. -/
inductive AddrOrList where
  | single (a : Address)
  | list (as : List Address)
  deriving DecidableEq

namespace AddrOrList

def toList : AddrOrList → List Address
  | single a => [a]
  | list as => as

/-- `encode_to`: the count of a list is moved up, past the versions of addresses. -/
def encode : AddrOrList → List UInt8
  | single a => a.bytes
  | list as => UInt8.ofNat (as.length + addrRefMarkerBase) :: as.flatMap Address.bytes

def size : AddrOrList → ℕ
  | single _ => 21
  | list as => 1 + as.length * 21

/-- `decode` where the first byte says that a list follows. -/
def decodeList : Decode AddrOrList := do
  let marker ← Uint.decode 1
  Decoder.guard (marker.uint - addrRefMarkerBase ≠ 0) (.normal "AddrOrList list cannot be empty")
  let as ← Address.decode.many (marker.uint - addrRefMarkerBase)
  return list as

def decode : Decode AddrOrList :=
  peek (Uint.decode 1) fun first =>
    if first.uint < addrRefMarkerBase then do
      let a ← Address.decode
      return single a
    else decodeList

/-- Supported versions only, and a list with as many addresses as its marker can say. -/
def Valid : AddrOrList → Prop
  | single a => a.isSupported = true
  | list as => as ≠ [] ∧ as.length ≤ 235 ∧ ∀ a ∈ as, a.isSupported = true

theorem encode_length (x : AddrOrList) : x.encode.length = x.size := by
  cases x with
  | single a => exact a.size
  | list as =>
    have hsum : (as.flatMap Address.bytes).length = as.length * 21 := by
      induction as with
      | nil => rfl
      | cons a as ih => rw [flatMap_cons, length_append, ih, a.size, length_cons]; ring
    rw [encode, length_cons, hsum, size, add_comm]

/-- The first byte as the decoder looks at it. -/
theorem decode_first (b : UInt8) (bytes : List UInt8) :
    Uint.decode 1 (b :: bytes) = .ok (⟨b.toNat, by simpa using b.toNat_lt⟩, 1) := by
  have h : 1 ≤ (b :: bytes).length := by simp
  rw [Uint.decode, dif_pos h]
  simp [beValue_cons]

theorem codes : Codes decode encode Valid where
  reads := by
    refine reads_peek fun first => ?_
    split_ifs with hfirst
    · refine reads_bind Address.codes.reads fun a u hu => reads_pure ?_
      exact ⟨by rw [append_nil, hu.1]; rfl, hu.2⟩
    · refine reads_bind (Uint.codes 1).reads fun marker u hu =>
        reads_bind (reads_guard _) fun _ v hv =>
          reads_bind (Address.codes.many _).reads fun as w hw => reads_pure ?_
      obtain ⟨rfl, -⟩ := hu
      obtain ⟨hne, rfl⟩ := hv
      obtain ⟨rfl, hlen, hvalid⟩ := hw
      have hlt : marker.uint < 256 := by simpa using marker.lt
      have hmarker : as.length + addrRefMarkerBase = marker.uint := by omega
      refine ⟨?_, ?_, ?_, hvalid⟩
      · rw [encode, hmarker, append_nil, nil_append, Uint.encode, beBytes, beBytes]
        simp
      · rintro rfl
        exact hne hlen.symm
      · rw [hlen, addrRefMarkerBase]
        omega
  accepts x hx := by
    cases x with
    | single a =>
      obtain ⟨b, bytes, hb⟩ : ∃ b bytes, a.bytes = b :: bytes := by
        cases hbytes : a.bytes with
        | nil => have := a.size; rw [hbytes] at this; cases this
        | cons b bytes => exact ⟨b, bytes, rfl⟩
      have hversion : b.toNat < addrRefMarkerBase := by
        have hs : a.isSupported = true := hx
        have hv : a.version = b := by rw [Address.version, hb]; rfl
        simp only [Address.isSupported, Address.isPrivkey, Address.isContract, Address.isScriptmh,
          hv, Bool.or_eq_true, beq_iff_eq] at hs
        rcases hs with (rfl | rfl) | rfl <;> decide
      have hfirst : ∀ rest, Uint.decode 1 (encode (.single a) ++ rest)
          = .ok (⟨b.toNat, by simpa using b.toNat_lt⟩, 1) := by
        intro rest
        rw [encode, hb, cons_append, decode_first]
      refine accepts_peek hfirst ?_
      rw [if_pos hversion]
      exact accepts_last (Address.codes.accepts a hx) rfl
    | list as =>
      obtain ⟨hne, hle, hvalid⟩ := hx
      have hlt : as.length + addrRefMarkerBase < 256 := by rw [addrRefMarkerBase]; omega
      have hmarker : encode (.list as) = (⟨as.length + addrRefMarkerBase, by simpa using hlt⟩ :
          Uint 1).encode ++ ([] ++ as.flatMap Address.bytes) := by
        rw [encode, Uint.encode, beBytes, beBytes, pow_zero, Nat.div_one]
        rfl
      have hfirst : ∀ rest, Uint.decode 1 (encode (.list as) ++ rest)
          = .ok (⟨as.length + addrRefMarkerBase, by simpa using hlt⟩, 1) := by
        intro rest
        rw [hmarker, append_assoc]
        exact (Uint.codes 1).accepts ⟨as.length + addrRefMarkerBase, _⟩ trivial _
      refine accepts_peek hfirst ?_
      rw [if_neg (by dsimp only; omega), hmarker]
      have hpos := length_pos_of_ne_nil hne
      have hmany := (Address.codes.many as.length).accepts as ⟨rfl, hvalid⟩
      refine accepts_bind ((Uint.codes 1).accepts _ trivial)
        (accepts_bind (accepts_guard _ ?_) (accepts_last ?_ rfl))
      · dsimp only
        omega
      · rw [Nat.add_sub_cancel]
        exact hmany

end AddrOrList

end Hacash
