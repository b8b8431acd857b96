import Hacash.Field.Wire
import Hacash.Vm.Value

/-!
# The bytes of values and statuses (`vm::value::field`, `vm::state::status`)

`Value.codes` for one value, `StatusSto.decode_encode` for a status.
-/

namespace Hacash

open Lib List Decoder Vm.ValueTy

namespace Vm

def valueShort : Error := .fault "value buf too short"

def takeBytes (n : ℕ) (e : Error) : Decode {b : List UInt8 // b.length = n} := fun buf =>
  if h : n ≤ buf.length then .ok (⟨buf.take n, length_take_of_le h⟩, n) else .error e

theorem takeBytes_codes (n : ℕ) (e : Error) :
    Codes (takeBytes n e) Subtype.val fun _ => True where
  reads := by
    intro buf a k h
    unfold takeBytes at h
    split_ifs at h with hn
    cases h
    exact ⟨hn, rfl, trivial⟩
  accepts a _ := by
    intro rest
    have hle : n ≤ (a.val ++ rest).length := by
      rw [length_append, a.property]
      exact Nat.le_add_right ..
    have htake : (a.val ++ rest).take n = a.val := take_left' a.property
    rw [takeBytes, dif_pos hle, a.property]
    simp only [htake]

def ValueTy.num : ValueTy → UInt8
  | .nil => 0
  | .bool => 1
  | .uint .u8 => 2
  | .uint .u16 => 3
  | .uint .u32 => 4
  | .uint .u64 => 5
  | .uint .u128 => 6
  | .bytes => 8
  | .address => 9
  | .tuple => 13
  | .compo => 14
  | .handle => 15

theorem beValue_singleton (n : UInt8) : beValue [n] = n.toNat := by simp [beValue]

theorem ValueTy.build_num (ty : ValueTy) : build (beValue [ty.num]) = some ty := by
  cases ty with
  | uint ty => cases ty <;> rfl
  | _ => rfl

theorem ValueTy.num_of_build {n : UInt8} {ty : ValueTy}
    (h : build (beValue [n]) = some ty) : n = ty.num := by
  rw [beValue_singleton] at h
  unfold build at h
  split at h
  all_goals
    rename_i hn
    cases h
  all_goals exact UInt8.toNat_inj.mp hn

namespace Value

def ty : Value → ValueTy
  | .nil => .nil
  | .bool _ => .bool
  | .uint ty _ => .uint ty
  | .bytes _ => .bytes
  | .address _ => .address
  | .tuple _ => .tuple
  | .compo _ => .compo
  | .handle _ => .handle

def tyNum (v : Value) : UInt8 := v.ty.num

/-- `Value::encode`; it panics on values without a size and on the longest byte strings. -/
def encode (v : Value) : Option (List UInt8) :=
  match v with
  | .tuple _ | .compo _ | .handle _ => none
  | .bytes b => if b.length < 65535 then some (8 :: (beBytes 2 b.length ++ b)) else none
  | v => v.scalarBytes.map (v.tyNum :: ·)

def decodeAs : ValueTy → Decode Value
  | .nil => return .nil
  | .bool => do
    let b ← takeBytes 1 valueShort
    Decoder.guard (beValue b.val ≤ 1) (.fault "value bool invalid")
    return .bool (beValue b.val == 1)
  | .uint ty => do
    let b ← takeBytes ty.size valueShort
    return .uint ty ⟨beValue b.val, by simpa only [b.property] using beValue_lt b.val⟩
  | .bytes => do
    let l ← takeBytes 2 valueShort
    let b ← takeBytes (beValue l.val) valueShort
    return .bytes b.val
  | .address => do
    let a ← Address.decode
    return .address a
  | _ => Decoder.fail (.fault "Tuple, handle, compo or slice value item cannot be parsed")

def decode : Decode Value := do
  let t ← takeBytes 1 valueShort
  match build (beValue t.val) with
  | some ty => decodeAs ty
  | none => Decoder.fail (.fault "unknown type")

def payload (v : Value) : List UInt8 :=
  match v with
  | .bytes b => beBytes 2 b.length ++ b
  | v => v.scalarBytes.getD []

def Stored : Value → Prop
  | .bytes b => b.length < 65536
  | .address a => a.isSupported = true
  | .tuple _ | .compo _ | .handle _ => False
  | _ => True

theorem decodeAs_reads (ty : ValueTy) :
    (decodeAs ty).Reads fun v bytes => bytes = v.payload ∧ v.ty = ty ∧ v.Stored := by
  cases ty with
  | nil => exact reads_pure ⟨rfl, rfl, trivial⟩
  | bool =>
    refine reads_bind (takeBytes_codes 1 _).reads fun b u hu =>
      reads_bind (reads_guard _) fun _ w hw => reads_pure ?_
    obtain ⟨hle, rfl⟩ := hw
    refine ⟨?_, rfl, trivial⟩
    obtain ⟨x, hx⟩ := length_eq_one_iff.mp b.property
    rw [hx, beValue_singleton] at hle
    rw [hu.1, hx, append_nil, append_nil]
    have hbit : x = 0 ∨ x = 1 := by
      rw [← UInt8.toNat_inj, ← UInt8.toNat_inj]
      exact Nat.le_one_iff_eq_zero_or_eq_one.mp hle
    rcases hbit with rfl | rfl <;> rfl
  | uint ty =>
    refine reads_bind (takeBytes_codes ty.size _).reads fun b u hu => reads_pure ?_
    refine ⟨?_, rfl, trivial⟩
    have hbytes := beBytes_beValue b.val
    rw [b.property] at hbytes
    rw [hu.1, append_nil]
    exact hbytes.symm
  | bytes =>
    refine reads_bind (takeBytes_codes 2 _).reads fun l u hu =>
      reads_bind (takeBytes_codes _ _).reads fun b w hw => reads_pure ?_
    have hbytes := beBytes_beValue l.val
    have hlt := beValue_lt l.val
    rw [l.property] at hbytes hlt
    refine ⟨?_, rfl, show b.val.length < 256 ^ 2 by rwa [b.property]⟩
    rw [hu.1, hw.1, append_nil, payload, b.property, hbytes]
  | address =>
    refine reads_bind Address.codes.reads fun a u hu => reads_pure ?_
    exact ⟨by rw [hu.1, append_nil]; rfl, rfl, hu.2⟩
  | tuple | compo | handle => exact reads_fail _

theorem decodeAs_accepts {v : Value} (hv : v.Stored) : (decodeAs v.ty).Accepts v v.payload := by
  cases v with
  | nil => exact accepts_pure _
  | bool b =>
    cases b with
    | false =>
      exact accepts_bind (v := []) ((takeBytes_codes 1 _).accepts ⟨[0], rfl⟩ trivial)
        (accepts_last (accepts_guard _ (by decide)) rfl)
    | true =>
      exact accepts_bind (v := []) ((takeBytes_codes 1 _).accepts ⟨[1], rfl⟩ trivial)
        (accepts_last (accepts_guard _ (by decide)) rfl)
  | uint ty n =>
    have hlen : (beBytes ty.size n.val).length = ty.size := beBytes_length ..
    refine accepts_last ((takeBytes_codes _ _).accepts ⟨beBytes ty.size n.val, hlen⟩ trivial) ?_
    have hvalue : beValue (beBytes ty.size n.val) = n.val := beValue_beBytes n.isLt
    simp only [hvalue]
  | bytes b =>
    have hlen : (beBytes 2 b.length).length = 2 := beBytes_length ..
    have hvalue : beValue (beBytes 2 b.length) = b.length := beValue_beBytes hv
    refine accepts_bind ((takeBytes_codes 2 _).accepts ⟨_, hlen⟩ trivial) ?_
    exact accepts_last ((takeBytes_codes _ _).accepts ⟨b, hvalue.symm⟩ trivial) rfl
  | address a => exact accepts_last (Address.codes.accepts a hv) rfl
  | tuple items | compo ref | handle ref => exact hv.elim

/-- **The decoder is the inverse of the encoding.** -/
theorem codes : Codes decode (fun v => v.tyNum :: v.payload) Stored where
  reads := by
    refine reads_bind (takeBytes_codes 1 _).reads fun t u hu => ?_
    obtain ⟨n, hn⟩ := length_eq_one_iff.mp t.property
    cases hty : build (beValue t.val) with
    | none => exact reads_fail _
    | some ty =>
      refine reads_mono (decodeAs_reads ty) fun v w hw => ?_
      obtain ⟨rfl, rfl, hstored⟩ := hw
      rw [hn] at hty
      rw [hu.1, hn, num_of_build hty]
      exact ⟨rfl, hstored⟩
  accepts v hv := by
    refine accepts_bind (u := [v.tyNum]) ((takeBytes_codes 1 _).accepts ⟨_, rfl⟩ trivial) ?_
    rw [tyNum, build_num]
    exact decodeAs_accepts hv

/-- A value that the decoder accepts: no address of an unknown version. -/
def Supported : Value → Prop
  | .address a => a.isSupported = true
  | _ => True

variable {v : Value}

theorem Stored.supported (h : v.Stored) : v.Supported := by
  cases v with
  | address a => exact h
  | _ => trivial

theorem encode_eq {bytes : List UInt8} (h : v.encode = some bytes) :
    bytes = v.tyNum :: v.payload ∧ (v.Supported → v.Stored) := by
  cases v with
  | bytes b =>
    rw [encode] at h
    split_ifs at h with hlen
    cases h
    exact ⟨rfl, fun _ => Nat.lt_succ_of_lt hlen⟩
  | tuple | compo | handle => cases h
  | nil | bool | uint | address =>
    cases h
    exact ⟨rfl, fun h => h⟩

theorem encode_of (hscalar : v.isScalar = true)
    (hlen : ∀ b, v = .bytes b → b.length < 65535) : v.encode = some (v.tyNum :: v.payload) := by
  cases v with
  | bytes b => exact if_pos (hlen b rfl)
  | tuple | compo | handle => cases hscalar
  | nil | bool | uint | address => rfl

/-- A value whose bytes are read at all is read back, and it is supported. -/
theorem eq_of_decode {w : Value} {bytes : List UInt8} {n : ℕ} (h : v.encode = some bytes)
    (hdecode : decode bytes = .ok (w, n)) : w = v ∧ v.Supported := by
  obtain ⟨rfl, hstored⟩ := encode_eq h
  by_cases hv : v.Supported
  · have haccepts := codes.accepts v (hstored hv) []
    rw [append_nil, hdecode] at haccepts
    cases haccepts
    exact ⟨rfl, hv⟩
  · -- an address of an unknown version: what is read would be an address of a known one
    exfalso
    cases v with
    | address a =>
      obtain ⟨hn, htake, hw⟩ := codes.reads hdecode
      obtain ⟨m, rfl⟩ : ∃ m, n = m + 1 := by
        cases n with
        | zero => cases htake
        | succ m => exact ⟨m, rfl⟩
      rw [take_succ_cons, cons.injEq] at htake
      have hty : w.ty = .address := by
        have hbuild := build_num w.ty
        rw [← show ValueTy.num .address = w.ty.num from htake.1, build_num] at hbuild
        exact (Option.some.inj hbuild).symm
      cases w with
      | address a' =>
        have hbytes : a.bytes.take m = a'.bytes := htake.2
        have hlen := congrArg length hbytes
        rw [length_take, a.size, a'.size] at hlen
        rw [take_of_length_le (by rw [a.size]; omega)] at hbytes
        exact hv (Address.eq_of_bytes hbytes ▸ hw)
      | _ => cases hty
    | _ => exact hv trivial

end Value

/-! ## Statuses -/

/-- `BytesW1`. -/
def encodeBytesW1 (b : List UInt8) : List UInt8 := beBytes 1 b.length ++ b

def decodeBytesW1 : Decode (List UInt8) := do
  let count ← Uint.decode 1
  let b ← takeBytes count.uint shortBuffer
  return b.val

theorem decodeBytesW1_codes : Codes decodeBytesW1 encodeBytesW1 fun b => b.length < 256 ^ 1 where
  reads := by
    refine reads_bind (Uint.codes 1).reads fun count u hu =>
      reads_bind (takeBytes_codes _ _).reads fun b w hw => reads_pure ?_
    refine ⟨?_, by rw [b.property]; exact count.lt⟩
    rw [hu.1, hw.1, append_nil, encodeBytesW1, b.property]
    rfl
  accepts b hb :=
    accepts_bind ((Uint.codes 1).accepts ⟨b.length, hb⟩ trivial)
      (accepts_last ((takeBytes_codes _ _).accepts ⟨b, rfl⟩ trivial) rfl)

/-- `StatusSto`: the items in order. -/
abbrev StatusSto : Type := List (List UInt8 × Value)

namespace StatusSto

def itemBytes (item : List UInt8 × Value) : List UInt8 :=
  encodeBytesW1 item.1 ++ item.2.tyNum :: item.2.payload

def encode (sto : StatusSto) : Option (List UInt8) := do
  let items ← sto.mapM fun item => item.2.encode.map (encodeBytesW1 item.1 ++ ·)
  return beBytes 2 sto.length ++ items.flatten

def decodeItem : Decode (List UInt8 × Value) := do
  let key ← decodeBytesW1
  let value ← Value.decode
  return (key, value)

def decode : Decode StatusSto := decodeListW 2 decodeItem

theorem decodeItem_codes :
    Codes decodeItem itemBytes fun item => item.1.length < 256 ^ 1 ∧ item.2.Stored where
  reads := by
    refine reads_bind decodeBytesW1_codes.reads fun key u hu =>
      reads_bind Value.codes.reads fun v w hw => reads_pure ?_
    refine ⟨?_, hu.2, hw.2⟩
    rw [hu.1, hw.1, append_nil]
    rfl
  accepts item h :=
    accepts_bind (decodeBytesW1_codes.accepts item.1 h.1)
      (accepts_last (Value.codes.accepts item.2 h.2) rfl)

theorem encode_of {sto : StatusSto}
    (h : ∀ item ∈ sto, item.2.encode = some (item.2.tyNum :: item.2.payload)) :
    encode sto = some (encodeListW 2 itemBytes sto) := by
  have hitems : sto.mapM (fun item => item.2.encode.map (encodeBytesW1 item.1 ++ ·))
      = some (sto.map itemBytes) := by
    induction sto with
    | nil => rfl
    | cons item sto ih =>
      obtain ⟨hitem, hsto⟩ := forall_mem_cons.mp h
      rw [mapM_cons, hitem, ih hsto]
      rfl
  rw [encode, hitems, encodeListW, flatMap_def]
  rfl

theorem decode_encode {sto : StatusSto} (hlen : sto.length < 65536)
    (h : ∀ item ∈ sto, item.1.length < 256 ∧ item.2.Supported ∧
      item.2.encode = some (item.2.tyNum :: item.2.payload)) :
    ∃ bytes, encode sto = some bytes ∧ decode bytes = .ok (sto, bytes.length) := by
  refine ⟨_, encode_of fun item hitem => (h item hitem).2.2, ?_⟩
  have haccepts := (decodeListW_codes (w := 2) decodeItem_codes).accepts sto
    ⟨hlen, fun item hitem => ?_⟩ []
  · rwa [append_nil] at haccepts
  · obtain ⟨hkey, hsupported, hencode⟩ := h item hitem
    exact ⟨hkey, (Value.encode_eq hencode).2 hsupported⟩

end StatusSto

end Vm

end Hacash
