import Hacash.Field.Types
import Hacash.Lib.Transaction

/-!
# Values of the virtual machine (`vm::value`, `vm::rt`)

Scalars, tuples, and references to shared lists and maps. Integers of all widths share a key exactly
when they are equal (`uintKeyBytes_injective`).
-/

namespace Hacash

open Lib

namespace Vm

/-! ## Errors (error.rs) -/

/-- `ItrErrCode`. -/
inductive ItrErrCode where
  | contractError | notFindContract | abstTypeError | codeTypeError | inheritError
  | libraryError | compileError | contractAddrErr | contractUpgradeErr | codeError
  | codeTooLong | codeOverflow | codeEmpty | codeNotWithEnd | jumpOverflow | jumpInDataSeg
  | irNodeOverDepth | instInvalid | instDisabled | actDisabled | instNeverTouch
  | instParamsErr | outOfGas | outOfStack | outOfLocal | outOfHeap | outOfMemory
  | outOfGlobal | outOfCallDepth | outOfLoadContract | outOfValueSize | outOfCompoLen
  | gasError | stackError | localError | heapError | memoryError | globalError
  | storageError | outOfLogSize | logError | callNotExist | callLibIdxOverflow
  | callInvalid | callExitInvalid | callInAbst | callOtherInMain | callLocInView
  | callInPure | callOtherInP2sh | callNoReturn | callNotExternal | callArgvTypeFail
  | castFail | castParamFail | castBeKeyFail | castBeUintFail | castBeBytesFail
  | castBeValueFail | castBeFnArgvFail | castBeCallDataFail | castBeFnRetvFail
  | compoOpInvalid | compoOpOverflow | compoToSerialize | compoOpNotMatch | compoPackError
  | compoNoFindItem | arithmetic | bytesHandle | nativeFuncError | nativeEnvError
  | nativeCtlError | actCallError | actCallRevert | itemNoSize | storageKeyInvalid
  | storageKeyNotFind | storageExpired | storageNotExpired | storagePeriodErr
  | storageValSizeErr | storageRestoreNotMatch | storageNotActive | storageKeyExists
  | storageNilNotAllowed | storagePatchExpected | storagePatchInvalid | memoryKeyExists
  | userAbort | throwAbort | deferredError | intentError | executionDeadline
  | stateReadFailed | stateDecodeFailed | codecOnlyUnsupported | neverError
  deriving DecidableEq, Repr

/-- `ItrErr`: code and message. -/
structure ItrErr where
  code : ItrErrCode
  msg : String := ""
  deriving DecidableEq, Repr

/-- `VmrtRes<T>`. -/
abbrev VmrtRes (α : Type) : Type := Except ItrErr α

/-- `itr_err_code!`. -/
def itrErr {α : Type} (code : ItrErrCode) : VmrtRes α := .error ⟨code, ""⟩

/-- A test whose failure is an error of the interpreter. -/
def check (p : Prop) [Decidable p] (code : ItrErrCode) (msg : String := "") : VmrtRes Unit :=
  if p then .ok () else .error ⟨code, msg⟩

variable {p : Prop} {code : ItrErrCode} {msg : String}

theorem check_bind_iff {α : Type} [Decidable p] {f : Unit → VmrtRes α} {a : α} :
    (check p code msg >>= f) = .ok a ↔ p ∧ f () = .ok a := by
  by_cases hp : p
  · rw [check, if_pos hp, ok_bind]
    exact ⟨fun h => ⟨hp, h⟩, fun h => h.2⟩
  · rw [check, if_neg hp]
    exact ⟨nofun, fun h => absurd h.1 hp⟩

theorem check_drop {α : Type} [Decidable p] {f : Unit → VmrtRes α} {a : α}
    (h : (check p code msg >>= f) = .ok a) : f () = .ok a := (check_bind_iff.mp h).2

theorem of_check [Decidable p] {u : Unit} (h : check p code msg = .ok u) : p := by
  by_contra hp
  rw [check, if_neg hp] at h
  cases h

theorem check_of [Decidable p] (code : ItrErrCode) (msg : String) (hp : p) :
    check p code msg = .ok () := if_pos hp

theorem failsOnly_check [Decidable p]
    {P : ItrErr → Prop} (h : P ⟨code, msg⟩) : FailsOnly P (check p code msg) := by
  by_cases hp : p
  · rw [check, if_pos hp]
    exact .ok ()
  · rw [check, if_neg hp]
    exact .error h

theorem forM_eq_ok {α : Type} {f : α → VmrtRes Unit} :
    ∀ {l : List α} {u : Unit}, l.forM f = .ok u ↔ ∀ a ∈ l, f a = .ok ()
  | [], u => ⟨fun _ => nofun, fun _ => rfl⟩
  | a :: l, u => by
    show (f a >>= fun _ => l.forM f) = .ok u ↔ _
    rw [List.forall_mem_cons]
    constructor
    · intro h
      obtain ⟨_, ha, h⟩ := bind_eq_ok h
      exact ⟨ha, forM_eq_ok.mp h⟩
    · rintro ⟨ha, hl⟩
      rw [ha, ok_bind]
      exact forM_eq_ok.mpr hl

/-! ## Values (item.rs, type.rs) -/

/-- The widths of unsigned integers. -/
inductive UintTy where
  | u8 | u16 | u32 | u64 | u128
  deriving DecidableEq, Repr

/-- The number of bytes of a width. -/
def UintTy.size : UintTy → ℕ
  | .u8 => 1
  | .u16 => 2
  | .u32 => 4
  | .u64 => 8
  | .u128 => 16

/-- `Value`. A `compo` refers to a shared list or map, a `handle` to a runtime object. -/
inductive Value where
  | nil
  | bool (b : Bool)
  | uint (ty : UintTy) (n : Fin (256 ^ ty.size))
  | bytes (b : List UInt8)
  | address (a : Address)
  | tuple (items : List Value)
  | compo (ref : ℕ)
  | handle (ref : ℕ)

namespace Value

def isNil : Value → Bool
  | .nil => true
  | _ => false

def isUint : Value → Bool
  | .uint _ _ => true
  | _ => false

/-- `is_scalar_value`. -/
def isScalar : Value → Bool
  | .tuple _ | .compo _ | .handle _ => false
  | _ => true

def checkScalarAs (v : Value) (ec : ItrErrCode) : VmrtRes Unit := check (v.isScalar = true) ec

def checkScalar (v : Value) : VmrtRes Unit := v.checkScalarAs .castBeValueFail

def checkNonNilScalar (v : Value) (nilEc : ItrErrCode) : VmrtRes Unit := do
  check (v.isNil = false) nilEc
  v.checkScalarAs .castBeValueFail

def uintU128Opt : Value → Option ℕ
  | .uint _ n => some n.val
  | _ => none

/-- `extract_uint_cast` to an integer of the given size. -/
def extractUintCast (v : Value) (size : ℕ) : VmrtRes ℕ :=
  match v.uintU128Opt with
  | none => .error ⟨.castParamFail, "cannot cast type"⟩
  | some n => do
    check (n < 256 ^ size) .castParamFail "cannot cast param"
    return n

def extractU128 (v : Value) : VmrtRes ℕ := v.extractUintCast 16

def scalarBytes : Value → Option (List UInt8)
  | .nil => some []
  | .bool b => some [if b then 1 else 0]
  | .uint ty n => some (beBytes ty.size n.val)
  | .bytes b => some b
  | .address a => some a.bytes
  | _ => none

/-- `val_size` of a scalar. -/
def scalarSize (v : Value) : Option ℕ := v.scalarBytes.map List.length

/-- `extract_bytes_len_with_error_code`. -/
def extractBytesLen (v : Value) (ec : ItrErrCode) : VmrtRes ℕ :=
  match v with
  | .nil => itrErr ec
  | v => match v.scalarSize with
    | some n => .ok n
    | none => itrErr ec

/-- `extract_bytes_with_error_code`. -/
def extractBytes (v : Value) (ec : ItrErrCode) : VmrtRes (List UInt8) :=
  match v with
  | .nil => itrErr ec
  | v => match v.scalarBytes with
    | some b => .ok b
    | none => itrErr ec

def canGetSize (v : Value) : VmrtRes ℕ :=
  match v.scalarSize with
  | none => itrErr .itemNoSize
  | some n => do
    check (n < 65535) .outOfValueSize
    return n

end Value

/-- `ValueTy`. -/
inductive ValueTy where
  | nil | bool | uint (ty : UintTy) | bytes | address | tuple | compo | handle
  deriving DecidableEq

def ValueTy.build : ℕ → Option ValueTy
  | 0 => some .nil
  | 1 => some .bool
  | 2 => some (.uint .u8)
  | 3 => some (.uint .u16)
  | 4 => some (.uint .u32)
  | 5 => some (.uint .u64)
  | 6 => some (.uint .u128)
  | 8 => some .bytes
  | 9 => some .address
  | 13 => some .tuple
  | 14 => some .compo
  | 15 => some .handle
  | _ => none

def parseValueTyParam (raw : ℕ) : VmrtRes ValueTy :=
  match ValueTy.build raw with
  | some ty => .ok ty
  | none => .error ⟨.instParamsErr, "unknown type"⟩

/-- `parse_cto_target_ty_param`: the types a cast may name. -/
def parseCtoTargetTyParam (raw : ℕ) : VmrtRes ValueTy := do
  match ← parseValueTyParam raw with
  | .nil | .tuple | .compo | .handle => itrErr .instParamsErr
  | ty => return ty

/-- `ContractAddress`: an address of a contract. -/
abbrev ContractAddress : Type := {a : Address // a.isContract = true}

/-- `uint_key_bytes`: the big-endian bytes without leading zeros, but one for zero. -/
def uintKeyBytes (n : ℕ) : List UInt8 :=
  if dropLeftZero (beBytes 16 n) = [] then [0] else dropLeftZero (beBytes 16 n)

/-- `extract_key_bytes_with_error_code`. -/
def Value.extractKeyBytes (v : Value) (ec : ItrErrCode) : VmrtRes (List UInt8) :=
  match v with
  | .bool _ => itrErr ec
  | .nil => itrErr ec
  | .uint _ n => .ok (uintKeyBytes n.val)
  | v => do
    let key ← v.extractBytes ec
    check (key ≠ []) ec
    return key

theorem beValue_uintKeyBytes {n : ℕ} (h : n < 256 ^ 16) : beValue (uintKeyBytes n) = n := by
  have hvalue : beValue (dropLeftZero (beBytes 16 n)) = n := by
    rw [beValue_dropLeftZero, beValue_beBytes h]
  rw [uintKeyBytes]
  split_ifs with hnil
  · rw [hnil] at hvalue
    rw [← hvalue]
    rfl
  · exact hvalue

theorem uintKeyBytes_injective {n m : ℕ} (hn : n < 256 ^ 16) (hm : m < 256 ^ 16)
    (h : uintKeyBytes n = uintKeyBytes m) : n = m := by
  rw [← beValue_uintKeyBytes hn, h, beValue_uintKeyBytes hm]

theorem UintTy.lt_u128 (ty : UintTy) (n : Fin (256 ^ ty.size)) : n.val < 256 ^ 16 := by
  have hsize : 256 ^ ty.size ≤ 256 ^ 16 := by
    apply Nat.pow_le_pow_right (by decide)
    cases ty <;> decide
  exact lt_of_lt_of_le n.isLt hsize

theorem extractKeyBytes_uint_iff (ty ty' : UintTy) (n : Fin (256 ^ ty.size))
    (m : Fin (256 ^ ty'.size)) (ec : ItrErrCode) :
    (Value.uint ty n).extractKeyBytes ec = (Value.uint ty' m).extractKeyBytes ec
      ↔ n.val = m.val := by
  show Except.ok (uintKeyBytes n.val) = Except.ok (uintKeyBytes m.val) ↔ _
  constructor
  · intro h
    exact uintKeyBytes_injective (ty.lt_u128 n) (ty'.lt_u128 m) (Except.ok.inj h)
  · intro h
    rw [h]

end Vm

end Hacash
