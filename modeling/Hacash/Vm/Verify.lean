import Hacash.Lib.Scan
import Hacash.Vm.Exec

/-!
# The bytecode verifier (`vm::rt`, verify.rs)

One pass marks where instructions start and checks their parameters and jumps; two more refuse code
that certainly underflows the stack.
-/

namespace Hacash

open Lib

namespace Vm

/-! ## One instruction (verify.rs:98–235) -/

/-- `pu8!`. -/
def verifyPu8 (codes : List UInt8) (i : ℕ) : VmrtRes ℕ := do
  check (i < codes.length) .instParamsErr
  return readUint codes i 1

/-- `pu16!`. -/
def verifyPu16 (codes : List UInt8) (i : ℕ) : VmrtRes ℕ := do
  check (i + 2 ≤ codes.length) .instParamsErr
  return readUint codes i 2

/-- `ensure_act_id`. Without a registry the id is not checked. -/
def ensureActId (registry : Option HostRegistry) (kind : VmHostCallKind) (id : ℕ) :
    VmrtRes Unit :=
  match registry with
  | none => .ok ()
  | some reg => check ((reg.vmHostDef kind id).isSome = true) .instParamsErr "id not found"

/-- The parameters of an instruction, which start at `i`: an immediate buffer, or jump
destinations. -/
def verifyParams (codes : List UInt8) (maxPushBufLen : ℕ) (registry : Option HostRegistry)
    (i : ℕ) (inst : Bytecode) : VmrtRes (ℕ × List ℤ) := do
  match inst with
  | .PBUF =>
    let l ← verifyPu8 codes i
    check (l ≤ maxPushBufLen) .instParamsErr "PBUF size too large"
    return (l, [])
  | .PBUFL =>
    let l ← verifyPu16 codes i
    check (l ≤ maxPushBufLen) .instParamsErr "PBUFL size too large"
    return (l, [])
  | .ACTION =>
    ensureActId registry .action (← verifyPu8 codes i)
    return (0, [])
  | .ACTENV =>
    ensureActId registry .env (← verifyPu8 codes i)
    return (0, [])
  | .ACTVIEW =>
    ensureActId registry .view (← verifyPu8 codes i)
    return (0, [])
  | .NTFUNC =>
    let idx ← verifyPu8 codes i
    check (idx ∈ nativeFuncIdxs) .nativeFuncError "native func idx not found"
    return (0, [])
  | .NTCTL =>
    let idx ← verifyPu8 codes i
    check (idx ∈ nativeCtlIdxs) .nativeCtlError "native ctl idx not found"
    return (0, [])
  | .NTENV =>
    let idx ← verifyPu8 codes i
    check (idx ∈ nativeEnvIdxs) .nativeEnvError "native env idx not found"
    return (0, [])
  | .CTO =>
    let _ ← parseCtoTargetTyParam (← verifyPu8 codes i)
    return (0, [])
  | .TIS =>
    let _ ← parseValueTyParam (← verifyPu8 codes i)
    return (0, [])
  | .JMPL | .BRL =>
    return (0, [((← verifyPu16 codes i : ℕ) : ℤ)])
  | .JMPS | .BRS =>
    return (0, [(i : ℤ) + asSigned 1 (← verifyPu8 codes i) + 1])
  | .JMPSL | .BRSL | .BRSLN =>
    return (0, [(i : ℤ) + asSigned 2 (← verifyPu16 codes i) + 2])
  | inst =>
    if inst.isFinFamily then
      finSpecLookup inst (← verifyPu8 codes i)
      return (0, [])
    else if inst.isUserCallInst then
      check (i + inst.metadata.param ≤ codes.length) .instParamsErr
      let _ ← decodeUserCallSite inst (slice codes i inst.metadata.param)
      return (0, [])
    else return (0, [])

/-- One turn of the walk: the instruction at `i`, the next position and the destinations found. -/
def verifyInst (codes : List UInt8) (maxPushBufLen : ℕ) (registry : Option HostRegistry)
    (i : ℕ) : VmrtRes (Bytecode × ℕ × List ℤ) := do
  let inst ← Bytecode.tryFromU8 (codes.getD i 0)
  check (inst.isIr = false) .instInvalid "IR bytecode is not allowed"
  let (buf, dests) ← verifyParams codes maxPushBufLen registry (i + 1) inst
  check (i + 1 + buf + inst.metadata.param ≤ codes.length) .instParamsErr
  return (inst, i + 1 + buf + inst.metadata.param, dests)

/-- The position, the instruction before it, the positions marked and the destinations so far. -/
structure VerifyScan where
  i : ℕ
  cur : Bytecode
  instable : List ℕ
  jumpdest : List ℤ

/-- One turn of the walk. -/
def VerifyScan.step (codes : List UInt8) (maxPushBufLen : ℕ) (registry : Option HostRegistry)
    (s : VerifyScan) : VmrtRes VerifyScan := do
  let (inst, next, dests) ← verifyInst codes maxPushBufLen registry s.i
  return ⟨next, inst, s.i :: s.instable, s.jumpdest ++ dests⟩

/-- `verify_valid_instruction`. Every turn moves on (`verifyScan_fuel`). -/
def verifyValidInstruction (codes : List UInt8) (maxPushBufLen : ℕ)
    (registry : Option HostRegistry) : VmrtRes (List ℕ × List ℤ) := do
  let s ← scan (fun s => decide (codes.length ≤ s.i))
    (VerifyScan.step codes maxPushBufLen registry) ⟨.neverError, ""⟩ codes.length
    ⟨0, .END, [], []⟩
  ensureTerminalInstruction s.cur
  return (s.instable, s.jumpdest)

def verifyJumpDests (codes : List UInt8) (instable : List ℕ) (jumpdests : List ℤ) :
    VmrtRes Unit :=
  jumpdests.forM fun j => do
    check (0 ≤ j ∧ j ≤ (codes.length : ℤ) - 1) .jumpOverflow
    check (j.toNat ∈ instable) .jumpInDataSeg

/-! ## Straight-line stack depth (verify.rs:237–470) -/

/-- `VerifyEntryStack`. -/
inductive VerifyEntryStack where
  | empty | argv | optionalArgv
  deriving DecidableEq

/-- `LinearStackState`. -/
structure LinearStackState where
  minDepth : ℤ
  maxDepth : ℤ
  topConstU16 : Option ℕ

namespace LinearStackState

def new : VerifyEntryStack → LinearStackState
  | .empty => ⟨0, 0, none⟩
  | .argv => ⟨1, 1, none⟩
  | .optionalArgv => ⟨0, 1, none⟩

def pushUnknown (s : LinearStackState) : LinearStackState :=
  ⟨s.minDepth + 1, s.maxDepth + 1, none⟩

def pushConst (s : LinearStackState) (value : ℕ) : LinearStackState :=
  ⟨s.minDepth + 1, s.maxDepth + 1, some value⟩

def applyEffect (s : LinearStackState) (input output : ℕ) : VmrtRes LinearStackState := do
  check ((input : ℤ) ≤ s.maxDepth) .stackError
    "bytecode requires more stack values than available"
  let survivingMin := if s.minDepth < input then (input : ℤ) else s.minDepth
  return ⟨survivingMin - input + output, s.maxDepth - input + output, none⟩

end LinearStackState

def readU8Param (codes : List UInt8) (pc : ℕ) : VmrtRes ℕ := do
  check (pc + 1 < codes.length) .instParamsErr
  return readUint codes (pc + 1) 1

def Bytecode.isExternalStackBoundary : Bytecode → Bool
  | .ACTION | .ACTENV | .ACTVIEW | .NTENV | .NTCTL | .NTFUNC => true
  | inst => inst.isUserCallInst

/-- One turn of the depth check; `none` ends it. -/
def linearStackStep (codes : List UInt8) (pc : ℕ) (inst : Bytecode) (s : LinearStackState) :
    VmrtRes (Option LinearStackState) := do
  match inst with
  | .P0 => return some (s.pushConst 0)
  | .P1 => return some (s.pushConst 1)
  | .P2 => return some (s.pushConst 2)
  | .P3 => return some (s.pushConst 3)
  | .PU8 => return some (s.pushConst (← readU8Param codes pc))
  | .PU16 =>
    check (pc + 1 + 2 ≤ codes.length) .instParamsErr
    return some (s.pushConst (readUint codes (pc + 1) 2))
  | .PBUF | .PBUFL | .PNIL | .PNBUF | .PTRUE | .PFALSE | .NEWLIST | .NEWMAP | .GET | .GET0
  | .GET1 | .GET2 | .GET3 | .HREADUL | .HREADU => return some s.pushUnknown
  | .DUP =>
    let s' ← s.applyEffect 1 2
    return some { s' with topConstU16 := s.topConstU16 }
  | .DUPN =>
    let n ← readU8Param codes pc
    check (2 ≤ n) .stackError "inst dupn param must be at least 2"
    let s' ← s.applyEffect n (n * 2)
    return some { s' with topConstU16 := s.topConstU16 }
  | .POP => return some (← s.applyEffect 1 0)
  | .POPN => return some (← s.applyEffect (← readU8Param codes pc) 0)
  | .ROLL0 => return some (← s.applyEffect 1 1)
  | .ROLL =>
    let n ← readU8Param codes pc
    return some (← s.applyEffect (n + 1) (n + 1))
  | .REV =>
    let n ← readU8Param codes pc
    check (2 ≤ n) .stackError "inst reverse param must be at least 2"
    return some (← s.applyEffect n n)
  | .JOIN =>
    let n ← readU8Param codes pc
    check (3 ≤ n) .stackError "inst join param must be at least 3"
    return some (← s.applyEffect n 1)
  | .PACKLIST | .PACKMAP | .PACKTUPLE =>
    match s.topConstU16 with
    | none =>
      let _ ← s.applyEffect 1 1
      return none
    | some arity =>
      check (arity ≠ 0) .compoPackError
      return some (← s.applyEffect (arity + 1) 1)
  | .JMPL | .JMPS | .JMPSL => return none
  | .BRL | .BRS | .BRSL | .BRSLN =>
    let _ ← s.applyEffect 1 0
    return none
  | inst =>
    if inst.isExternalStackBoundary then return none
    else if inst.metadata.input = 255 ∨ inst.metadata.output = 255 then return none
    else return some (← s.applyEffect inst.metadata.input inst.metadata.output)

/-- Whether a walk that may stop early is over. -/
def walkDone {α : Type} (codes : List UInt8) : Option (ℕ × α) → Bool
  | none => true
  | some (pc, _) => decide (codes.length ≤ pc)

/-- One instruction of the depth check. -/
def linearStackTurn (codes : List UInt8) :
    Option (ℕ × LinearStackState) → VmrtRes (Option (ℕ × LinearStackState))
  | none => .ok none
  | some (pc, s) => do
    let inst ← Bytecode.tryFromU8 (codes.getD pc 0)
    let next ← instructionEnd codes pc inst
    return (← linearStackStep codes pc inst s).map fun s => (next, s)

def verifyLinearStackEffects (codes : List UInt8) (entryStack : VerifyEntryStack) :
    VmrtRes Unit := do
  let _ ← scan (walkDone codes) (linearStackTurn codes) ⟨.neverError, ""⟩ (codes.length + 1)
    (some (0, .new entryStack))

/-- The instructions that push a literal. -/
def Bytecode.isLiteral : Bytecode → Bool
  | .PU8 | .PU16 | .PBUF | .PBUFL | .P0 | .P1 | .P2 | .P3 | .PNIL | .PNBUF | .PTRUE
  | .PFALSE => true
  | _ => false

/-- One instruction of the literals: they are counted up to the first other instruction. -/
def literalFinTurn (codes : List UInt8) : Option (ℕ × ℕ) → VmrtRes (Option (ℕ × ℕ))
  | none => .ok none
  | some (i, depth) => do
    let inst ← Bytecode.tryFromU8 (codes.getD i 0)
    let pend ← instructionEnd codes i inst
    if inst.isLiteral then return some (pend, depth + 1)
    else do
      check (inst.isFinFamily = false ∨ inst.metadata.input ≤ depth) .stackError
        "bytecode requires more stack values than available"
      return none

def verifyLiteralFinStackPrefix (codes : List UInt8) : VmrtRes Unit := do
  let _ ← scan (walkDone codes) (literalFinTurn codes) ⟨.neverError, ""⟩ (codes.length + 1)
    (some (0, 1))

/-! ## The verifier (verify.rs:77–96) -/

/-- `verify_bytecodes_with_limits`: the positions at which instructions start. -/
def verifyBytecodesWithLimits (codes : List UInt8) (maxPushBufLen : ℕ)
    (entryStack : VerifyEntryStack) (registry : Option HostRegistry) : VmrtRes (List ℕ) := do
  check (codes.length ≠ 0) .codeEmpty
  check (codes.length ≤ 65535) .codeTooLong
  let (instable, jumpdests) ← verifyValidInstruction codes maxPushBufLen registry
  verifyJumpDests codes instable jumpdests
  verifyLinearStackEffects codes entryStack
  verifyLiteralFinStackPrefix codes
  return instable

def verifyBytecodes (codes : List UInt8) : VmrtRes (List ℕ) :=
  verifyBytecodesWithLimits codes 1280 .optionalArgv none

def verifyBytecodesForCap (codes : List UInt8) (maxPushBufLen : ℕ) (registry : HostRegistry) :
    VmrtRes (List ℕ) :=
  verifyBytecodesWithLimits codes maxPushBufLen .optionalArgv (some registry)

end Vm

end Hacash
