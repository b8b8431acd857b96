import Hacash.Vm.Value
import Mathlib.Logic.Relation

/-!
# Bytecode and call sites (`vm::rt`: bytecode.rs, call_site.rs, native_catalog.rs, fin.rs)

The opcodes with their widths, and what a user call names. All walks over code use one function
(`instructionEnd`).
-/

namespace Hacash

open Lib

namespace Vm

/-! ## Opcodes (bytecode.rs) -/

/-- `Bytecode`: the opcodes with a name. -/
inductive Bytecode where
  | ACTION | ACTVIEW | ACTENV | NTENV | NTCTL | NTFUNC | CODE_CALL | CALL | CALLEXT
  | CALLEXTVIEW | CALLUSEVIEW | CALLUSEPURE | CALLTHIS | CALLSELF | CALLSUPER
  | CALLSELFVIEW | CALLSELFPURE | PU8 | PU16 | PBUF | PBUFL | P0 | P1 | P2 | P3 | PNIL
  | PNBUF | PTRUE | PFALSE | CU8 | CU16 | CU32 | CU64 | CU128 | CBYTES | CTO | TNIL | TLIST
  | TMAP | TIS | TID | DUP | DUPN | POP | POPN | ROLL0 | ROLL | SWAP | REV | CAT | JOIN
  | BYTE | CUT | LEFT | RIGHT | LDROP | RDROP | SIZE | CHOOSE | NEWLIST | NEWMAP | PACKLIST
  | PACKMAP | INSERT | REMOVE | CLEAR | MERGE | LENGTH | HASKEY | ITEMGET | KEYS | VALUES
  | TAKEFIRST | TAKELAST | APPEND | CLONE | UNPACK | PACKTUPLE | TUPLE2LIST | GPUT | GGET
  | MPUT | MGET | MONCE | MTAKE | MPATCH | XLG | XOP | GET | PUT | GETX | PUTX | ALLOC
  | GET0 | GET1 | GET2 | GET3 | HREADUL | HREADU | HWRITEXL | HWRITEX | HREAD | HWRITE
  | HGROW | LOG1 | LOG2 | LOG3 | LOG4 | SPUT | SGET | SSTAT | SLOAD | SPATCH | SEDIT | SDEL
  | SNEW | SRECV | SRENT | AND | OR | EQ | NEQ | LT | GT | LE | GE | NOT | BSHR | BSHL
  | BXOR | BOR | BAND | ADD | SUB | MUL | DIV | MOD | POW | SQRT | SQRTUP | MAX | MIN
  | CLAMP | ABSDIFF | INC | DEC | ADDMOD | MULMOD | MULADD | MULSUB | DIVUP | DIVEXACT
  | MULDIV | MULDIVUP | FINPOW3 | FINP4 | FINP3 | FIN4 | FIN3 | FIN2 | JMPL | JMPS | JMPSL
  | BRL | BRS | BRSL | BRSLN | REQ | AST | ERR | ABT | RET | END | IRBYTECODE | IRLIST
  | IRBLOCK | IRBLOCKR | IRIF | IRIFR | IRWHILE | IRBREAK | IRCONTINUE | BURN | NOP | NT
  deriving DecidableEq, Inhabited

namespace Bytecode

/-- The byte of every opcode. The bytes left out are reserved. -/
def opcodes : List (UInt8 × Bytecode) :=
  [
   (0x00, .ACTION), (0x06, .ACTVIEW), (0x07, .ACTENV), (0x08, .NTENV), (0x09, .NTCTL),
   (0x0a, .NTFUNC), (0x12, .CODE_CALL), (0x13, .CALL), (0x14, .CALLEXT),
   (0x15, .CALLEXTVIEW), (0x16, .CALLUSEVIEW), (0x17, .CALLUSEPURE), (0x18, .CALLTHIS),
   (0x19, .CALLSELF), (0x1a, .CALLSUPER), (0x1b, .CALLSELFVIEW), (0x1c, .CALLSELFPURE),
   (0x20, .PU8), (0x21, .PU16), (0x22, .PBUF), (0x23, .PBUFL), (0x24, .P0), (0x25, .P1),
   (0x26, .P2), (0x27, .P3), (0x28, .PNIL), (0x29, .PNBUF), (0x2a, .PTRUE),
   (0x2b, .PFALSE), (0x30, .CU8), (0x31, .CU16), (0x32, .CU32), (0x33, .CU64),
   (0x34, .CU128), (0x36, .CBYTES), (0x37, .CTO), (0x38, .TNIL), (0x39, .TLIST),
   (0x3a, .TMAP), (0x3b, .TIS), (0x3c, .TID), (0x40, .DUP), (0x41, .DUPN), (0x42, .POP),
   (0x43, .POPN), (0x44, .ROLL0), (0x45, .ROLL), (0x46, .SWAP), (0x47, .REV), (0x48, .CAT),
   (0x49, .JOIN), (0x4a, .BYTE), (0x4b, .CUT), (0x4c, .LEFT), (0x4d, .RIGHT),
   (0x4e, .LDROP), (0x4f, .RDROP), (0x50, .SIZE), (0x51, .CHOOSE), (0x58, .NEWLIST),
   (0x59, .NEWMAP), (0x5a, .PACKLIST), (0x5b, .PACKMAP), (0x5c, .INSERT), (0x5d, .REMOVE),
   (0x5e, .CLEAR), (0x5f, .MERGE), (0x60, .LENGTH), (0x61, .HASKEY), (0x62, .ITEMGET),
   (0x63, .KEYS), (0x64, .VALUES), (0x65, .TAKEFIRST), (0x66, .TAKELAST), (0x67, .APPEND),
   (0x68, .CLONE), (0x69, .UNPACK), (0x6a, .PACKTUPLE), (0x6b, .TUPLE2LIST), (0x70, .GPUT),
   (0x71, .GGET), (0x72, .MPUT), (0x73, .MGET), (0x74, .MONCE), (0x75, .MTAKE),
   (0x76, .MPATCH), (0x79, .XLG), (0x7a, .XOP), (0x7b, .GET), (0x7c, .PUT), (0x7d, .GETX),
   (0x7e, .PUTX), (0x7f, .ALLOC), (0x80, .GET0), (0x81, .GET1), (0x82, .GET2),
   (0x83, .GET3), (0x89, .HREADUL), (0x8a, .HREADU), (0x8b, .HWRITEXL), (0x8c, .HWRITEX),
   (0x8d, .HREAD), (0x8e, .HWRITE), (0x8f, .HGROW), (0x90, .LOG1), (0x91, .LOG2),
   (0x92, .LOG3), (0x93, .LOG4), (0x96, .SPUT), (0x97, .SGET), (0x98, .SSTAT),
   (0x99, .SLOAD), (0x9a, .SPATCH), (0x9b, .SEDIT), (0x9c, .SDEL), (0x9d, .SNEW),
   (0x9e, .SRECV), (0x9f, .SRENT), (0xa0, .AND), (0xa1, .OR), (0xa2, .EQ), (0xa3, .NEQ),
   (0xa4, .LT), (0xa5, .GT), (0xa6, .LE), (0xa7, .GE), (0xa8, .NOT), (0xab, .BSHR),
   (0xac, .BSHL), (0xad, .BXOR), (0xae, .BOR), (0xaf, .BAND), (0xb0, .ADD), (0xb1, .SUB),
   (0xb2, .MUL), (0xb3, .DIV), (0xb4, .MOD), (0xb5, .POW), (0xb6, .SQRT), (0xb7, .SQRTUP),
   (0xb8, .MAX), (0xb9, .MIN), (0xba, .CLAMP), (0xbb, .ABSDIFF), (0xbc, .INC),
   (0xbd, .DEC), (0xc0, .ADDMOD), (0xc1, .MULMOD), (0xc2, .MULADD), (0xc3, .MULSUB),
   (0xc4, .DIVUP), (0xc5, .DIVEXACT), (0xc6, .MULDIV), (0xc7, .MULDIVUP), (0xca, .FINPOW3),
   (0xcb, .FINP4), (0xcc, .FINP3), (0xcd, .FIN4), (0xce, .FIN3), (0xcf, .FIN2),
   (0xe0, .JMPL), (0xe1, .JMPS), (0xe2, .JMPSL), (0xe3, .BRL), (0xe4, .BRS), (0xe5, .BRSL),
   (0xe6, .BRSLN), (0xea, .REQ), (0xeb, .AST), (0xec, .ERR), (0xed, .ABT), (0xee, .RET),
   (0xef, .END), (0xf0, .IRBYTECODE), (0xf1, .IRLIST), (0xf2, .IRBLOCK), (0xf3, .IRBLOCKR),
   (0xf4, .IRIF), (0xf5, .IRIFR), (0xf6, .IRWHILE), (0xf7, .IRBREAK), (0xf8, .IRCONTINUE),
   (0xfd, .BURN), (0xfe, .NOP), (0xff, .NT)]

def tryFromU8 (v : UInt8) : VmrtRes Bytecode :=
  match opcodes.lookup v with
  | some inst => .ok inst
  | none => .error ⟨.instInvalid, "bytecode is invalid"⟩

/-- `BytecodeMetadata`: bytes of parameters, and stack values taken and left (255 if it depends). -/
structure Metadata where
  param : ℕ
  input : ℕ
  output : ℕ

def metadata : Bytecode → Metadata
  | .ABT | .END | .IRBREAK | .IRCONTINUE | .NOP | .NT => ⟨0, 0, 0⟩
  | .P0 | .P1 | .P2 | .P3 | .PNIL | .PNBUF | .PTRUE | .PFALSE | .DUP | .ROLL0
  | .NEWLIST | .NEWMAP | .GET0 | .GET1 | .GET2 | .GET3 => ⟨0, 0, 1⟩
  | .SDEL | .AST | .ERR | .RET => ⟨0, 1, 0⟩
  | .CU8 | .CU16 | .CU32 | .CU64 | .CU128 | .CBYTES | .TNIL | .TLIST | .TMAP | .TID
  | .SIZE | .CLEAR | .LENGTH | .KEYS | .VALUES | .TAKEFIRST | .TAKELAST | .CLONE
  | .TUPLE2LIST | .GGET | .MGET | .MTAKE | .GETX | .SGET | .SSTAT | .SLOAD | .NOT
  | .SQRT | .SQRTUP => ⟨0, 1, 1⟩
  | .UNPACK | .GPUT | .MPUT | .MONCE | .PUTX | .HWRITE | .LOG1 | .SPUT | .SEDIT
  | .SRECV | .SRENT | .REQ | .IRWHILE => ⟨0, 2, 0⟩
  | .CAT | .BYTE | .REMOVE | .MERGE | .HASKEY | .ITEMGET | .APPEND | .HREAD | .AND
  | .OR | .EQ | .NEQ | .LT | .GT | .LE | .GE | .BSHR | .BSHL | .BXOR | .BOR | .BAND
  | .ADD | .SUB | .MUL | .DIV | .MOD | .POW | .MAX | .MIN | .ABSDIFF | .DIVUP
  | .DIVEXACT => ⟨0, 2, 1⟩
  | .SWAP => ⟨0, 2, 2⟩
  | .LOG2 | .SNEW | .IRIF => ⟨0, 3, 0⟩
  | .CUT | .CHOOSE | .INSERT | .MPATCH | .SPATCH | .CLAMP | .ADDMOD | .MULMOD
  | .MULADD | .MULSUB | .MULDIV | .MULDIVUP | .IRIFR => ⟨0, 3, 1⟩
  | .LOG3 => ⟨0, 4, 0⟩
  | .LOG4 => ⟨0, 5, 0⟩
  | .POP => ⟨0, 255, 0⟩
  | .PACKLIST | .PACKMAP | .PACKTUPLE => ⟨0, 255, 1⟩
  | .ALLOC | .HGROW | .JMPS => ⟨1, 0, 0⟩
  | .ACTENV | .NTENV | .PU8 | .PBUF | .ROLL | .GET | .HREADU => ⟨1, 0, 1⟩
  | .DUPN => ⟨1, 0, 255⟩
  | .ACTION | .XOP | .PUT | .HWRITEX | .BRS => ⟨1, 1, 0⟩
  | .ACTVIEW | .NTCTL | .NTFUNC | .CTO | .TIS | .LEFT | .RIGHT | .LDROP | .RDROP
  | .XLG | .INC | .DEC => ⟨1, 1, 1⟩
  | .FIN2 => ⟨1, 2, 1⟩
  | .FINPOW3 | .FINP3 | .FIN3 => ⟨1, 3, 1⟩
  | .FINP4 | .FIN4 => ⟨1, 4, 1⟩
  | .POPN => ⟨1, 255, 0⟩
  | .JOIN => ⟨1, 255, 1⟩
  | .REV => ⟨1, 255, 255⟩
  | .JMPL | .JMPSL | .BURN => ⟨2, 0, 0⟩
  | .PU16 | .PBUFL | .HREADUL => ⟨2, 0, 1⟩
  | .HWRITEXL | .BRL | .BRSL | .BRSLN => ⟨2, 1, 0⟩
  | .IRBYTECODE | .IRBLOCK => ⟨2, 255, 0⟩
  | .IRLIST | .IRBLOCKR => ⟨2, 255, 1⟩
  | .CALLTHIS | .CALLSELF | .CALLSUPER | .CALLSELFVIEW | .CALLSELFPURE => ⟨4, 1, 1⟩
  | .CODE_CALL => ⟨5, 1, 0⟩
  | .CALLEXT | .CALLEXTVIEW | .CALLUSEVIEW | .CALLUSEPURE => ⟨5, 1, 1⟩
  | .CALL => ⟨6, 1, 1⟩

def isUserCallInst : Bytecode → Bool
  | .CODE_CALL | .CALL | .CALLEXT | .CALLEXTVIEW | .CALLUSEVIEW | .CALLUSEPURE | .CALLTHIS
  | .CALLSELF | .CALLSUPER | .CALLSELFVIEW | .CALLSELFPURE => true
  | _ => false

def isFinFamily : Bytecode → Bool
  | .FIN2 | .FIN3 | .FIN4 | .FINP3 | .FINP4 | .FINPOW3 => true
  | _ => false

/-- The opcodes of intermediate nodes, which no runnable code has. -/
def isIr : Bytecode → Bool
  | .IRBYTECODE | .IRLIST | .IRBLOCK | .IRBLOCKR | .IRIF | .IRIFR | .IRWHILE | .IRBREAK
  | .IRCONTINUE => true
  | _ => false

end Bytecode

def ensureTerminalInstruction (inst : Bytecode) : VmrtRes Unit :=
  check (inst = .RET ∨ inst = .END ∨ inst = .ERR ∨ inst = .ABT ∨ inst.isUserCallInst = true)
    .codeNotWithEnd

/-! ## Native and fin entries (native_catalog.rs, fin.rs) -/

/-- `NativeFunc::has_idx`. -/
def nativeFuncIdxs : List ℕ :=
  [1, 2, 3, 4, 5, 6, 32, 33, 34, 40, 41, 42, 43, 44, 51, 52, 53, 54, 55, 56, 57, 58, 59, 60,
   61, 62, 63, 71, 72, 73, 74, 75, 76, 77, 78, 79, 80, 91, 92, 93, 94, 95, 96, 101, 102, 103,
   104, 105, 111, 112, 121, 122, 123, 124, 125]

/-- `NativeCtl::has_idx`. -/
def nativeCtlIdxs : List ℕ := [1, 2] ++ List.range' 21 48 ++ [81]

/-- `NativeEnv::has_idx`. -/
def nativeEnvIdxs : List ℕ := [1]

/-- The number of entries of a fin family; their ids count from zero. -/
def finSpecCount : Bytecode → ℕ
  | .FIN2 => 11
  | .FIN3 => 23
  | .FIN4 => 25
  | .FINP3 => 1
  | .FINP4 => 4
  | .FINPOW3 => 1
  | _ => 0

/-- `fin_spec_lookup`, of which only success matters: family and id are the entry. -/
def finSpecLookup (family : Bytecode) (id : ℕ) : VmrtRes Unit :=
  check (id < finSpecCount family) .instParamsErr "unknown fin registry entry"

/-! ## Parameters -/

/-- The bytes `i .. i + n` of the code. -/
def slice (codes : List UInt8) (i n : ℕ) : List UInt8 := (codes.drop i).take n

/-- A big-endian number of `n` bytes at `i`. -/
def readUint (codes : List UInt8) (i n : ℕ) : ℕ := beValue (slice codes i n)

/-- `n as i8`, `n as i16`: the number of `n` bytes in two's complement. -/
def asSigned (n v : ℕ) : ℤ := if v < 256 ^ n / 2 then v else (v : ℤ) - 256 ^ n

/-- `instruction_end`: the position after the instruction at `pc`. -/
def instructionEnd (codes : List UInt8) (pc : ℕ) (inst : Bytecode) : VmrtRes ℕ := do
  let pend ← match inst with
    | .PBUF => do
      check (pc + 1 < codes.length) .instParamsErr
      pure (pc + 2 + readUint codes (pc + 1) 1)
    | .PBUFL => do
      check (pc + 1 + 2 ≤ codes.length) .instParamsErr
      pure (pc + 1 + 2 + readUint codes (pc + 1) 2)
    | inst => pure (pc + 1 + inst.metadata.param)
  check (pend ≤ codes.length) .instParamsErr
  return pend

/-- The instruction at `pc` ends at `n`. -/
def NextInst (codes : List UInt8) (pc n : ℕ) : Prop :=
  pc < codes.length ∧ ∃ inst, Bytecode.tryFromU8 (codes.getD pc 0) = .ok inst ∧
    instructionEnd codes pc inst = .ok n

/-- Where instructions start, reading the code from its start, and the end of the code. -/
def InstStart (codes : List UInt8) (pc : ℕ) : Prop :=
  Relation.ReflTransGen (NextInst codes) 0 pc

/-! ## Call sites (call_site.rs, exec.rs) -/

/-- `EffectMode`. -/
inductive EffectMode where
  | edit | view | pure
  deriving DecidableEq, Inhabited

open EffectMode

/-- `FnSign`: the four bytes a function is called by. -/
abbrev FnSign : Type := List UInt8

/-- `CallTarget`. -/
inductive CallTarget where
  | this | self_ | upper | super | ext (lib : UInt8) | use (lib : UInt8)
  deriving DecidableEq

/-- `CallSpec`. -/
inductive CallSpec where
  | invoke (target : CallTarget) (effect : EffectMode) (selector : FnSign)
  | splice (lib : UInt8) (selector : FnSign)
  deriving DecidableEq

/-- `AnchorSource`. -/
inductive AnchorSource where
  | stateThis | codeOwner | lib (i : UInt8)
  deriving DecidableEq

/-- `CandidateSet`. -/
inductive CandidateSet where
  | anchorOnly | parentsOnly | anchorAndParents
  deriving DecidableEq

namespace CallSpec

def anchorSemantics : CallSpec → AnchorSource × CandidateSet
  | .invoke .this _ _ => (.stateThis, .anchorAndParents)
  | .invoke .self_ _ _ => (.codeOwner, .anchorOnly)
  | .invoke .upper _ _ => (.codeOwner, .anchorAndParents)
  | .invoke .super _ _ => (.codeOwner, .parentsOnly)
  | .invoke (.ext lib) _ _ => (.lib lib, .anchorAndParents)
  | .invoke (.use lib) _ _ => (.lib lib, .anchorOnly)
  | .splice lib _ => (.lib lib, .anchorOnly)

def selector : CallSpec → FnSign
  | .invoke _ _ selector => selector
  | .splice _ selector => selector

/-- `resolve_anchor_from`. Library addresses that are not contracts are refused. -/
def resolveAnchorFrom (call : CallSpec) (thisContract codeContract : Option ContractAddress)
    (libTable : List Address) : VmrtRes ContractAddress :=
  match call.anchorSemantics.1 with
  | .stateThis => thisContract.elim (itrErr .callInvalid) .ok
  | .codeOwner => codeContract.elim (itrErr .callInvalid) .ok
  | .lib i =>
    match libTable[i.toNat]? with
    | none => itrErr .callLibIdxOverflow
    | some a => if h : a.isContract = true then .ok ⟨a, h⟩ else itrErr .contractAddrErr

def resolveCandidates (call : CallSpec) (anchor : ContractAddress)
    (parents : List ContractAddress) : List ContractAddress :=
  match call.anchorSemantics.2 with
  | .anchorOnly => [anchor]
  | .parentsOnly => parents
  | .anchorAndParents => anchor :: parents

def needsInheritChain (call : CallSpec) : Bool :=
  match call.anchorSemantics.2 with
  | .anchorOnly => false
  | .parentsOnly | .anchorAndParents => true

def libIndex (call : CallSpec) : Option UInt8 :=
  match call.anchorSemantics.1 with
  | .lib i => some i
  | _ => none

def requiresExternalVisibility : CallSpec → Bool
  | .invoke (.ext _) .edit _ => true
  | _ => false

def switchesContext : CallSpec → Bool
  | .invoke (.ext _) _ _ => true
  | _ => false

end CallSpec

def checkedFuncSign (s : List UInt8) : VmrtRes FnSign := do
  check (s.length = 4) .castParamFail "fn signature size invalid"
  return s

def decodeCallTarget (tag : ℕ) (arg : UInt8) : VmrtRes CallTarget :=
  match tag with
  | 0 => do check (arg = 0) .callInvalid; return .this
  | 1 => do check (arg = 0) .callInvalid; return .self_
  | 2 => do check (arg = 0) .callInvalid; return .upper
  | 3 => do check (arg = 0) .callInvalid; return .super
  | 4 => .ok (.ext arg)
  | 5 => .ok (.use arg)
  | _ => itrErr .callInvalid

def decodeShortCallBody (s : List UInt8) (target : CallTarget) (effect : EffectMode) :
    VmrtRes CallSpec := do
  check (s.length = 4) .castParamFail "call shortcut body size invalid"
  return .invoke target effect (← checkedFuncSign s)

def decodeShortIndexedCallBody (s : List UInt8) (effect : EffectMode)
    (target : UInt8 → CallTarget) : VmrtRes CallSpec :=
  match s with
  | lib :: sign => do
    check (s.length = 5) .castParamFail "call shortcut body size invalid"
    return .invoke (target lib) effect (← checkedFuncSign sign)
  | [] => .error ⟨.castParamFail, "call shortcut body size invalid"⟩

/-- `decode_call_body`: three bits of target, two of effect, three reserved. -/
def decodeCallBody (s : List UInt8) : VmrtRes CallSpec :=
  match s with
  | flags :: arg :: sign => do
    check (s.length = 6) .castParamFail "call body size invalid"
    check (flags.toNat < 32) .callInvalid
    let effect ← match flags.toNat / 8 with
      | 0 => .ok edit
      | 1 => .ok view
      | 2 => .ok pure
      | _ => itrErr .callInvalid
    let target ← decodeCallTarget (flags.toNat % 8) arg
    return .invoke target effect (← checkedFuncSign sign)
  | _ => .error ⟨.castParamFail, "call body size invalid"⟩

def decodeSpliceBody (s : List UInt8) : VmrtRes CallSpec :=
  match s with
  | lib :: sign => do
    check (s.length = 5) .castParamFail "splice body size invalid"
    return .splice lib (← checkedFuncSign sign)
  | [] => .error ⟨.castParamFail, "splice body size invalid"⟩

def decodeUserCallSite (inst : Bytecode) (s : List UInt8) : VmrtRes CallSpec :=
  match inst with
  | .CODE_CALL => decodeSpliceBody s
  | .CALL => decodeCallBody s
  | .CALLEXT => decodeShortIndexedCallBody s .edit .ext
  | .CALLEXTVIEW => decodeShortIndexedCallBody s .view .ext
  | .CALLUSEVIEW => decodeShortIndexedCallBody s .view .use
  | .CALLUSEPURE => decodeShortIndexedCallBody s .pure .use
  | .CALLTHIS => decodeShortCallBody s .this .edit
  | .CALLSELF => decodeShortCallBody s .self_ .edit
  | .CALLSUPER => decodeShortCallBody s .super .edit
  | .CALLSELFVIEW => decodeShortCallBody s .self_ .view
  | .CALLSELFPURE => decodeShortCallBody s .self_ .pure
  | _ => itrErr .callInvalid

end Vm

end Hacash
