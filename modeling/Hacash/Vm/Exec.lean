import Hacash.Vm.Bytecode
import Hacash.Vm.Storage

/-!
# Execution contexts (`vm::rt`: exec.rs, cap.rs; `base::registry`)

The limits, the entry and the effect mode of a frame, and the host actions it may call. An action
that writes is always `topOnly`.
-/

namespace Hacash

namespace Vm

/-! ## Limits (cap.rs) -/

/-- The limits of `SpaceCap` that execution checks. -/
structure RunCap extends SpaceCap where
  loadedContract : ℕ
  callDepth : ℕ
  callDataSize : ℕ
  tupleLength : ℕ
  compoLength : ℕ
  stackSlot : ℕ
  localSlot : ℕ
  heapSegment : ℕ
  logSize : ℕ
  intentBindDepth : ℕ

/-- `SpaceCap::new`, the same at every height. -/
def RunCap.new : RunCap where
  toSpaceCap := SpaceCap.new
  loadedContract := 20
  callDepth := 32
  callDataSize := 4608
  tupleLength := 32
  compoLength := 128
  stackSlot := 256
  localSlot := 256
  heapSegment := 64
  logSize := 9600
  intentBindDepth := 10

/-- `valid`: a value with a size has to fit. -/
def Value.valid (v : Value) (cap : SpaceCap) : VmrtRes Unit :=
  match v.canGetSize with
  | .ok n => check (n ≤ cap.valueSize) .outOfValueSize
  | .error e => if e.code = .itemNoSize then .ok () else .error e

/-! ## Context of a frame (exec.rs) -/

/-- `EntryKind`. -/
inductive EntryKind where
  | main | p2sh | abst
  deriving DecidableEq, Inhabited

/-- `ExecCtx`. -/
structure ExecCtx where
  entry : EntryKind
  effect : EffectMode
  callDepth : ℕ
  deriving DecidableEq, Inhabited

namespace ExecCtx

def ensureCallDepth (exec : ExecCtx) (cap : RunCap) : VmrtRes Unit :=
  check (exec.callDepth < cap.callDepth) .outOfCallDepth

end ExecCtx

/-- `IntentScope`: no scope, a scope without an intent, or one bound to an intent. -/
abbrev IntentScope : Type := Option (Option ℕ)

/-- `FrameBindings`. -/
structure FrameBindings where
  codeContract : Option ContractAddress
  thisContract : Option ContractAddress
  contextAddr : Address
  intentScope : IntentScope
  libTable : List Address

namespace FrameBindings

def contract (thisContract codeContract : ContractAddress) (libTable : List Address) :
    FrameBindings where
  codeContract := some codeContract
  thisContract := some thisContract
  contextAddr := thisContract.val
  intentScope := none
  libTable := libTable

def withIntentScope (b : FrameBindings) (intentScope : IntentScope) : FrameBindings :=
  { b with intentScope }

def nextAfterCall (b : FrameBindings) (switchContext : Bool)
    (anchor codeContract : ContractAddress) (libTable : List Address) : FrameBindings :=
  if switchContext then
    (contract anchor codeContract libTable).withIntentScope b.intentScope
  else
    { codeContract := some codeContract
      thisContract := b.thisContract
      contextAddr := b.contextAddr
      intentScope := b.intentScope
      libTable := libTable }

end FrameBindings

def CallSpec.resolveAnchor (call : CallSpec) (b : FrameBindings) : VmrtRes ContractAddress :=
  call.resolveAnchorFrom b.thisContract b.codeContract b.libTable

/-! ## Host actions (registry/mod.rs) -/

/-- `VmHostCallKind`. -/
inductive VmHostCallKind where
  | action | env | view
  deriving DecidableEq

/-- `VmHostAllowedPolicy`. -/
inductive VmHostAllowedPolicy where
  | any | topOnly | viewOnly
  deriving DecidableEq

/-- `VmValueType`. -/
inductive VmValueType where
  | nil | bool | u8 | u16 | u64 | address | bytes
  deriving DecidableEq

/-- `VmHostActionDef`, of which the machine reads the type of the result. -/
structure VmHostActionDef where
  kind : VmHostCallKind
  ret : VmValueType

/-- `vm_host_def`: the host actions registered for a kind, by their id. -/
structure HostRegistry where
  vmHostDef : VmHostCallKind → ℕ → Option VmHostActionDef
  kind_eq : ∀ kind id d, vmHostDef kind id = some d → d.kind = kind

end Vm

end Hacash
