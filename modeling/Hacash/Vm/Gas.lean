import Hacash.Exec.Gas
import Hacash.Vm.Exec

/-!
# Gas of the virtual machine (`vm::rt`, gas.rs; `vm::machine`, runtime.rs)

Three running totals of gas, each with a limit of its own; their sum is charged to the meter of the
transaction.
-/

namespace Hacash

open Lib

namespace Vm

/-! ## Prices (gas.rs) -/

/-- The prices and limits of `GasExtra` that the model reads. A limit that is not positive
is off. -/
structure RunGas extends GasExtra where
  computeLimit : ℤ
  resourceLimit : ℤ
  storageLimit : ℤ
  newContractLoad : ℤ
  contractDiv : ℤ
  heapGrowExpSegments : ℕ
  heapGrowLinearSeg : ℕ

namespace RunGas

/-- `GasExtra::new`, from the limits of the chain. -/
def new (computeLimit resourceLimit storageLimit : ℤ) : RunGas where
  toGasExtra := GasExtra.new
  computeLimit := computeLimit
  resourceLimit := resourceLimit
  storageLimit := storageLimit
  newContractLoad := 32
  contractDiv := 64
  heapGrowExpSegments := 8
  heapGrowLinearSeg := 256

def divOp (len : ℕ) (div : ℤ) : ℤ := if div ≤ 0 ∨ len = 0 then 0 else ((len : ℤ) - 1) / div + 1

variable (g : RunGas)

def contractBytes (len : ℕ) : ℤ := divOp len g.contractDiv

/-- The price of growing the heap by its segment `s`. -/
def heapSegGas (s : ℕ) : ℕ :=
  if s < g.heapGrowExpSegments then (if s + 1 < 64 then 2 ^ (s + 1) else u64Max)
  else g.heapGrowLinearSeg

def heapGrowGas (oldseg seg limit : ℕ) : VmrtRes ℤ := do
  check (oldseg + seg ≤ u64Max) .outOfHeap "heap segment overflow"
  check (oldseg + seg ≤ limit) .outOfHeap "out of heap"
  let gas ← (List.range' oldseg seg).foldlM (fun gas s => do
    check (gas + g.heapSegGas s ≤ u64Max) .heapError "heap grow gas overflow"
    return gas + g.heapSegGas s) 0
  check (gas < 2 ^ 63) .heapError "heap grow gas overflow"
  return gas

end RunGas

/-! ## Totals (runtime.rs:136–257, execute.rs:1250–1307) -/

/-- `GasBuckets`. -/
structure GasBuckets where
  compute : ℤ
  resource : ℤ
  storage : ℤ
  deriving DecidableEq

/-- `GasBuckets::default`. -/
def GasBuckets.zero : GasBuckets := ⟨0, 0, 0⟩

/-- What gas is charged to: the totals of the machine and the meter of the transaction. -/
structure GasUse where
  buckets : GasBuckets
  meter : TxGasMeter
  deriving DecidableEq

/-- `gas_charge` of the host. -/
def gasCharge (gas : ℤ) : EStateM ItrErr GasUse Unit := fun s =>
  match s.meter.charge gas with
  | (meter, .ok _) => .ok () { s with meter }
  | (meter, .error e) => .error ⟨.outOfGas, e.msg⟩ { s with meter }

def previewBucketAdd (cur add limit : ℤ) (overflowMsg limitMsg : String) : VmrtRes ℤ := do
  check (0 ≤ add) .gasError "gas cost invalid"
  check (cur + add ≤ i64Max) .outOfGas overflowMsg
  check (limit ≤ 0 ∨ cur + add ≤ limit) .outOfGas limitMsg
  return cur + add

section

variable (g : RunGas)

/-- The totals after an addition (`next_compute_used` and the like), and the sum to be charged. -/
def nextGasUse (buckets add : GasBuckets) : VmrtRes (GasBuckets × ℤ) := do
  let compute ← previewBucketAdd buckets.compute add.compute g.computeLimit
    "compute gas overflow" "compute gas limit exceeded"
  let resource ← previewBucketAdd buckets.resource add.resource g.resourceLimit
    "resource gas overflow" "resource gas limit exceeded"
  let storage ← previewBucketAdd buckets.storage add.storage g.storageLimit
    "storage gas overflow" "storage gas limit exceeded"
  check (add.compute + add.resource + add.storage ≤ i64Max) .outOfGas "gas cost overflow"
  return (⟨compute, resource, storage⟩, add.compute + add.resource + add.storage)

def chargeAndCommitGas (add : GasBuckets) : EStateM ItrErr GasUse Unit := do
  let (next, total) ← peek fun s => nextGasUse g s.buckets add
  gasCharge total
  modify fun s => { s with buckets := next }

def settleNewContractLoadGas (bytes : ℕ) : EStateM ItrErr GasUse Unit :=
  chargeAndCommitGas g ⟨0, g.newContractLoad + g.contractBytes bytes, 0⟩

end

end Vm

end Hacash
