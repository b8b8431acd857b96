import Hacash.Chain.Asert
import Hacash.Ledger.AssetList
import Hacash.Ledger.OwnedForm
import Hacash.Ledger.DiamondIndex
import Hacash.Ledger.StorageFee
import Hacash.Vm.NativeAmount
import Hacash.Vm.Patch
import Hacash.Vm.ValueField
import Hacash.Vm.MultiProof
import Hacash.Vm.IntentIntegrity
import Hacash.Vm.ContentEq
import Hacash.Vm.Linking
import Hacash.Exec.Guard
import Hacash.Chain.AttachAtomic
import Hacash.Chain.SideCapacity
import Hacash.Chain.Reader
import Hacash.Chain.TxDiff
import Hacash.Chain.WindowBound
import Hacash.Chain.Pipeline
import Hacash.Chain.Frames
import Hacash.Ledger.TexSettle
import Hacash.Exec.Topology
import Hacash.Field.AmountText
import Hacash.Chain.Verify
import Hacash.Node.ForkPoint
import Hacash.Chain.Reward
import Hacash.Vm.HeapGrow
import Hacash.Ledger.Channel
