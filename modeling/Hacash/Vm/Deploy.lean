import Hacash.Vm.Loader

/-!
# Deploying and updating contracts (`vm::action`, contract_exec.rs; `vm::machine`, entry.rs)

A new contract is checked against the contracts it links before it is stored, and an update is
allowed by a hook of the contract as it is stored.
-/

namespace Hacash

open Lib

namespace Vm

/-- `From<ItrErr> for Error`. -/
def ItrErr.toError (e : ItrErr) : Error :=
  match e.code with
  | .actCallRevert => .revert e.msg
  | .stateReadFailed | .stateDecodeFailed => .abort e.msg
  | _ => .fault e.msg

/-- A result of the interpreter as one of the chain. -/
def ofVm {α : Type} (x : VmrtRes α) : Ret α := x.mapError ItrErr.toError

theorem ofVm_eq_ok {α : Type} {x : VmrtRes α} {a : α} : ofVm x = .ok a ↔ x = .ok a := by
  cases x with
  | ok b => exact ⟨fun h => by cases h; rfl, fun h => by cases h; rfl⟩
  | error e => exact ⟨nofun, nofun⟩

/-! ## Linked contracts (contract_exec.rs:186–460) -/

section

variable (store : ContractStore) (rootAddr : ContractAddress) (rootContract : ContractSto)

def checkContractSelfReference : Ret Unit := do
  ensure (rootAddr ∉ rootContract.inherit) (.fault "contract cannot inherit itself")
  ensure (rootAddr ∉ rootContract.library) (.fault "contract cannot link itself as library")

def loadContractForCheck (addr : ContractAddress) (role : String) : Ret ContractSto :=
  if addr = rootAddr then .ok rootContract
  else okOr (store.contract addr) (.fault (role ++ " contract does not exist"))

/-- `detect_effective_abst_presence`: the loop over the parents. -/
def detectAbstInParents (abst : AbstCall) : List ContractAddress → Ret Bool
  | [] => .ok false
  | parent :: parents => do
    let sto ← loadContractForCheck store rootAddr rootContract parent "inherit"
    if sto.haveAbstCall abst then return true else detectAbstInParents abst parents

def detectEffectiveAbstPresence (abst : AbstCall) : Ret Bool :=
  if rootContract.haveAbstCall abst then .ok true
  else detectAbstInParents store rootAddr rootContract abst rootContract.inherit

def checkLinkContractsExist : Ret Unit := do
  rootContract.library.forM fun a => do
    let _ ← loadContractForCheck store rootAddr rootContract a "library"
  rootContract.inherit.forM fun a => do
    let _ ← loadContractForCheck store rootAddr rootContract a "inherit"

/-- `linked_parent_composition_error`: of parents that link each other no two declare one hook. -/
def linkedParentCompositionError (members : List ContractAddress)
    (parentLibraries : List (List ContractAddress)) (parentHooks : List (List UInt8)) :
    Option String :=
  if parentLibraries.any fun libs => libs.any fun lib => !members.contains lib then
    some "inherit parent links library, which is not an instance inherit member"
  else if parentLibraries.all (·.isEmpty) then none
  else if (parentHooks.map List.dedup).flatten.Nodup then none
  else some "hook is declared by inherit parents"

/-- The loop of `check_static_inherit_parents`: the parents with their checks. -/
def checkInheritParents : List ContractAddress → Ret (List ContractSto)
  | [] => .ok []
  | p :: ps => do
    let sto ← loadContractForCheck store rootAddr rootContract p "inherit"
    ensure (sto.inherit = []) (.fault "inherit parent cannot have parent inherit")
    ensure (sto.haveAbstCall .change = false ∧ sto.haveAbstCall .append = false)
      (.fault "inherit parent must be update-locked")
    let stos ← checkInheritParents ps
    return sto :: stos

def checkStaticInheritParents : Ret Unit := do
  let parents ← checkInheritParents store rootAddr rootContract rootContract.inherit
  match linkedParentCompositionError rootContract.inherit (parents.map (·.library))
      (parents.map fun p => p.abstcalls.map (·.sign)) with
  | some reason => errf ("invalid linked inherit composition: " ++ reason)
  | none => return ()

/-! ## Call sites (contract_exec.rs:460–717) -/

/-- `contract_userfn_meta`: whether the function is external. -/
def contractUserfnMeta (contract : ContractSto) (sign : FnSign) : Option Bool :=
  (contract.userfuncs.find? fun f => f.sign == sign).map fun f => f.fncnf &&& 0x80 == 0x80

/-- `collect_effective_userfn_owners`: the functions with their owners; the first counts. -/
def collectEffectiveUserfnOwners : Ret (List (FnSign × ContractAddress)) := do
  let inherited ← rootContract.inherit.mapM fun parent => do
    let sto ← loadContractForCheck store rootAddr rootContract parent "inherit"
    return sto.userfuncs.map fun f => (f.sign, parent)
  return rootContract.userfuncs.map (fun f => (f.sign, rootAddr)) ++ inherited.flatten

/-- `resolve_userfn_meta_by_lookup_for_check`: the loop over the owners. -/
def lookupUserfnMeta (sign : FnSign) : List ContractAddress → Ret (Option (ContractAddress × Bool))
  | [] => .ok none
  | owner :: owners => do
    let sto ← loadContractForCheck store rootAddr rootContract owner "lookup"
    match contractUserfnMeta sto sign with
    | some isExternal => return some (owner, isExternal)
    | none => lookupUserfnMeta sign owners

/-- `resolve_lookup_anchor_for_check`: `this` is taken to be the contract to be stored. -/
def resolveLookupAnchorForCheck (funcTag : String) (call : CallSpec) : Ret ContractAddress := do
  let anchor ← (call.resolveAnchorFrom (some rootAddr) (some rootAddr)
    (rootContract.library.map (·.val))).mapError fun e => .fault (funcTag ++ ": " ++ e.msg)
  if call.libIndex.isSome then
    let _ ← loadContractForCheck store rootAddr rootContract anchor "lookup"
  return anchor

def resolveLookupEntriesForCheck (anchor : ContractAddress) (call : CallSpec) :
    Ret (List ContractAddress) := do
  if call.needsInheritChain then
    let sto ← loadContractForCheck store rootAddr rootContract anchor "inherit"
    return call.resolveCandidates anchor sto.inherit
  else return call.resolveCandidates anchor []

/-- The check of one call site. -/
def checkCall (funcTag : String) (call : CallSpec) : Ret Unit := do
  let anchor ← resolveLookupAnchorForCheck store rootAddr rootContract funcTag call
  let entries ← resolveLookupEntriesForCheck store rootAddr rootContract anchor call
  match ← lookupUserfnMeta store rootAddr rootContract call.selector entries with
  | none => errf (funcTag ++ ": call target function not found")
  | some (_, isExternal) =>
    ensure (call.requiresExternalVisibility = false ∨ isExternal = true)
      (.fault (funcTag ++ ": target function is not external"))

end

/-- The bytes that `PBUF` and `PBUFL` carry beside their parameter. -/
def bufLen (inst : Bytecode) (params : List UInt8) : ℕ :=
  match inst with
  | .PBUF | .PBUFL => beValue params
  | _ => 0

/-- One turn of `scan_call_sites`: the position of the next instruction. -/
def scanSite (codes : List UInt8) (checkSite : CallSpec → Ret Unit) (i : ℕ) : Ret ℕ := do
  let inst ← ofVm (Bytecode.tryFromU8 (codes.getD i 0))
  let pms := inst.metadata.param
  ensure (i + 1 + pms ≤ codes.length) (.fault "instruction param overflow")
  let params := slice codes (i + 1) pms
  if inst.isUserCallInst then
    checkSite (← ofVm (decodeUserCallSite inst params))
  ensure (i + 1 + pms + bufLen inst params ≤ codes.length) (.fault "PBUF overflow")
  return i + 1 + bufLen inst params + pms

def scanCallSites (codes : List UInt8) (checkSite : CallSpec → Ret Unit) : Ret Unit := do
  let _ ← scan (fun i => decide (codes.length ≤ i)) (scanSite codes checkSite)
    (.abort "unreachable") codes.length 0

def checkStaticCallTargets (ir : IrCompiler) (store : ContractStore) (rootAddr : ContractAddress)
    (rootContract : ContractSto) : Ret Unit := do
  rootContract.userfuncs.forM fun f => do
    let codes ← ofVm (f.codeStuff.bytecodes ir)
    scanCallSites codes (checkCall store rootAddr rootContract "userfn")
  rootContract.abstcalls.forM fun a => do
    let codes ← ofVm (a.codeStuff.bytecodes ir)
    scanCallSites codes (checkCall store rootAddr rootContract "abstcall")

/-- `analyze_contract_store`, of which the executions read whether there is a constructor. -/
def analyzeContractStore (ir : IrCompiler) (store : ContractStore) (rootAddr : ContractAddress)
    (rootContract : ContractSto) : Ret Bool := do
  checkContractSelfReference rootAddr rootContract
  checkLinkContractsExist store rootAddr rootContract
  checkStaticInheritParents store rootAddr rootContract
  let hasConstruct ← detectEffectiveAbstPresence store rootAddr rootContract .construct
  checkStaticCallTargets ir store rootAddr rootContract
  return hasConstruct

def effectiveUserfnLookupChanged (store : ContractStore) (rootAddr : ContractAddress)
    (old new : ContractSto) : Ret Bool := do
  let oldTable ← collectEffectiveUserfnOwners store rootAddr old
  let newTable ← collectEffectiveUserfnOwners store rootAddr new
  return oldTable.any fun (sign, _) => oldTable.lookup sign != newTable.lookup sign

/-! ## The actions (contract_exec.rs:30–184) -/

/-- `ContractDeploy`. -/
structure ContractDeploy where
  protocolCost : Amount
  nonce : ℕ
  constructArgv : List UInt8
  marks : Fixed 4
  contract : ContractSto

/-- `ContractUpdate`. -/
structure ContractUpdate where
  protocolCost : Amount
  address : Address
  marks : Fixed 2
  edit : ContractEdit

/-- What the actions run against. `L` is everything of the context beside the stored contracts and
the loaded ones. None of these functions can write the stored contracts: that is left to the two
actions, which run at the top of a transaction only. -/
structure ContractHost (L : Type) where
  ir : IrCompiler
  hash : VmHash
  registry : HostRegistry
  cap : ContractCap
  gas : RunGas
  /-- `env().chain.fast_sync` -/
  fastSync : Bool
  /-- `env().tx.main` -/
  main : Address
  /-- `ContractAddress::calculate` -/
  calculate : Address → ℕ → ContractAddress
  /-- `enforce_contract_storage_fee`, `hac_sub` and the totals of a deployment of so many
  bytes -/
  payDeploy : ℕ → Amount → L → Ret L
  /-- the same of an update -/
  payUpdate : ℕ → Amount → L → Ret L
  /-- `push_entry` -/
  pushEntry : L → Ret L
  /-- `do_call` of a hook, `pop_entry`, the cost of the entry and the check of the returned
  value -/
  finishEntry : ContractStore → AbstCall → ContractAddress → ResolvedFn → Value → WarmState →
    L → Ret (WarmState × L)

/-- The stored contracts, the loaded ones and the rest. -/
structure World (L : Type) where
  contracts : ContractStore
  warm : WarmState
  rest : L

section

variable {L : Type} (host : ContractHost L)

/-- `run_abst_entry`, with no intent in scope. -/
def runAbstEntry (w : World L) (kind : AbstCall) (addr : ContractAddress) (param : Value) :
    Ret (World L) := do
  let rest ← host.pushEntry w.rest
  ofVm (ExecCtx.ensureCallDepth ⟨.abst, .edit, 0⟩ host.cap.toRunCap)
  ofVm (param.valid host.cap.toSpaceCap)
  match resolveAbstfn host.gas host.cap.toRunCap host.hash w.contracts addr kind w.warm with
  | .error e _ => .error e.toError
  | .ok none _ => .error (ItrErr.toError ⟨.callNotExist, "abst call not found"⟩)
  | .ok (some hit) warm => do
    let (warm, rest) ← host.finishEntry w.contracts kind addr hit param warm rest
    return { w with warm, rest }

def contractDeployExecute (act : ContractDeploy) (w : World L) : Ret (World L) := do
  let strict := !host.fastSync
  ensure (strict = false ∨ act.marks.isZero = true) (.fault "marks bytes invalid")
  let caddr := host.calculate host.main act.nonce
  ensure (strict = false ∨ w.contracts.contract caddr = none) (.fault "contract already exists")
  if strict then
    ofVm (act.contract.check host.ir host.cap host.registry)
    ensure (act.contract.metas.revision = 0) (.fault "contract revision must be 0 on deploy")
  let hasConstruct ← analyzeContractStore host.ir w.contracts caddr act.contract
  ensure (strict = false ∨ act.constructArgv.length ≤ host.cap.valueSize)
    (.fault "construct argv size overflow")
  ensure (strict = false ∨ hasConstruct = true ∨ act.constructArgv = [])
    (.fault "construct argv provided but Construct hook not found")
  ensure (strict = false ∨ act.contract.encode.length ≠ 0)
    (.fault "contract content cannot be empty")
  let rest ← host.payDeploy (act.contract.encode.length + 64) act.protocolCost w.rest
  -- the contract is stored first: its constructor runs on the stored contract
  let w := { w with contracts := w.contracts.setSyncEdition host.hash caddr act.contract, rest }
  if hasConstruct then runAbstEntry host w .construct caddr (.bytes act.constructArgv)
  else return w

/-- The bytes of an edit, for which an update pays. -/
def ContractEdit.encode (e : ContractEdit) : List UInt8 :=
  let replaceAt := fun r : ContractAddrReplaceAt => beBytes 1 r.idx ++ r.addr.val.bytes
  beBytes 2 e.newRevision ++ encodeListW 1 (fun a => a.val.bytes) e.inheritAdd
    ++ encodeListW 1 replaceAt e.inheritReplaceAt
    ++ encodeListW 1 (fun a => a.val.bytes) e.libraryAdd
    ++ encodeListW 1 replaceAt e.libraryReplaceAt
    ++ encodeListW 1 ContractAbstCall.encode e.abstcalls
    ++ encodeListW 2 ContractUserFunc.encode e.userfuncs
    ++ encodeListW 2 ContractCalcFunc.encode e.calcfuncs

def contractUpdateExecute (act : ContractUpdate) (w : World L) : Ret (World L) := do
  ensure (host.fastSync = true ∨ act.marks.isZero = true) (.fault "marks bytes invalid")
  if haddr : act.address.isContract = true then
    let caddr : ContractAddress := ⟨act.address, haddr⟩
    let contract ← okOr (w.contracts.contract caddr) (.fault "contract does not exist")
    let (new, didStructuralChange) ←
      ofVm (contract.applyEdit host.ir host.cap host.registry act.edit)
    let _ ← analyzeContractStore host.ir w.contracts caddr new
    ensure (new.encode.length ≠ 0) (.fault "contract content cannot be empty")
    let didLookupChange ← effectiveUserfnLookupChanged w.contracts caddr contract new
    let rest ← host.payUpdate act.edit.encode.length act.protocolCost w.rest
    -- the hook of the contract as it is stored decides
    let hook := if didStructuralChange || didLookupChange then AbstCall.change else .append
    let w ← runAbstEntry host { w with rest } hook caddr .nil
    return { w with
      contracts := w.contracts.setSyncEdition host.hash caddr new
      warm := { w.warm with contracts := w.warm.contracts.erase caddr } }
  else errf "address version is not CONTRACT"

end

/-! ## Sequences of actions -/

/-- Any number of successful strict-mode deployments and updates, with anything in between that does
not write the stored contracts. An update starts with a coherent cache: `MachineSteps.contractSteps`
derives that for a machine that fills its cache by loading. -/
inductive ContractSteps {L : Type} (ir : IrCompiler) (h : VmHash) : World L → World L → Prop
  | refl (w : World L) : ContractSteps ir h w w
  | deploy {w w₁ w₂ : World L} (host : ContractHost L) (act : ContractDeploy)
      (prev : ContractSteps ir h w w₁) (hir : host.ir = ir) (hhash : host.hash = h)
      (strict : host.fastSync = false) (hrun : contractDeployExecute host act w₁ = .ok w₂) :
      ContractSteps ir h w w₂
  | update {w w₁ w₂ : World L} (host : ContractHost L) (act : ContractUpdate)
      (prev : ContractSteps ir h w w₁) (hir : host.ir = ir) (hhash : host.hash = h)
      (strict : host.fastSync = false) (coherent : Coherent h w₁.contracts w₁.warm)
      (hrun : contractUpdateExecute host act w₁ = .ok w₂) : ContractSteps ir h w w₂
  | other {w w₁ w₂ : World L} (prev : ContractSteps ir h w w₁)
      (same : w₂.contracts = w₁.contracts) : ContractSteps ir h w w₂

/-- The code that a hook runs adds only stored contracts to the cache. -/
def ContractHost.Loads {L : Type} (host : ContractHost L) : Prop :=
  ∀ {store kind addr hit param warm rest warm' rest'},
    host.finishEntry store kind addr hit param warm rest = .ok (warm', rest') →
    ∀ a obj, warm'.contracts.lookup a = some obj → warm.contracts.lookup a = some obj ∨
      ∃ b sto, store.contract b = some sto ∧ sto.intoObj host.hash = .ok obj

/-- The same actions on a machine that fills its cache by loading. `known` has every contract that
was stored at some time, also in a branch of execution that was rolled back: a cache keeps those
(`other`), as it is not part of the state. -/
inductive MachineSteps {L : Type} (ir : IrCompiler) (h : VmHash) (known : Set ContractSto) :
    World L → World L → Prop
  | refl (w : World L) : MachineSteps ir h known w w
  | deploy {w w₁ w₂ : World L} (host : ContractHost L) (act : ContractDeploy)
      (prev : MachineSteps ir h known w w₁) (hir : host.ir = ir) (hhash : host.hash = h)
      (strict : host.fastSync = false) (loads : host.Loads) (stored : act.contract ∈ known)
      (hrun : contractDeployExecute host act w₁ = .ok w₂) : MachineSteps ir h known w w₂
  | update {w w₁ w₂ : World L} (host : ContractHost L) (act : ContractUpdate)
      (prev : MachineSteps ir h known w w₁) (hir : host.ir = ir) (hhash : host.hash = h)
      (strict : host.fastSync = false) (loads : host.Loads)
      (stored : ∀ a sto, w₂.contracts.contract a = some sto → sto ∈ known)
      (hrun : contractUpdateExecute host act w₁ = .ok w₂) : MachineSteps ir h known w w₂
  | other {w w₁ w₂ : World L} (prev : MachineSteps ir h known w w₁)
      (same : w₂.contracts = w₁.contracts) (cached : Cached h known w₂.warm) :
      MachineSteps ir h known w w₂

end Vm

end Hacash
