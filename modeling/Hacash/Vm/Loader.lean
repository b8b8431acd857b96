import Hacash.Vm.Contract
import Hacash.Vm.Gas

/-!
# Loading contracts and resolving calls (`vm::machine`, loader.rs)

A contract that was loaded is used again while its edition is the stored one. **Key result**:
`planUserCall_ends`.
-/

namespace Hacash

open Lib Vm.ContractSto Function AList Option

namespace Vm

/-! ## Stored contracts (state.rs:111–162) -/

/-- The part of the state that holds contracts. -/
structure ContractStore where
  contract : ContractAddress → Option ContractSto
  edition : ContractAddress → Option ContractEdition

namespace ContractStore

/-- No contract. -/
def empty : ContractStore := ⟨fun _ => none, fun _ => none⟩

/-- `contract_set_sync_edition`. -/
def setSyncEdition (h : VmHash) (store : ContractStore) (addr : ContractAddress)
    (sto : ContractSto) : ContractStore where
  contract := update store.contract addr (some sto)
  edition := update store.edition addr (some (sto.calcEdition h))

@[simp] theorem setSyncEdition_self (h : VmHash) (store : ContractStore)
    (addr : ContractAddress) (sto : ContractSto) :
    (store.setSyncEdition h addr sto).contract addr = some sto :=
  update_self ..

theorem setSyncEdition_of_ne {h : VmHash} {store : ContractStore} {addr a : ContractAddress}
    {sto : ContractSto} (ha : a ≠ addr) :
    (store.setSyncEdition h addr sto).contract a = store.contract a :=
  update_of_ne ha ..

end ContractStore

/-! ## Loading (loader.rs:24–110) -/

/-- The loaded contracts of `WarmState`, with what gas is charged to. -/
structure WarmState where
  contracts : AList fun _ : ContractAddress => ContractObj
  gas : GasUse

/-- Programs that load contracts. -/
abbrev LoadM : Type → Type := EStateM ItrErr WarmState

/-- `ResolvedFn`. -/
structure ResolvedFn where
  owner : ContractAddress
  fnobj : FnObj
  libTable : List Address

/-- `ResolvedCallPlan`. -/
structure ResolvedCallPlan where
  nextBindings : FrameBindings
  fnobj : FnObj

/-- A value that has to be there. -/
def require {α : Type} (x : Option α) (code : ItrErrCode) (msg : String := "") : VmrtRes α :=
  match x with
  | some a => .ok a
  | none => .error ⟨code, msg⟩

/-- Charge gas while loading. -/
def WarmState.charge {α : Type} (m : EStateM ItrErr GasUse α) : LoadM α :=
  zoom (·.gas) (fun gas w => { w with gas }) m

section

variable (g : RunGas) (cap : RunCap) (h : VmHash) (store : ContractStore)

def loadContractFromState (stateEd : ContractEdition) (csto : ContractSto) :
    VmrtRes ContractObj := do
  let cobj ← csto.intoObj h
  check (cobj.edition = stateEd) .contractError "contract edition mismatch"
  return cobj

/-- A contract that is not kept is read from the state. -/
def loadNewContract (addr : ContractAddress) (stateEd : ContractEdition) : LoadM ContractObj := do
  peek fun w => check (w.contracts.entries.length < cap.loadedContract) .outOfLoadContract
  let csto ← peek fun _ => require (store.contract addr) .notFindContract "cannot find contract"
  let cobj ← peek fun _ => loadContractFromState h stateEd csto
  WarmState.charge (settleNewContractLoadGas g stateEd.rawSize)
  modify fun w => { w with contracts := w.contracts.insert addr cobj }
  return cobj

def resolveContract (addr : ContractAddress) : LoadM ContractObj := do
  let stateEd ← peek fun _ =>
    require (store.edition addr) .notFindContract "cannot find contract edition"
  match ← peek fun w => .ok (w.contracts.lookup addr) with
  | none => loadNewContract g cap h store addr stateEd
  | some cached =>
    if cached.edition = stateEd then return cached
    else do
      modify fun w => { w with contracts := w.contracts.erase addr }
      loadNewContract g cap h store addr stateEd

/-! ## Resolving (loader.rs:112–221) -/

def buildResolved (owner : ContractAddress) (cobj : ContractObj) (fnobj : FnObj) : ResolvedFn :=
  ⟨owner, fnobj, cobj.library.map (·.val)⟩

def resolveUserOnOwner (selector : FnSign) (owner : ContractAddress) :
    LoadM (Option ResolvedFn) := do
  let cobj ← resolveContract g cap h store owner
  return (cobj.userfns selector).map (buildResolved owner cobj)

def resolveAbstOnOwner (selector : AbstCall) (owner : ContractAddress) :
    LoadM (Option ResolvedFn) := do
  let cobj ← resolveContract g cap h store owner
  return (cobj.abstfns selector).map (buildResolved owner cobj)

/-- The first owner that has the function. -/
def findOnOwners (onOwner : ContractAddress → LoadM (Option ResolvedFn)) :
    List ContractAddress → LoadM (Option ResolvedFn)
  | [] => pure none
  | owner :: owners => do
    match ← onOwner owner with
    | some found => return some found
    | none => findOnOwners onOwner owners

def resolveAbstfn (addr : ContractAddress) (selector : AbstCall) :
    LoadM (Option ResolvedFn) := do
  match ← resolveAbstOnOwner g cap h store selector addr with
  | some found => return some found
  | none =>
    let cobj ← resolveContract g cap h store addr
    findOnOwners (resolveAbstOnOwner g cap h store selector) cobj.inherit

def resolveLookupCandidates (anchor : ContractAddress) (call : CallSpec) :
    LoadM (List ContractAddress) := do
  if call.needsInheritChain then
    let cobj ← resolveContract g cap h store anchor
    return call.resolveCandidates anchor cobj.inherit
  else
    return call.resolveCandidates anchor []

def resolveUserCall (call : CallSpec) (bindings : FrameBindings) :
    LoadM (ContractAddress × ResolvedFn) := do
  let anchor ← peek fun _ => call.resolveAnchor bindings
  let entries ← resolveLookupCandidates g cap h store anchor call
  let found ← findOnOwners (resolveUserOnOwner g cap h store call.selector) entries
  let hit ← peek fun _ => require found .callNotExist
  return (anchor, hit)

def planUserCall (call : CallSpec) (bindings : FrameBindings) : LoadM ResolvedCallPlan := do
  let (anchor, hit) ← resolveUserCall g cap h store call bindings
  peek fun _ => check (call.requiresExternalVisibility = false ∨ hit.fnobj.isExternal = true)
    .callNotExternal "contract func sign"
  return ⟨bindings.nextAfterCall call.switchesContext anchor hit.owner hit.libTable, hit.fnobj⟩

end

/-! ## What loading gives -/

/-- The errors of a load that the stored contract is not to blame for. -/
def LoadErr (e : ItrErr) : Prop :=
  e.code = .outOfLoadContract ∨ e.code = .outOfGas ∨ e.code = .gasError

/-- A kept contract under its stored edition is the stored contract. -/
def Coherent (h : VmHash) (store : ContractStore) (w : WarmState) : Prop :=
  ∀ a obj, w.contracts.lookup a = some obj → store.edition a = some obj.edition →
    ∃ sto, store.contract a = some sto ∧ sto.intoObj h = .ok obj

/-- Every stored contract loads, under the edition stored with it. -/
structure StoreOk (h : VmHash) (store : ContractStore) : Prop where
  edition : ∀ a sto, store.contract a = some sto → store.edition a = some (sto.calcEdition h)
  intoObj : ∀ a sto, store.contract a = some sto → ∃ obj, sto.intoObj h = .ok obj

theorem coherent_empty {h : VmHash} {store : ContractStore} {gas : GasUse} :
    Coherent h store ⟨∅, gas⟩ := by
  intro a obj hlook
  rw [lookup_empty] at hlook
  cases hlook

/-- Every kept contract is one of `known`, as it is loaded. -/
def Cached (h : VmHash) (known : Set ContractSto) (w : WarmState) : Prop :=
  ∀ a obj, w.contracts.lookup a = some obj → ∃ sto ∈ known, sto.intoObj h = .ok obj

/-- A cache is coherent if the editions tell its contracts and the stored ones apart. -/
theorem coherent_of_injOn {h : VmHash} {store : ContractStore} {w : WarmState}
    {known : Set ContractSto} (hok : StoreOk h store)
    (hed : ∀ a, store.contract a = none → store.edition a = none)
    (hstored : ∀ a sto, store.contract a = some sto → sto ∈ known)
    (hkept : Cached h known w) (hinj : Set.InjOn (calcEdition h) known) : Coherent h store w := by
  intro a obj hlook hedition
  obtain ⟨kept, hkept, hobj⟩ := hkept a obj hlook
  cases hsto : store.contract a with
  | none =>
    rw [hed a hsto] at hedition
    cases hedition
  | some sto =>
    rw [hok.edition a sto hsto, (loadsAs_of_intoObj hobj).edition] at hedition
    have heq : sto = kept := hinj (hstored a sto hsto) hkept (some.inj hedition)
    exact ⟨sto, rfl, heq ▸ hobj⟩

theorem gasCharge_ends (gas : ℤ) (s : GasUse) :
    Ends (fun _ _ => True) (fun e _ => LoadErr e) (gasCharge gas) s := by
  rw [Ends, gasCharge]
  rcases s.meter.charge gas with ⟨meter, _ | _⟩
  · exact .inr (.inl rfl)
  · exact trivial

theorem previewBucketAdd_failsOnly {cur add limit : ℤ} {m₁ m₂ : String} :
    FailsOnly LoadErr (previewBucketAdd cur add limit m₁ m₂) := by
  refine .bind (failsOnly_check (.inr (.inr rfl))) fun _ _ => ?_
  refine .bind (failsOnly_check (.inr (.inl rfl))) fun _ _ => ?_
  exact .bind (failsOnly_check (.inr (.inl rfl))) fun _ _ => .pure _

theorem nextGasUse_failsOnly (g : RunGas) (buckets add : GasBuckets) :
    FailsOnly LoadErr (nextGasUse g buckets add) := by
  refine .bind (previewBucketAdd_failsOnly) fun _ _ => ?_
  refine .bind (previewBucketAdd_failsOnly) fun _ _ => ?_
  refine .bind (previewBucketAdd_failsOnly) fun _ _ => ?_
  exact .bind (failsOnly_check (.inr (.inl rfl))) fun _ _ => .pure _

theorem chargeAndCommitGas_ends (g : RunGas) (add : GasBuckets) (s : GasUse) :
    Ends (fun _ _ => True) (fun e _ => LoadErr e) (chargeAndCommitGas g add) s := by
  refine .peek_bind (fun next _ => ?_) fun e he => nextGasUse_failsOnly _ _ _ e he
  exact (gasCharge_ends next.2 s).bind fun _ _ _ _ => trivial

section

variable {g : RunGas} {cap : RunCap} {h : VmHash} {store : ContractStore} {w : WarmState}

variable {addr : ContractAddress} {sto : ContractSto}

section

variable (hok : StoreOk h store) (hco : Coherent h store w)
include hok hco

theorem loadNewContract_ends (hsto : store.contract addr = some sto) :
    Ends (fun obj w => sto.intoObj h = .ok obj ∧ Coherent h store w)
      (fun e w => LoadErr e ∧ Coherent h store w)
      (loadNewContract g cap h store addr (sto.calcEdition h)) w := by
  obtain ⟨obj, hobj⟩ := hok.intoObj addr sto hsto
  refine .peek_bind (fun _ _ => ?_) fun e he =>
    ⟨(failsOnly_check (.inl rfl) : FailsOnly LoadErr _) e he, hco⟩
  refine .peek_bind (fun csto hcsto => ?_) fun e he => by rw [hsto] at he; cases he
  rw [hsto] at hcsto
  cases hcsto
  have hload : loadContractFromState h (sto.calcEdition h) sto = .ok obj := by
    rw [loadContractFromState, hobj, ok_bind,
      check_of _ _ (loadsAs_of_intoObj hobj).edition]
    rfl
  refine .peek_bind (fun cobj hcobj => ?_) fun e he => by rw [hload] at he; cases he
  rw [hload] at hcobj
  cases hcobj
  have hcharge : Ends (fun _ w => Coherent h store w) (fun e w => LoadErr e ∧ Coherent h store w)
      (WarmState.charge (settleNewContractLoadGas g (sto.calcEdition h).rawSize)) w :=
    (chargeAndCommitGas_ends g _ w.gas).zoom (fun _ _ _ => hco) fun _ _ he => ⟨he, hco⟩
  refine hcharge.bind fun _ w' _ hco' => ⟨hobj, ?_⟩
  -- the new entry is the stored contract, the others are as before
  intro a obj' hlook hed
  by_cases ha : a = addr
  · subst ha
    rw [lookup_insert] at hlook
    cases hlook
    exact ⟨sto, hsto, hobj⟩
  · rw [lookup_insert_ne ha] at hlook
    exact hco' a obj' hlook hed

theorem resolveContract_ends (hsto : store.contract addr = some sto) :
    Ends (fun obj w => sto.intoObj h = .ok obj ∧ Coherent h store w)
      (fun e w => LoadErr e ∧ Coherent h store w) (resolveContract g cap h store addr) w := by
  have hed := hok.edition addr sto hsto
  refine .peek_bind (fun stateEd hstate => ?_) fun e he => by rw [hed] at he; cases he
  rw [hed] at hstate
  cases hstate
  refine .peek_bind (fun kept hkept => ?_) fun e he => by cases he
  cases hkept
  cases hlook : w.contracts.lookup addr with
  | none => exact loadNewContract_ends hok hco hsto
  | some cached =>
    dsimp only
    split_ifs with hsame
    · obtain ⟨sto', hsto', hobj⟩ := hco addr cached hlook (hsame ▸ hed)
      rw [hsto] at hsto'
      cases hsto'
      exact .pure ⟨hobj, hco⟩
    · -- an outdated contract is dropped, which leaves the cache coherent
      have hco' : Coherent h store { w with contracts := w.contracts.erase addr } := by
        intro a obj hlook' hed'
        by_cases ha : a = addr
        · subst ha
          rw [lookup_erase] at hlook'
          cases hlook'
        · rw [lookup_erase_ne ha] at hlook'
          exact hco a obj hlook' hed'
      exact loadNewContract_ends hok hco' hsto

/-! ## What resolving gives -/

/-- A resolved function is one that a stored contract declares under the selector. -/
structure DeclaredAs (sto : ContractSto) (f : ContractUserFunc) (selector : FnSign)
    (hit : ResolvedFn) : Prop where
  declared : f ∈ sto.userfuncs
  sign : f.sign = selector
  fnobj : userEntry f = .ok (selector, hit.fnobj)
  libTable : hit.libTable = sto.library.map (·.val)

theorem resolveUserOnOwner_ends {owner : ContractAddress} (hsto : store.contract owner = some sto)
    (selector : FnSign) : Ends (fun hit w => (hit.isSome ↔ selector ∈ sto.userfuncs.map (·.sign)) ∧
        (∀ found, hit = some found → found.owner = owner ∧ ∃ f, DeclaredAs sto f selector found) ∧
        Coherent h store w)
      (fun e w => LoadErr e ∧ Coherent h store w)
      (resolveUserOnOwner g cap h store selector owner) w := by
  refine (resolveContract_ends hok hco hsto).bind fun obj w' _ hres => ?_
  have hloads := loadsAs_of_intoObj hres.1
  refine .pure ⟨?_, ?_, hres.2⟩
  · rw [isSome_map]
    exact hloads.userfns selector
  · intro found hfound
    obtain ⟨o, ho, rfl⟩ := map_eq_some_iff.mp hfound
    obtain ⟨f, hf, hsign, hentry⟩ := hloads.userfn selector o ho
    exact ⟨rfl, f, hf, hsign, hentry, by rw [buildResolved, hloads.library]⟩

theorem resolveAbstOnOwner_ends {owner : ContractAddress} (hsto : store.contract owner = some sto)
    (selector : AbstCall) :
    Ends (fun hit w => hit.isSome = sto.haveAbstCall selector ∧ Coherent h store w)
      (fun e w => LoadErr e ∧ Coherent h store w)
      (resolveAbstOnOwner g cap h store selector owner) w := by
  refine (resolveContract_ends hok hco hsto).bind fun obj w' _ hres => ?_
  refine .pure ⟨?_, hres.2⟩
  rw [isSome_map]
  exact (loadsAs_of_intoObj hres.1).abstfns selector

end

theorem findOnOwners_ends (hok : StoreOk h store) (selector : FnSign) :
    ∀ {owners : List ContractAddress} {w : WarmState}, Coherent h store w →
      (∀ o ∈ owners, ∃ sto, store.contract o = some sto) →
      (∃ o ∈ owners, ∃ sto, store.contract o = some sto ∧ selector ∈ sto.userfuncs.map (·.sign)) →
      Ends (fun hit _ => ∃ found, hit = some found ∧ found.owner ∈ owners ∧
          ∃ sto f, store.contract found.owner = some sto ∧ DeclaredAs sto f selector found)
        (fun e _ => LoadErr e)
        (findOnOwners (resolveUserOnOwner g cap h store selector) owners) w
  | [], _, _, _, hdecl => by
    obtain ⟨o, ho, -⟩ := hdecl
    cases ho
  | owner :: owners, w, hco, hall, hdecl => by
    obtain ⟨sto, hsto⟩ := hall owner List.mem_cons_self
    refine Ends.bind ((resolveUserOnOwner_ends hok hco hsto selector).mono (fun _ _ => id)
      fun _ _ he => he.1) fun hit w' _ hres => ?_
    cases hit with
    | some found =>
      obtain ⟨rfl, f, hf⟩ := hres.2.1 found rfl
      exact .pure ⟨found, rfl, List.mem_cons_self, sto, f, hsto, hf⟩
    | none =>
      -- this owner does not declare the function, so a later one does
      refine (findOnOwners_ends hok selector hres.2.2
        (fun o ho => hall o (List.mem_cons_of_mem _ ho)) ?_).mono ?_ fun _ _ => id
      swap
      · rintro hit _ ⟨found, rfl, hmem, hfound⟩
        exact ⟨found, rfl, List.mem_cons_of_mem _ hmem, hfound⟩
      obtain ⟨o, ho, sto', hsto', hsel⟩ := hdecl
      rcases List.mem_cons.mp ho with rfl | ho
      · rw [hsto] at hsto'
        cases hsto'
        exact absurd (hres.1.mpr hsel) (by decide)
      · exact ⟨o, ho, sto', hsto', hsel⟩

/-- Where a call looks for its function, as far as the stored contracts say. -/
def candidatesIn (store : ContractStore) (call : CallSpec) (anchor : ContractAddress) :
    List ContractAddress :=
  call.resolveCandidates anchor ((store.contract anchor).elim [] (·.inherit))

theorem resolveCandidates_of_not_chain {call : CallSpec} (hchain : ¬ call.needsInheritChain)
    (anchor : ContractAddress) (parents : List ContractAddress) :
    call.resolveCandidates anchor [] = call.resolveCandidates anchor parents := by
  rw [CallSpec.needsInheritChain] at hchain
  rw [CallSpec.resolveCandidates, CallSpec.resolveCandidates]
  cases hset : call.anchorSemantics.2 with
  | anchorOnly => rfl
  | parentsOnly | anchorAndParents => simp only [hset, not_true_eq_false] at hchain

theorem resolveLookupCandidates_ends (hok : StoreOk h store) (hco : Coherent h store w)
    {anchor : ContractAddress} (hsto : store.contract anchor = some sto)
    (call : CallSpec) :
    Ends (fun owners w => owners = candidatesIn store call anchor ∧ Coherent h store w)
      (fun e _ => LoadErr e) (resolveLookupCandidates g cap h store anchor call) w := by
  rw [resolveLookupCandidates]
  split_ifs with hchain
  · refine Ends.bind ((resolveContract_ends hok hco hsto).mono (fun _ _ => id)
      fun _ _ he => he.1) fun obj w' _ hres => ?_
    refine .pure ⟨?_, hres.2⟩
    rw [candidatesIn, hsto, (loadsAs_of_intoObj hres.1).inherit]
    rfl
  · exact .pure ⟨resolveCandidates_of_not_chain hchain anchor _, hco⟩

/-- The errors that a call to a declared function may still end with. -/
def CallErr (e : ItrErr) : Prop := LoadErr e ∨ e.code = .callNotExternal

/-- The plan of a call runs the function `f` that the stored contract `sto` of `owner`, one of the
places the call looks at, declares under its selector. -/
structure ResolvesTo (store : ContractStore) (call : CallSpec) (bindings : FrameBindings)
    (plan : ResolvedCallPlan) (anchor owner : ContractAddress) (sto : ContractSto)
    (f : ContractUserFunc) : Prop where
  anchored : call.resolveAnchor bindings = .ok anchor
  candidate : owner ∈ candidatesIn store call anchor
  stored : store.contract owner = some sto
  declared : f ∈ sto.userfuncs
  sign : f.sign = call.selector
  fnobj : userEntry f = .ok (call.selector, plan.fnobj)
  next : plan.nextBindings = bindings.nextAfterCall call.switchesContext anchor owner
    (sto.library.map (·.val))

/-- A call is resolved if its anchor is known, all places it looks at are stored, and one of them
declares the function. -/
theorem planUserCall_ends (hok : StoreOk h store) (hco : Coherent h store w) {call : CallSpec}
    {bindings : FrameBindings} {anchor : ContractAddress}
    (hanchor : call.resolveAnchor bindings = .ok anchor)
    (hstored : ∃ sto, store.contract anchor = some sto)
    (hall : ∀ o ∈ candidatesIn store call anchor, ∃ sto, store.contract o = some sto)
    (hdecl : ∃ o ∈ candidatesIn store call anchor, ∃ sto, store.contract o = some sto ∧
      call.selector ∈ sto.userfuncs.map (·.sign)) :
    Ends (fun plan _ => ∃ owner sto f, ResolvesTo store call bindings plan anchor owner sto f)
      (fun e _ => CallErr e) (planUserCall g cap h store call bindings) w := by
  obtain ⟨sto, hsto⟩ := hstored
  have hresolve : Ends (fun p _ => p.1 = anchor ∧ p.2.owner ∈ candidatesIn store call anchor ∧
      ∃ sto f, store.contract p.2.owner = some sto ∧ DeclaredAs sto f call.selector p.2)
      (fun e _ => LoadErr e) (resolveUserCall g cap h store call bindings) w := by
    refine .peek_bind (fun a ha => ?_) fun e he => by rw [hanchor] at he; cases he
    rw [hanchor] at ha
    cases ha
    refine (resolveLookupCandidates_ends hok hco hsto call).bind fun owners w₁ _ hown => ?_
    obtain ⟨rfl, hco₁⟩ := hown
    refine (findOnOwners_ends hok call.selector hco₁ hall hdecl).bind fun found w₂ _ hfound => ?_
    obtain ⟨hit, rfl, hmem, hdeclared⟩ := hfound
    refine .peek_bind (fun hit' hhit => ?_) fun e he => by cases he
    cases hhit
    exact .pure ⟨rfl, hmem, hdeclared⟩
  refine (hresolve.mono (fun _ _ => id) fun _ _ he => .inl he).bind fun p w' _ hp => ?_
  obtain ⟨a, hit⟩ := p
  obtain ⟨rfl, hmem, osto, f, hosto, hf⟩ := hp
  refine .peek_bind (fun _ _ => .pure ⟨hit.owner, osto, f, ?_⟩) fun e he => ?_
  · exact ⟨hanchor, hmem, hosto, hf.declared, hf.sign, hf.fnobj, by rw [hf.libTable]⟩
  exact (failsOnly_check (.inr rfl) : FailsOnly CallErr _) e he

theorem resolveAbstfn_none (hok : StoreOk h store) (hco : Coherent h store w)
    (hsto : store.contract addr = some sto)
    (hinherit : sto.inherit = []) {selector : AbstCall}
    (hnone : sto.haveAbstCall selector = false) :
    Ends (fun hit _ => hit = none) (fun _ _ => True)
      (resolveAbstfn g cap h store addr selector) w := by
  refine Ends.bind ((resolveAbstOnOwner_ends hok hco hsto selector).mono (fun _ _ => id)
    fun _ _ _ => trivial) fun hit w₁ _ hres => ?_
  rw [hnone] at hres
  cases hit with
  | some found => cases hres.1
  | none =>
    refine Ends.bind ((resolveContract_ends hok hres.2 hsto).mono (fun _ _ => id)
      fun _ _ _ => trivial) fun obj w₂ _ hobj => ?_
    rw [(loadsAs_of_intoObj hobj.1).inherit, hinherit]
    exact .pure rfl

/-! ## What loading keeps -/

section

variable {known : Set ContractSto}

theorem Cached.erase (hc : Cached h known w) (addr : ContractAddress) :
    Cached h known { w with contracts := w.contracts.erase addr } := by
  intro a obj hlook
  by_cases ha : a = addr
  · subst ha
    rw [lookup_erase] at hlook
    cases hlook
  · rw [lookup_erase_ne ha] at hlook
    exact hc a obj hlook

variable (hstored : ∀ a sto, store.contract a = some sto → sto ∈ known)
include hstored

theorem loadNewContract_cached (hc : Cached h known w) (stateEd : ContractEdition) :
    Ends (fun _ w => Cached h known w) (fun _ _ => True)
      (loadNewContract g cap h store addr stateEd) w := by
  refine .peek_bind (fun _ _ => ?_) fun _ _ => trivial
  refine .peek_bind (fun csto hcsto => ?_) fun _ _ => trivial
  refine .peek_bind (fun cobj hcobj => ?_) fun _ _ => trivial
  have hcharge : Ends (fun _ w => Cached h known w) (fun _ _ => True)
      (WarmState.charge (settleNewContractLoadGas g stateEd.rawSize)) w :=
    (chargeAndCommitGas_ends g _ w.gas).zoom (fun _ _ _ => hc) fun _ _ _ => trivial
  refine hcharge.bind fun _ w' _ hc' => ?_
  intro a obj hlook
  by_cases ha : a = addr
  · subst ha
    rw [lookup_insert] at hlook
    cases hlook
    obtain ⟨_, hobj, hcobj⟩ := bind_eq_ok hcobj
    obtain ⟨-, hcobj⟩ := check_bind_iff.mp hcobj
    cases hcobj
    cases hsto : store.contract a with
    | none =>
      rw [hsto] at hcsto
      cases hcsto
    | some sto =>
      rw [hsto] at hcsto
      cases hcsto
      exact ⟨_, hstored a _ hsto, hobj⟩
  · rw [lookup_insert_ne ha] at hlook
    exact hc' a obj hlook

theorem resolveContract_cached (hc : Cached h known w) (addr : ContractAddress) :
    Ends (fun _ w => Cached h known w) (fun _ _ => True)
      (resolveContract g cap h store addr) w := by
  refine .peek_bind (fun stateEd _ => ?_) fun _ _ => trivial
  refine .peek_bind (fun kept hkept => ?_) fun _ _ => trivial
  cases hkept
  cases w.contracts.lookup addr with
  | none => exact loadNewContract_cached hstored hc stateEd
  | some cached =>
    dsimp only
    split_ifs
    · exact .pure hc
    · exact loadNewContract_cached hstored (hc.erase addr) stateEd

theorem resolveAbstOnOwner_cached (hc : Cached h known w) (selector : AbstCall)
    (owner : ContractAddress) : Ends (fun _ w => Cached h known w) (fun _ _ => True)
      (resolveAbstOnOwner g cap h store selector owner) w :=
  (resolveContract_cached hstored hc owner).bind fun _ _ _ hc' => .pure hc'

theorem findOnOwners_cached (selector : AbstCall) (owners : List ContractAddress)
    (hc : Cached h known w) : Ends (fun _ w => Cached h known w) (fun _ _ => True)
      (findOnOwners (resolveAbstOnOwner g cap h store selector) owners) w := by
  induction owners generalizing w with
  | nil => exact .pure hc
  | cons owner owners ih =>
    refine (resolveAbstOnOwner_cached hstored hc selector owner).bind fun hit _ _ hc' => ?_
    cases hit with
    | some found => exact .pure hc'
    | none => exact ih hc'

theorem resolveAbstfn_cached (hc : Cached h known w) (selector : AbstCall) :
    Ends (fun _ w => Cached h known w) (fun _ _ => True)
      (resolveAbstfn g cap h store addr selector) w := by
  refine (resolveAbstOnOwner_cached hstored hc selector addr).bind fun hit _ _ hc' => ?_
  cases hit with
  | some found => exact .pure hc'
  | none =>
    exact (resolveContract_cached hstored hc' addr).bind fun _ _ _ hc'' =>
      findOnOwners_cached hstored selector _ hc''

end

end

end Vm

end Hacash
