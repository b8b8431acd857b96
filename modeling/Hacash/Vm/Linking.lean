import Hacash.Vm.Deploy

/-!
# Contracts stay linked

The links of a contract are checked once, when it is stored, and stay good while other contracts
change. **Key results**: `inherited_code_immutable` and `call_sites_resolve`.
-/

namespace Hacash

open Lib List Vm.ContractStore Vm.CallSpec Function Relation

namespace Vm

/-! ## Call sites -/

/-- A call site: a call instruction where an instruction starts. -/
def CallSite (codes : List UInt8) (call : CallSpec) : Prop :=
  ∃ pc inst, InstStart codes pc ∧ pc < codes.length ∧
    Bytecode.tryFromU8 (codes.getD pc 0) = .ok inst ∧ inst.isUserCallInst = true ∧
    decodeUserCallSite inst (slice codes (pc + 1) inst.metadata.param) = .ok call

/-- The scan steps over an instruction as `instruction_end` does. -/
theorem instructionEnd_of_scan {codes : List UInt8} {i : ℕ} {inst : Bytecode}
    (hpms : i + 1 + inst.metadata.param ≤ codes.length)
    (hbuf : i + 1 + inst.metadata.param
      + bufLen inst (slice codes (i + 1) inst.metadata.param) ≤ codes.length) :
    instructionEnd codes i inst = .ok (i + 1
      + bufLen inst (slice codes (i + 1) inst.metadata.param) + inst.metadata.param) := by
  by_cases h₁ : inst = .PBUF
  · subst h₁
    have hend : i + 2 + readUint codes (i + 1) 1 ≤ codes.length := hbuf
    rw [instructionEnd]
    simp only [check_of _ _ (show i + 1 < codes.length from hpms), ok_bind, pure_bind,
      check_of _ _ hend]
    exact congrArg Except.ok (show i + 2 + readUint codes (i + 1) 1 = i + 1 + _ + 1 by
      rw [readUint]; exact Nat.add_right_comm (i + 1) 1 _)
  by_cases h₂ : inst = .PBUFL
  · subst h₂
    have hend : i + 1 + 2 + readUint codes (i + 1) 2 ≤ codes.length := hbuf
    rw [instructionEnd]
    simp only [check_of _ _ (show i + 1 + 2 ≤ codes.length from hpms), ok_bind, pure_bind,
      check_of _ _ hend]
    exact congrArg Except.ok (Nat.add_right_comm (i + 1) 2 _)
  have hzero : bufLen inst (slice codes (i + 1) inst.metadata.param) = 0 := by
    rw [bufLen]
    · exact h₁
    · exact h₂
  rw [hzero, Nat.add_zero, instructionEnd]
  · simp only [pure_bind, check_of _ _ hpms, ok_bind]
    rfl
  · exact h₁
  · exact h₂

theorem scanSite_ok {codes : List UInt8} {checkSite : CallSpec → Ret Unit} {i n : ℕ}
    (hscan : scanSite codes checkSite i = .ok n) :
    ∃ inst, Bytecode.tryFromU8 (codes.getD i 0) = .ok inst ∧
      instructionEnd codes i inst = .ok n ∧
      (inst.isUserCallInst = true → ∃ call,
        decodeUserCallSite inst (slice codes (i + 1) inst.metadata.param) = .ok call ∧
        checkSite call = .ok ()) := by
  obtain ⟨inst, hinst, hscan⟩ := bind_eq_ok hscan
  obtain ⟨hpms, hscan⟩ := ensure_bind_iff.mp hscan
  split_ifs at hscan with hcall
  · obtain ⟨call, hdecode, hscan⟩ := bind_eq_ok hscan
    obtain ⟨_, hsite, hscan⟩ := bind_eq_ok hscan
    obtain ⟨hbuf, hscan⟩ := ensure_bind_iff.mp hscan
    cases hscan
    exact ⟨inst, ofVm_eq_ok.mp hinst, instructionEnd_of_scan hpms hbuf,
      fun _ => ⟨call, ofVm_eq_ok.mp hdecode, hsite⟩⟩
  · obtain ⟨hbuf, hscan⟩ := ensure_bind_iff.mp hscan
    cases hscan
    exact ⟨inst, ofVm_eq_ok.mp hinst, instructionEnd_of_scan hpms hbuf,
      fun h => absurd h hcall⟩

theorem scanCallSites_site {codes : List UInt8} {checkSite : CallSpec → Ret Unit} {u : Unit}
    (hscan : scanCallSites codes checkSite = .ok u) {call : CallSpec}
    (hsite : CallSite codes call) : checkSite call = .ok () := by
  obtain ⟨pc, inst, hstart, hpc, hinst, hcall, hdecode⟩ := hsite
  obtain ⟨last, hscan, -⟩ := bind_eq_ok hscan
  obtain ⟨hend, hreach⟩ := scan_reaches hscan
  -- the scan goes from instruction to instruction, so it comes to `pc`
  suffices hpath : ReflTransGen (ScanStep (fun i => decide (codes.length ≤ i))
      (scanSite codes checkSite)) pc last by
    rcases ReflTransGen.cases_head hpath with rfl | ⟨n, ⟨-, hstep⟩, -⟩
    · exact absurd (of_decide_eq_true hend) (by omega)
    · obtain ⟨inst', hinst', -, hchk⟩ := scanSite_ok hstep
      rw [hinst] at hinst'
      cases hinst'
      obtain ⟨call', hdecode', hok⟩ := hchk hcall
      rw [hdecode] at hdecode'
      cases hdecode'
      exact hok
  clear hinst hdecode hcall
  induction hstart with
  | refl => exact hreach
  | tail _ hnext ih =>
    rename_i b c _
    obtain ⟨hb, inst₁, hinst₁, hend₁⟩ := hnext
    rcases ReflTransGen.cases_head (ih hb) with rfl | ⟨n, ⟨-, hstep⟩, hrest⟩
    · exact absurd (of_decide_eq_true hend) (by omega)
    · obtain ⟨inst', hinst', hend', -⟩ := scanSite_ok hstep
      rw [hinst₁] at hinst'
      cases hinst'
      rw [hend₁] at hend'
      cases hend'
      exact hrest

/-! ## Linked contracts -/

/-- A contract that no update can change: it has no parents and no update hook. -/
structure ContractSto.Locked (s : ContractSto) : Prop where
  inherit : s.inherit = []
  change : s.haveAbstCall .change = false
  append : s.haveAbstCall .append = false

/-- The bytecode of a function or hook of a contract. -/
def ContractSto.HasCode (ir : IrCompiler) (s : ContractSto) (codes : List UInt8) : Prop :=
  (∃ f ∈ s.userfuncs, f.codeStuff.bytecodes ir = .ok codes) ∨
    ∃ a ∈ s.abstcalls, a.codeStuff.bytecodes ir = .ok codes

/-- A call in the code of `addr` finds its function among the stored contracts. -/
def CallFound (store : ContractStore) (addr : ContractAddress) (library : List ContractAddress)
    (call : CallSpec) : Prop :=
  ∃ anchor, call.resolveAnchorFrom (some addr) (some addr) (library.map (·.val)) = .ok anchor ∧
    (∃ sto, store.contract anchor = some sto) ∧
    ∃ o ∈ candidatesIn store call anchor, ∃ sto, store.contract o = some sto ∧
      call.selector ∈ sto.userfuncs.map (·.sign)

/-- What the checks of a contract say of the contracts it links. -/
structure Linked (ir : IrCompiler) (store : ContractStore) (addr : ContractAddress)
    (sto : ContractSto) : Prop where
  parents : ∀ p ∈ sto.inherit, p ≠ addr ∧ ∃ psto, store.contract p = some psto ∧ psto.Locked
  calls : ∀ codes, sto.HasCode ir codes → ∀ call, CallSite codes call →
    CallFound store addr sto.library call

section

variable {ir : IrCompiler} {h : VmHash} {store : ContractStore} {addr : ContractAddress}
  {sto : ContractSto}

theorem loadContractForCheck_ok {a : ContractAddress} {role : String} {s : ContractSto}
    (hload : loadContractForCheck store addr sto a role = .ok s) :
    (store.setSyncEdition h addr sto).contract a = some s := by
  rw [loadContractForCheck] at hload
  split_ifs at hload with ha
  · cases hload
    rw [ha, setSyncEdition_self]
  · rw [setSyncEdition_of_ne ha]
    exact okOr_eq_ok hload

theorem checkInheritParents_ok : ∀ {ps : List ContractAddress} {stos : List ContractSto},
    checkInheritParents store addr sto ps = .ok stos →
    ∀ p ∈ ps, ∃ psto, (store.setSyncEdition h addr sto).contract p = some psto ∧ psto.Locked
  | [], _, _ => nofun
  | p :: ps, stos, hcheck => by
    obtain ⟨psto, hload, hcheck⟩ := bind_eq_ok hcheck
    obtain ⟨hinherit, hcheck⟩ := ensure_bind_iff.mp hcheck
    obtain ⟨⟨hchange, happend⟩, hcheck⟩ := ensure_bind_iff.mp hcheck
    obtain ⟨stos', hrest, -⟩ := bind_eq_ok hcheck
    exact forall_mem_cons.mpr
      ⟨⟨psto, loadContractForCheck_ok hload, hinherit, hchange, happend⟩,
        checkInheritParents_ok hrest⟩

theorem contractUserfnMeta_sign {contract : ContractSto} {sign : FnSign} {isExternal : Bool}
    (hmeta : contractUserfnMeta contract sign = some isExternal) :
    sign ∈ contract.userfuncs.map (·.sign) := by
  obtain ⟨f, hfind, -⟩ := Option.map_eq_some_iff.mp hmeta
  have hsign : f.sign = sign := by
    have := find?_some hfind
    exact beq_iff_eq.mp this
  exact mem_map.mpr ⟨f, mem_of_find?_eq_some hfind, hsign⟩

theorem lookupUserfnMeta_some {sign : FnSign} : ∀ {owners : List ContractAddress}
    {hit : ContractAddress × Bool},
    lookupUserfnMeta store addr sto sign owners = .ok (some hit) →
    ∃ o ∈ owners, ∃ s, (store.setSyncEdition h addr sto).contract o = some s ∧
      sign ∈ s.userfuncs.map (·.sign)
  | [], _, hlook => by cases hlook
  | owner :: owners, hit, hlook => by
    obtain ⟨s, hload, hlook⟩ := bind_eq_ok hlook
    cases hmeta : contractUserfnMeta s sign with
    | some isExternal =>
      exact ⟨owner, mem_cons_self, s, loadContractForCheck_ok hload,
        contractUserfnMeta_sign hmeta⟩
    | none =>
      simp only [hmeta] at hlook
      obtain ⟨o, ho, hdecl⟩ := lookupUserfnMeta_some hlook
      exact ⟨o, mem_cons_of_mem _ ho, hdecl⟩

variable {call : CallSpec} {anchor : ContractAddress}

theorem anchor_of_not_lib (hlib : call.libIndex.isSome = false) {libs : List Address}
    (hanchor : call.resolveAnchorFrom (some addr) (some addr) libs = .ok anchor) :
    anchor = addr := by
  rw [libIndex] at hlib
  rw [resolveAnchorFrom] at hanchor
  cases hsem : call.anchorSemantics.1 with
  | stateThis | codeOwner =>
    simp only [hsem] at hanchor
    exact (Except.ok.inj hanchor).symm
  | lib i =>
    simp only [hsem] at hlib
    cases hlib

theorem mapError_eq_ok {ε ε' α : Type} {x : Except ε α} {f : ε → ε'} {a : α}
    (hx : x.mapError f = .ok a) : x = .ok a := by
  cases x with
  | ok b => cases hx; rfl
  | error e => cases hx

theorem resolveLookupAnchorForCheck_ok {tag : String}
    (hanchor : resolveLookupAnchorForCheck store addr sto tag call = .ok anchor) :
    call.resolveAnchorFrom (some addr) (some addr) (sto.library.map (·.val)) = .ok anchor ∧
      ∃ s, (store.setSyncEdition h addr sto).contract anchor = some s := by
  obtain ⟨a, ha, hanchor⟩ := bind_eq_ok hanchor
  have ha := mapError_eq_ok ha
  cases hlib : call.libIndex.isSome with
  | false =>
    simp only [hlib] at hanchor
    cases hanchor
    obtain rfl := anchor_of_not_lib hlib ha
    exact ⟨ha, sto, setSyncEdition_self ..⟩
  | true =>
    simp only [hlib, if_true] at hanchor
    obtain ⟨s, hload, hanchor⟩ := bind_eq_ok hanchor
    cases hanchor
    exact ⟨ha, s, loadContractForCheck_ok hload⟩

theorem resolveLookupEntriesForCheck_ok {entries : List ContractAddress}
    (hentries : resolveLookupEntriesForCheck store addr sto anchor call = .ok entries) :
    entries = candidatesIn (store.setSyncEdition h addr sto) call anchor := by
  rw [resolveLookupEntriesForCheck] at hentries
  split_ifs at hentries with hchain
  · obtain ⟨s, hload, hentries⟩ := bind_eq_ok hentries
    cases hentries
    rw [candidatesIn, loadContractForCheck_ok hload]
    rfl
  · cases hentries
    exact resolveCandidates_of_not_chain hchain anchor _

theorem checkCall_ok {tag : String} {u : Unit} (hcall : checkCall store addr sto tag call = .ok u) :
    CallFound (store.setSyncEdition h addr sto) addr sto.library call := by
  obtain ⟨anchor, hanchor, hcall⟩ := bind_eq_ok hcall
  obtain ⟨entries, hentries, hcall⟩ := bind_eq_ok hcall
  obtain ⟨hit, hlook, hcall⟩ := bind_eq_ok hcall
  obtain ⟨hres, hstored⟩ := resolveLookupAnchorForCheck_ok hanchor
  refine ⟨anchor, hres, hstored, ?_⟩
  rw [← resolveLookupEntriesForCheck_ok hentries]
  cases hit with
  | none => cases hcall
  | some hit => exact lookupUserfnMeta_some hlook

theorem forM_ret_eq_ok {α : Type} {f : α → Ret Unit} : ∀ {l : List α} {u : Unit},
    l.forM f = .ok u → ∀ a ∈ l, f a = .ok ()
  | [], _, _ => nofun
  | a :: l, u, hl => by
    obtain ⟨_, ha, hl⟩ := bind_eq_ok (show (f a >>= fun _ => l.forM f) = .ok u from hl)
    exact forall_mem_cons.mpr ⟨ha, forM_ret_eq_ok hl⟩

theorem checkStaticCallTargets_ok {u : Unit}
    (hcheck : checkStaticCallTargets ir store addr sto = .ok u) {codes : List UInt8}
    (hcode : sto.HasCode ir codes) (hsite : CallSite codes call) :
    CallFound (store.setSyncEdition h addr sto) addr sto.library call := by
  obtain ⟨_, huser, habst⟩ := bind_eq_ok hcheck
  rcases hcode with ⟨f, hf, hcodes⟩ | ⟨a, ha, hcodes⟩
  · obtain ⟨codes', hcodes', hscan⟩ := bind_eq_ok (forM_ret_eq_ok huser f hf)
    rw [ofVm_eq_ok, hcodes] at hcodes'
    cases hcodes'
    exact checkCall_ok (scanCallSites_site hscan hsite)
  · obtain ⟨codes', hcodes', hscan⟩ := bind_eq_ok (forM_ret_eq_ok habst a ha)
    rw [ofVm_eq_ok, hcodes] at hcodes'
    cases hcodes'
    exact checkCall_ok (scanCallSites_site hscan hsite)

theorem linked_of_analyze {hasConstruct : Bool}
    (hcheck : analyzeContractStore ir store addr sto = .ok hasConstruct) :
    Linked ir (store.setSyncEdition h addr sto) addr sto := by
  obtain ⟨_, hself, hcheck⟩ := bind_eq_ok hcheck
  obtain ⟨hself, -⟩ := ensure_bind_iff.mp hself
  obtain ⟨_, -, hcheck⟩ := bind_eq_ok hcheck
  obtain ⟨_, hparents, hcheck⟩ := bind_eq_ok hcheck
  obtain ⟨_, -, hcheck⟩ := bind_eq_ok hcheck
  obtain ⟨_, hcalls, -⟩ := bind_eq_ok hcheck
  obtain ⟨stos, hparents, -⟩ := bind_eq_ok hparents
  refine ⟨fun p hp => ⟨?_, checkInheritParents_ok hparents p hp⟩,
    fun codes hcode call hsite => checkStaticCallTargets_ok hcalls hcode hsite⟩
  rintro rfl
  exact hself hp

end

/-! ## What an action does to the stored contracts -/

/-- A checked and linked contract is stored at a free address, or in place of one not locked. -/
inductive StoreStep (ir : IrCompiler) (h : VmHash) (store : ContractStore) :
    ContractStore → Prop
  | deploy {cap : ContractCap} {registry : HostRegistry} {addr : ContractAddress}
      {sto : ContractSto} (fresh : store.contract addr = none)
      (checked : sto.Checked ir cap registry)
      (linked : Linked ir (store.setSyncEdition h addr sto) addr sto) :
      StoreStep ir h store (store.setSyncEdition h addr sto)
  | update {cap : ContractCap} {registry : HostRegistry} {addr : ContractAddress}
      {old new : ContractSto} (stored : store.contract addr = some old)
      (edited : old.EditedTo ir cap registry new)
      (linked : Linked ir (store.setSyncEdition h addr new) addr new)
      (unlocked : ¬ old.Locked) : StoreStep ir h store (store.setSyncEdition h addr new)

section

variable {L : Type} {host : ContractHost L} {w w' : World L}

theorem runAbstEntry_contracts {kind : AbstCall} {addr : ContractAddress} {param : Value}
    (hrun : runAbstEntry host w kind addr param = .ok w') : w'.contracts = w.contracts := by
  obtain ⟨rest, -, hrun⟩ := bind_eq_ok hrun
  obtain ⟨_, -, hrun⟩ := bind_eq_ok hrun
  obtain ⟨_, -, hrun⟩ := bind_eq_ok hrun
  split at hrun
  · cases hrun
  · cases hrun
  · obtain ⟨_, -, hrun⟩ := bind_eq_ok hrun
    cases hrun
    rfl

theorem runAbstEntry_declared (hok : StoreOk host.hash w.contracts)
    (hco : Coherent host.hash w.contracts w.warm) {kind : AbstCall} {addr : ContractAddress}
    {param : Value} (hrun : runAbstEntry host w kind addr param = .ok w') {sto : ContractSto}
    (hsto : w.contracts.contract addr = some sto) (hinherit : sto.inherit = []) :
    sto.haveAbstCall kind = true := by
  by_contra hnone
  obtain ⟨rest, -, hrun⟩ := bind_eq_ok hrun
  obtain ⟨_, -, hrun⟩ := bind_eq_ok hrun
  obtain ⟨_, -, hrun⟩ := bind_eq_ok hrun
  have hends : Ends (fun hit _ => hit = none) (fun _ _ => True)
      (resolveAbstfn host.gas host.cap.toRunCap host.hash w.contracts addr kind) w.warm :=
    resolveAbstfn_none hok hco hsto hinherit (Bool.eq_false_iff.mpr hnone)
  rw [Ends] at hends
  split at hrun
  · cases hrun
  · cases hrun
  · rename_i hit warm hresolve
    rw [hresolve] at hends
    cases hends

/-- What a strict deployment has checked. Its constructor, if there is one, runs on the stored
contract. -/
theorem contractDeployExecute_ok {act : ContractDeploy} (hstrict : host.fastSync = false)
    (hrun : contractDeployExecute host act w = .ok w') :
    ∃ caddr, w.contracts.contract caddr = none ∧
      act.contract.check host.ir host.cap host.registry = .ok () ∧
      (∃ b, analyzeContractStore host.ir w.contracts caddr act.contract = .ok b) ∧
      ∃ rest, ∃ w₁ : World L, w₁ = ⟨w.contracts.setSyncEdition host.hash caddr act.contract,
          w.warm, rest⟩ ∧
        (w' = w₁ ∨ ∃ param, runAbstEntry host w₁ .construct caddr param = .ok w') := by
  rw [contractDeployExecute] at hrun
  simp only [hstrict, Bool.not_false, Bool.true_eq_false, false_or, if_true] at hrun
  replace hrun := ensure_drop hrun
  obtain ⟨hfresh, hrun⟩ := ensure_bind_iff.mp hrun
  obtain ⟨_, hcheck, hrun⟩ := bind_eq_ok hrun
  replace hrun := ensure_drop hrun
  obtain ⟨hasConstruct, hlinked, hrun⟩ := bind_eq_ok hrun
  replace hrun := ensure_drop hrun
  replace hrun := ensure_drop hrun
  replace hrun := ensure_drop hrun
  obtain ⟨rest, -, hrun⟩ := bind_eq_ok hrun
  refine ⟨_, hfresh, ofVm_eq_ok.mp hcheck, ⟨_, hlinked⟩, rest, _, rfl, ?_⟩
  split_ifs at hrun
  · exact .inr ⟨_, hrun⟩
  · cases hrun
    exact .inl rfl

theorem contractDeployExecute_step {act : ContractDeploy} (hstrict : host.fastSync = false)
    (hrun : contractDeployExecute host act w = .ok w') :
    StoreStep host.ir host.hash w.contracts w'.contracts := by
  obtain ⟨caddr, hfresh, hcheck, ⟨b, hlinked⟩, rest, w₁, rfl, hrun⟩ :=
    contractDeployExecute_ok hstrict hrun
  have hstep := StoreStep.deploy (h := host.hash) hfresh
    (ContractSto.checked_of_check hcheck) (linked_of_analyze hlinked)
  rcases hrun with rfl | ⟨param, hrun⟩
  · exact hstep
  · rw [runAbstEntry_contracts hrun]
    exact hstep

/-- What an update has checked, with the hook that allowed it. -/
theorem contractUpdateExecute_ok {act : ContractUpdate}
    (hrun : contractUpdateExecute host act w = .ok w') :
    ∃ caddr old new hook rest, ∃ w₁ : World L, w.contracts.contract caddr = some old ∧
      (∃ b, old.applyEdit host.ir host.cap host.registry act.edit = .ok (new, b)) ∧
      (∃ b, analyzeContractStore host.ir w.contracts caddr new = .ok b) ∧
      (hook = .change ∨ hook = .append) ∧
      runAbstEntry host { w with rest } hook caddr .nil = .ok w₁ ∧
      w' = { w₁ with
        contracts := w₁.contracts.setSyncEdition host.hash caddr new
        warm := { w₁.warm with contracts := w₁.warm.contracts.erase caddr } } := by
  replace hrun := ensure_drop hrun
  split_ifs at hrun with haddr
  · obtain ⟨old, hold, hrun⟩ := bind_eq_ok hrun
    have hold := okOr_eq_ok hold
    obtain ⟨⟨new, didChange⟩, hedit, hrun⟩ := bind_eq_ok hrun
    obtain ⟨_, hlinked, hrun⟩ := bind_eq_ok hrun
    replace hrun := ensure_drop hrun
    obtain ⟨didLookup, -, hrun⟩ := bind_eq_ok hrun
    obtain ⟨rest, -, hrun⟩ := bind_eq_ok hrun
    obtain ⟨w₁, hhook, hrun⟩ := bind_eq_ok hrun
    cases hrun
    refine ⟨_, old, new, _, rest, w₁, hold, ⟨_, ofVm_eq_ok.mp hedit⟩, ⟨_, hlinked⟩, ?_, hhook, rfl⟩
    split_ifs
    · exact .inl rfl
    · exact .inr rfl
  · cases hrun

theorem contractUpdateExecute_step (hok : StoreOk host.hash w.contracts)
    (hco : Coherent host.hash w.contracts w.warm) {act : ContractUpdate}
    (hrun : contractUpdateExecute host act w = .ok w') :
    StoreStep host.ir host.hash w.contracts w'.contracts := by
  obtain ⟨caddr, old, new, hook, rest, w₁, hold, ⟨b, hedit⟩, ⟨b', hlinked⟩, hkind, hhook, rfl⟩ :=
    contractUpdateExecute_ok hrun
  have hkeep : w₁.contracts = w.contracts := runAbstEntry_contracts (w := { w with rest }) hhook
  simp only [hkeep]
  refine .update hold (ContractSto.editedTo_of_applyEdit hedit) (linked_of_analyze hlinked)
    fun hlocked => ?_
  -- the hook that allows the update is one of the two that a locked contract lacks
  have hdecl := runAbstEntry_declared (w := { w with rest }) hok hco hhook hold hlocked.inherit
  rcases hkind with rfl | rfl
  · rw [hlocked.change] at hdecl
    cases hdecl
  · rw [hlocked.append] at hdecl
    cases hdecl

end

/-! ## What steps keep -/

/-- Contracts stay stored, with their parents and all their functions. -/
def Grows (store store' : ContractStore) : Prop :=
  ∀ a s, store.contract a = some s → ∃ s', store'.contract a = some s' ∧
    s'.inherit = s.inherit ∧
    ∀ sign ∈ s.userfuncs.map (·.sign), sign ∈ s'.userfuncs.map (·.sign)

theorem Grows.refl (store : ContractStore) : Grows store store :=
  fun _ s hs => ⟨s, hs, rfl, fun _ => id⟩

theorem Grows.trans {store₁ store₂ store₃ : ContractStore} (h₁ : Grows store₁ store₂)
    (h₂ : Grows store₂ store₃) : Grows store₁ store₃ := by
  intro a s hs
  obtain ⟨s', hs', hinherit', hsigns'⟩ := h₁ a s hs
  obtain ⟨s'', hs'', hinherit'', hsigns''⟩ := h₂ a s' hs'
  exact ⟨s'', hs'', hinherit''.trans hinherit', fun sign h => hsigns'' sign (hsigns' sign h)⟩

/-- Every stored contract loads and is linked. -/
structure StoreInv (ir : IrCompiler) (h : VmHash) (store : ContractStore) : Prop where
  ok : StoreOk h store
  linked : ∀ a s, store.contract a = some s → Linked ir store a s

theorem storeInv_empty (ir : IrCompiler) (h : VmHash) : StoreInv ir h .empty :=
  ⟨⟨nofun, nofun⟩, nofun⟩

section

variable {ir : IrCompiler} {h : VmHash} {store store' : ContractStore}

theorem CallFound.mono {addr : ContractAddress} {library : List ContractAddress}
    {call : CallSpec} (hfound : CallFound store addr library call) (hgrows : Grows store store') :
    CallFound store' addr library call := by
  obtain ⟨anchor, hanchor, ⟨s, hs⟩, o, ho, t, ht, hsel⟩ := hfound
  obtain ⟨s', hs', hinherit, -⟩ := hgrows anchor s hs
  obtain ⟨t', ht', -, hsigns⟩ := hgrows o t ht
  refine ⟨anchor, hanchor, ⟨s', hs'⟩, o, ?_, t', ht', hsigns _ hsel⟩
  -- the candidates depend on the parents of the anchor only
  rw [candidatesIn, hs] at ho
  rw [candidatesIn, hs', Option.elim_some, hinherit]
  exact ho

theorem StoreStep.grows (hstep : StoreStep ir h store store') : Grows store store' := by
  intro a s hs
  cases hstep with
  | deploy fresh checked linked =>
    rename_i cap registry addr sto
    have ha : a ≠ addr := by
      rintro rfl
      rw [fresh] at hs
      cases hs
    exact ⟨s, (setSyncEdition_of_ne ha).trans hs, rfl, fun _ => id⟩
  | update stored edited linked unlocked =>
    rename_i cap registry addr old new
    by_cases ha : a = addr
    · subst ha
      rw [stored] at hs
      cases hs
      exact ⟨new, setSyncEdition_self .., edited.inherit, edited.userfuncs⟩
    · exact ⟨s, (setSyncEdition_of_ne ha).trans hs, rfl, fun _ => id⟩

theorem StoreStep.locked (hstep : StoreStep ir h store store') {p : ContractAddress}
    {psto : ContractSto} (hp : store.contract p = some psto) (hlocked : psto.Locked) :
    store'.contract p = some psto := by
  cases hstep with
  | deploy fresh checked linked =>
    rename_i cap registry addr sto
    have hne : p ≠ addr := by
      rintro rfl
      rw [fresh] at hp
      cases hp
    exact (setSyncEdition_of_ne hne).trans hp
  | update stored edited linked unlocked =>
    rename_i cap registry addr old new
    have hne : p ≠ addr := by
      rintro rfl
      rw [stored] at hp
      cases hp
      exact unlocked hlocked
    exact (setSyncEdition_of_ne hne).trans hp

theorem Linked.step {addr : ContractAddress} {sto : ContractSto}
    (hlinked : Linked ir store addr sto) (hstep : StoreStep ir h store store') :
    Linked ir store' addr sto where
  parents p hp := by
    obtain ⟨hne, psto, hpsto, hlocked⟩ := hlinked.parents p hp
    exact ⟨hne, psto, hstep.locked hpsto hlocked, hlocked⟩
  calls codes hcode call hsite := (hlinked.calls codes hcode call hsite).mono hstep.grows

theorem StoreStep.stored (hstep : StoreStep ir h store store') {a : ContractAddress}
    {s : ContractSto} (hs : store'.contract a = some s) :
    (store.contract a = some s ∧ store'.edition a = store.edition a) ∨
      (store'.edition a = some (s.calcEdition h) ∧ (∃ obj, s.intoObj h = .ok obj) ∧
        Linked ir store' a s) := by
  cases hstep with
  | deploy fresh checked linked =>
    rename_i cap registry addr sto
    by_cases ha : a = addr
    · subst ha
      rw [setSyncEdition_self] at hs
      cases hs
      exact .inr ⟨update_self .., checked.intoObj, linked⟩
    · rw [setSyncEdition_of_ne ha] at hs
      exact .inl ⟨hs, update_of_ne ha ..⟩
  | update stored edited linked unlocked =>
    rename_i cap registry addr old new
    by_cases ha : a = addr
    · subst ha
      rw [setSyncEdition_self] at hs
      cases hs
      exact .inr ⟨update_self .., edited.checked.intoObj, linked⟩
    · rw [setSyncEdition_of_ne ha] at hs
      exact .inl ⟨hs, update_of_ne ha ..⟩

theorem StoreStep.edition (hstep : StoreStep ir h store store')
    (hed : ∀ a, store.contract a = none → store.edition a = none) :
    ∀ a, store'.contract a = none → store'.edition a = none := by
  -- an action writes a contract and its edition together
  have hset : ∀ (addr : ContractAddress) (sto : ContractSto) (a : ContractAddress),
      (store.setSyncEdition h addr sto).contract a = none →
      (store.setSyncEdition h addr sto).edition a = none := by
    intro addr sto a hnone
    by_cases ha : a = addr
    · subst ha
      rw [setSyncEdition_self] at hnone
      cases hnone
    · rw [setSyncEdition_of_ne ha] at hnone
      exact (update_of_ne ha ..).trans (hed a hnone)
  cases hstep with
  | deploy => exact hset _ _
  | update => exact hset _ _

theorem StoreInv.step (inv : StoreInv ir h store) (hstep : StoreStep ir h store store') :
    StoreInv ir h store' := by
  refine ⟨⟨fun a s hs => ?_, fun a s hs => ?_⟩, fun a s hs => ?_⟩
  · rcases hstep.stored hs with ⟨hold, hed⟩ | ⟨hed, -, -⟩
    · exact hed.trans (inv.ok.edition a s hold)
    · exact hed
  · rcases hstep.stored hs with ⟨hold, -⟩ | ⟨-, hobj, -⟩
    · exact inv.ok.intoObj a s hold
    · exact hobj
  · rcases hstep.stored hs with ⟨hold, -⟩ | ⟨-, -, hlinked⟩
    · exact (inv.linked a s hold).step hstep
    · exact hlinked

end

/-! ## Sequences -/

/-- What a sequence of actions keeps: contracts grow and locked ones stay. -/
structure Kept (store store' : ContractStore) : Prop where
  grows : Grows store store'
  locked : ∀ p psto, store.contract p = some psto → psto.Locked →
    store'.contract p = some psto

theorem ContractSteps.kept {L : Type} {ir : IrCompiler} {h : VmHash} {w w' : World L}
    (hrun : ContractSteps ir h w w') (inv : StoreInv ir h w.contracts) :
    StoreInv ir h w'.contracts ∧ Kept w.contracts w'.contracts := by
  -- one step more, from what the steps before it kept
  have one : ∀ {store₁ store₂ : ContractStore},
      StoreInv ir h store₁ ∧ Kept w.contracts store₁ → StoreStep ir h store₁ store₂ →
      StoreInv ir h store₂ ∧ Kept w.contracts store₂ := by
    rintro store₁ store₂ ⟨inv₁, kept₁⟩ hstep
    exact ⟨inv₁.step hstep, kept₁.grows.trans hstep.grows, fun p psto hp hlocked =>
      hstep.locked (kept₁.locked p psto hp hlocked) hlocked⟩
  induction hrun with
  | refl => exact ⟨inv, Grows.refl _, fun p psto hp _ => hp⟩
  | deploy host act prev hir hhash strict hrun ih =>
    subst hir hhash
    exact one ih (contractDeployExecute_step strict hrun)
  | update host act prev hir hhash strict coherent hrun ih =>
    subst hir hhash
    exact one ih (contractUpdateExecute_step ih.1.ok coherent hrun)
  | other prev same ih =>
    rw [same]
    exact ih

section

variable {L : Type} {host : ContractHost L} {w w' : World L} {known : Set ContractSto}

theorem runAbstEntry_cached (loads : host.Loads)
    (hstored : ∀ a sto, w.contracts.contract a = some sto → sto ∈ known)
    (hc : Cached host.hash known w.warm) {kind : AbstCall} {addr : ContractAddress} {param : Value}
    (hrun : runAbstEntry host w kind addr param = .ok w') : Cached host.hash known w'.warm := by
  obtain ⟨rest, -, hrun⟩ := bind_eq_ok hrun
  obtain ⟨_, -, hrun⟩ := bind_eq_ok hrun
  obtain ⟨_, -, hrun⟩ := bind_eq_ok hrun
  have hends : Ends (fun _ w => Cached host.hash known w) (fun _ _ => True)
      (resolveAbstfn host.gas host.cap.toRunCap host.hash w.contracts addr kind) w.warm :=
    resolveAbstfn_cached hstored hc kind
  rw [Ends] at hends
  split at hrun
  · cases hrun
  · cases hrun
  · rename_i hit warm hresolve
    rw [hresolve] at hends
    obtain ⟨⟨warm', rest'⟩, hfinish, hrun⟩ := bind_eq_ok hrun
    cases hrun
    intro a obj hlook
    rcases loads hfinish a obj hlook with hold | ⟨b, sto, hsto, hobj⟩
    · exact hends a obj hold
    · exact ⟨sto, hstored b sto hsto, hobj⟩

/-- A deployment adds its contract to those that are stored, and loads only from them. -/
theorem contractDeployExecute_cached (loads : host.Loads) (hc : Cached host.hash known w.warm)
    (hstored : ∀ a sto, w.contracts.contract a = some sto → sto ∈ known)
    (hstrict : host.fastSync = false) {act : ContractDeploy} (hact : act.contract ∈ known)
    (hrun : contractDeployExecute host act w = .ok w') :
    Cached host.hash known w'.warm ∧
      ∀ a sto, w'.contracts.contract a = some sto → sto ∈ known := by
  obtain ⟨caddr, -, -, -, rest, w₁, rfl, hrun⟩ := contractDeployExecute_ok hstrict hrun
  have hstored' : ∀ a sto, (w.contracts.setSyncEdition host.hash caddr act.contract).contract a
      = some sto → sto ∈ known := by
    intro a sto hsto
    by_cases ha : a = caddr
    · subst ha
      rw [setSyncEdition_self] at hsto
      cases hsto
      exact hact
    · rw [setSyncEdition_of_ne ha] at hsto
      exact hstored a sto hsto
  rcases hrun with rfl | ⟨param, hrun⟩
  · exact ⟨hc, hstored'⟩
  · refine ⟨runAbstEntry_cached (w := ⟨_, w.warm, rest⟩) loads hstored' hc hrun, ?_⟩
    rw [runAbstEntry_contracts hrun]
    exact hstored'

theorem contractUpdateExecute_cached (loads : host.Loads) (hc : Cached host.hash known w.warm)
    (hstored : ∀ a sto, w.contracts.contract a = some sto → sto ∈ known) {act : ContractUpdate}
    (hrun : contractUpdateExecute host act w = .ok w') : Cached host.hash known w'.warm := by
  obtain ⟨_, _, _, _, rest, _, -, -, -, -, hhook, rfl⟩ := contractUpdateExecute_ok hrun
  exact (runAbstEntry_cached (w := { w with rest }) loads hstored hc hhook).erase _

/-- What a machine keeps true of its contracts and its cache. -/
structure CacheInv (ir : IrCompiler) (h : VmHash) (known : Set ContractSto) (w : World L) :
    Prop where
  store : StoreInv ir h w.contracts
  edition : ∀ a, w.contracts.contract a = none → w.contracts.edition a = none
  stored : ∀ a sto, w.contracts.contract a = some sto → sto ∈ known
  cached : Cached h known w.warm

variable {ir : IrCompiler} {h : VmHash}

theorem CacheInv.coherent (inv : CacheInv ir h known w)
    (hinj : Set.InjOn (ContractSto.calcEdition h) known) : Coherent h w.contracts w.warm :=
  coherent_of_injOn inv.store.ok inv.edition inv.stored inv.cached hinj

/-- **A machine's cache is coherent at every update**, if editions tell the contracts apart that
were ever stored: its runs are `ContractSteps`. -/
theorem MachineSteps.contractSteps (hinj : Set.InjOn (ContractSto.calcEdition h) known)
    (hrun : MachineSteps ir h known w w') (inv : CacheInv ir h known w) :
    ContractSteps ir h w w' ∧ CacheInv ir h known w' := by
  induction hrun with
  | refl => exact ⟨.refl _, inv⟩
  | deploy host act prev hir hhash strict loads stored hrun ih =>
    subst hir hhash
    obtain ⟨steps, inv₁⟩ := ih
    have hstep := contractDeployExecute_step strict hrun
    obtain ⟨cached₂, stored₂⟩ :=
      contractDeployExecute_cached loads inv₁.cached inv₁.stored strict stored hrun
    exact ⟨.deploy host act steps rfl rfl strict hrun, inv₁.store.step hstep,
      hstep.edition inv₁.edition, stored₂, cached₂⟩
  | update host act prev hir hhash strict loads stored hrun ih =>
    subst hir hhash
    obtain ⟨steps, inv₁⟩ := ih
    have hco := inv₁.coherent hinj
    have hstep := contractUpdateExecute_step inv₁.store.ok hco hrun
    exact ⟨.update host act steps rfl rfl strict hco hrun, inv₁.store.step hstep,
      hstep.edition inv₁.edition, stored,
      contractUpdateExecute_cached loads inv₁.cached inv₁.stored hrun⟩
  | other prev same cached ih =>
    obtain ⟨steps, inv₁⟩ := ih
    exact ⟨.other steps same, same ▸ inv₁.store, same ▸ inv₁.edition, same ▸ inv₁.stored, cached⟩

end

/-- **Inherited code is immutable.** After any deployments and updates, the parents of a stored
contract are other stored contracts without parents and update hooks, and no later action changes
them or the list. -/
theorem inherited_code_immutable {L : Type} {ir : IrCompiler} {h : VmHash} {w₀ w : World L}
    (hempty : w₀.contracts = .empty) (hrun : ContractSteps ir h w₀ w) {c : ContractAddress}
    {sto : ContractSto} (hc : w.contracts.contract c = some sto) :
    (∀ w', ContractSteps ir h w w' →
      ∃ sto', w'.contracts.contract c = some sto' ∧ sto'.inherit = sto.inherit) ∧
    ∀ p ∈ sto.inherit, p ≠ c ∧ ∃ psto, w.contracts.contract p = some psto ∧
      psto.inherit = [] ∧ psto.haveAbstCall .change = false ∧
      psto.haveAbstCall .append = false ∧
      ∀ w', ContractSteps ir h w w' → w'.contracts.contract p = some psto := by
  have inv : StoreInv ir h w.contracts := (hrun.kept (hempty ▸ storeInv_empty ir h)).1
  constructor
  · intro w' hlater
    obtain ⟨sto', hsto', hinherit, -⟩ := (hlater.kept inv).2.grows c sto hc
    exact ⟨sto', hsto', hinherit⟩
  · intro p hp
    obtain ⟨hne, psto, hpsto, hlocked⟩ := (inv.linked c sto hc).parents p hp
    exact ⟨hne, psto, hpsto, hlocked.inherit, hlocked.change, hlocked.append,
      fun w' hlater => (hlater.kept inv).2.locked p psto hpsto hlocked⟩

/-- A host without registered actions that charges nothing. -/
def sampleHost : ContractHost Unit where
  ir _ := itrErr .compileError
  hash := ⟨fun _ => Hash.fill 0, fun _ => []⟩
  registry := ⟨fun _ _ => none, nofun⟩
  cap := .new
  gas := .new 0 0 0
  fastSync := false
  main := ⟨replicate 21 0, rfl⟩
  calculate _ nonce := ⟨⟨1 :: UInt8.ofNat nonce :: replicate 19 0, rfl⟩, rfl⟩
  payDeploy _ _ l := .ok l
  payUpdate _ _ l := .ok l
  pushEntry l := .ok l
  finishEntry _ _ _ _ _ warm l := .ok (warm, l)

/-- Nothing stored and nothing loaded. -/
def sampleWorld : World Unit := ⟨.empty, ⟨∅, ⟨.zero, .new⟩⟩, ()⟩

/-- A contract with the given links and one function. -/
def sampleContract (inherit library : List ContractAddress) (sign : FnSign)
    (codes : List UInt8) : ContractSto where
  metas := ⟨.fill 0, 0, .fill 0, .fill 0⟩
  inherit := inherit
  library := library
  abstcalls := []
  userfuncs := [⟨sign, .fill 0, 0x80, ⟨0, []⟩, ⟨0, codes⟩⟩]
  calcfuncs := []
  morextend := 0

/-- The deployment of a contract. -/
def sampleDeploy (nonce : ℕ) (contract : ContractSto) : ContractDeploy where
  protocolCost := .zero
  nonce := nonce
  constructArgv := []
  marks := .fill 0
  contract := contract

/-- The address that a nonce gives. -/
def sampleAddr (nonce : ℕ) : ContractAddress := sampleHost.calculate sampleHost.main nonce

/-- A parent with a function that ends at once. -/
def sampleParent : ContractSto := sampleContract [] [] [1, 2, 3, 4] [0xef]

/-- A child that inherits from it, links it, and calls its function. -/
def sampleChild : ContractSto :=
  sampleContract [sampleAddr 1] [sampleAddr 1] [5, 6, 7, 8]
    [0x16, 0, 1, 2, 3, 4, 0xef]

/-- The world after a successful deployment. -/
def afterDeploy (act : ContractDeploy) (w : World Unit) : World Unit :=
  (contractDeployExecute sampleHost act w).toOption.getD w

theorem afterDeploy_steps {w₀ w : World Unit} {act : ContractDeploy} {known : Set ContractSto}
    (hok : (contractDeployExecute sampleHost act w).isOk = true) (hact : act.contract ∈ known)
    (hrun : MachineSteps sampleHost.ir sampleHost.hash known w₀ w) :
    MachineSteps sampleHost.ir sampleHost.hash known w₀ (afterDeploy act w) := by
  obtain ⟨w', hw'⟩ := exists_of_isOk hok
  have loads : sampleHost.Loads := by
    intro _ _ _ _ _ _ _ _ _ hfinish a obj hlook
    cases hfinish
    exact .inl hlook
  rw [afterDeploy, hw']
  exact .deploy sampleHost act hrun rfl rfl rfl loads hact hw'

/-- The world with parent and child. -/
def sampleLinked : World Unit :=
  afterDeploy (sampleDeploy 2 sampleChild) (afterDeploy (sampleDeploy 1 sampleParent) sampleWorld)

/-- The sizes tell the two contracts apart. -/
theorem sampleEditions_injOn :
    Set.InjOn (ContractSto.calcEdition sampleHost.hash) {sampleParent, sampleChild} := by
  rintro a (rfl | rfl) b (rfl | rfl) h
  · rfl
  · exact absurd (congrArg ContractEdition.rawSize h) (by decide)
  · exact absurd (congrArg ContractEdition.rawSize h) (by decide)
  · rfl

theorem sampleLinked_steps :
    ContractSteps sampleHost.ir sampleHost.hash sampleWorld sampleLinked := by
  have hrun : MachineSteps sampleHost.ir sampleHost.hash {sampleParent, sampleChild} sampleWorld
      sampleLinked :=
    afterDeploy_steps (by decide) (.inr rfl) (afterDeploy_steps (by decide) (.inl rfl) (.refl _))
  refine (hrun.contractSteps sampleEditions_injOn ?_).1
  refine ⟨storeInv_empty _ _, fun _ _ => rfl, nofun, fun a obj hlook => ?_⟩
  have hnone : sampleWorld.warm.contracts.lookup a = none := AList.lookup_empty a
  rw [hnone] at hlook
  cases hlook

theorem inherited_code_immutable_sample :
    sampleLinked.contracts.contract (sampleAddr 2) = some sampleChild ∧
    ∀ p ∈ sampleChild.inherit, p ≠ sampleAddr 2 ∧
      ∃ psto, sampleLinked.contracts.contract p = some psto ∧ psto.inherit = [] ∧
        psto.haveAbstCall .change = false ∧ psto.haveAbstCall .append = false ∧
        ∀ w', ContractSteps sampleHost.ir sampleHost.hash sampleLinked w' →
          w'.contracts.contract p = some psto :=
  have hc : sampleLinked.contracts.contract (sampleAddr 2) = some sampleChild := by
    decide +kernel
  ⟨hc, (inherited_code_immutable rfl sampleLinked_steps hc).2⟩

/-- A call that does not name `this` is anchored by the code owner and its libraries alone. -/
theorem resolveAnchor_of_owner {call : CallSpec} (hthis : call.anchorSemantics.1 ≠ .stateThis)
    {b : FrameBindings} {c : ContractAddress} (howner : b.codeContract = some c) :
    call.resolveAnchor b = call.resolveAnchorFrom (some c) (some c) b.libTable := by
  rw [resolveAnchor, resolveAnchorFrom, resolveAnchorFrom, howner]
  cases hsem : call.anchorSemantics.1 with
  | stateThis => exact absurd hsem hthis
  | codeOwner | lib i => rfl

theorem candidatesIn_stored {ir : IrCompiler} {h : VmHash} {store : ContractStore}
    (inv : StoreInv ir h store) {call : CallSpec} {anchor : ContractAddress} {sto : ContractSto}
    (hsto : store.contract anchor = some sto) :
    ∀ o ∈ candidatesIn store call anchor, ∃ s, store.contract o = some s := by
  intro o ho
  have hparent : o ∈ sto.inherit → ∃ s, store.contract o = some s := fun hmem => by
    obtain ⟨-, s, hs, -⟩ := (inv.linked anchor sto hsto).parents o hmem
    exact ⟨s, hs⟩
  rw [candidatesIn, hsto, Option.elim_some, resolveCandidates] at ho
  cases hset : call.anchorSemantics.2 with
  | anchorOnly =>
    simp only [hset, mem_singleton] at ho
    exact ⟨sto, ho ▸ hsto⟩
  | parentsOnly =>
    simp only [hset] at ho
    exact hparent ho
  | anchorAndParents =>
    simp only [hset, mem_cons] at ho
    rcases ho with rfl | ho
    · exact ⟨sto, hsto⟩
    · exact hparent ho

/-- **Link-time soundness.** After any deployments and updates, a call site of stored code that does
not name `this` resolves when it is executed: to a function that a stored contract declares under
the selector, or to an error of gas, of the limit on loaded contracts or of visibility. -/
theorem call_sites_resolve {L : Type} {ir : IrCompiler} {h : VmHash} {w₀ w : World L}
    (hempty : w₀.contracts = .empty) (hrun : ContractSteps ir h w₀ w) {c : ContractAddress}
    {sto : ContractSto} (hc : w.contracts.contract c = some sto) {codes : List UInt8}
    (hcode : sto.HasCode ir codes) {call : CallSpec} (hsite : CallSite codes call)
    (hthis : ∀ effect selector, call ≠ .invoke .this effect selector) (g : RunGas) (cap : RunCap)
    {b : FrameBindings} (howner : b.codeContract = some c)
    (hlib : b.libTable = sto.library.map (·.val)) {warm : WarmState}
    (hco : Coherent h w.contracts warm) :
    match planUserCall g cap h w.contracts call b warm with
    | .ok plan _ => ∃ anchor owner osto f,
        ResolvesTo w.contracts call b plan anchor owner osto f
    | .error e _ => e.code = .outOfLoadContract ∨ e.code = .outOfGas ∨ e.code = .gasError ∨
        e.code = .callNotExternal := by
  have inv : StoreInv ir h w.contracts := (hrun.kept (hempty ▸ storeInv_empty ir h)).1
  obtain ⟨anchor, hanchor, ⟨s, hs⟩, hdecl⟩ := (inv.linked c sto hc).calls codes hcode call hsite
  have hsem : call.anchorSemantics.1 ≠ .stateThis := by
    match call, hthis with
    | .invoke .this effect selector, hthis => exact absurd rfl (hthis effect selector)
    | .invoke .self_ _ _, _ => exact nofun
    | .invoke .upper _ _, _ => exact nofun
    | .invoke .super _ _, _ => exact nofun
    | .invoke (.ext _) _ _, _ => exact nofun
    | .invoke (.use _) _ _, _ => exact nofun
    | .splice _ _, _ => exact nofun
  have hres : call.resolveAnchor b = .ok anchor := by
    rw [resolveAnchor_of_owner hsem howner, hlib]
    exact hanchor
  have hends : Ends (fun plan _ => ∃ owner osto f,
        ResolvesTo w.contracts call b plan anchor owner osto f) (fun e _ => CallErr e)
      (planUserCall g cap h w.contracts call b) warm :=
    planUserCall_ends inv.ok hco hres ⟨s, hs⟩ (candidatesIn_stored inv hs) hdecl
  rw [Ends] at hends
  revert hends
  cases planUserCall g cap h w.contracts call b warm with
  | ok plan warm' => exact fun hplan => ⟨anchor, hplan⟩
  | error e warm' =>
    rintro ((he | he | he) | he)
    · exact .inl he
    · exact .inr (.inl he)
    · exact .inr (.inr (.inl he))
    · exact .inr (.inr (.inr he))

/-- The call in the child's function, from a frame that runs it, with gas for two contracts: it runs
the function of the parent. -/
theorem call_sites_resolve_sample :
    ∃ plan warm anchor owner osto f,
      planUserCall (.new 0 0 0) .new sampleHost.hash sampleLinked.contracts
          (.invoke (.use 0) .view [1, 2, 3, 4])
          (.contract (sampleAddr 2) (sampleAddr 2) (sampleChild.library.map (·.val)))
          ⟨∅, ⟨.zero, ⟨true, 1000, 0, 0, .zero⟩⟩⟩ = .ok plan warm ∧
        plan.fnobj.codes = [0xef] ∧
        ResolvesTo sampleLinked.contracts (.invoke (.use 0) .view [1, 2, 3, 4])
          (.contract (sampleAddr 2) (sampleAddr 2) (sampleChild.library.map (·.val)))
          plan anchor owner osto f := by
  have hc : sampleLinked.contracts.contract (sampleAddr 2) = some sampleChild := by
    decide +kernel
  have hcode : sampleChild.HasCode sampleHost.ir [0x16, 0, 1, 2, 3, 4, 0xef] :=
    .inl ⟨_, mem_singleton.mpr rfl, rfl⟩
  have hsite : CallSite [0x16, 0, 1, 2, 3, 4, 0xef] (.invoke (.use 0) .view [1, 2, 3, 4]) :=
    ⟨0, .CALLUSEVIEW, .refl, by decide, rfl, rfl, rfl⟩
  have hco : Coherent sampleHost.hash sampleLinked.contracts
    ⟨∅, ⟨.zero, ⟨true, 1000, 0, 0, .zero⟩⟩⟩ := coherent_empty
  have hresolve := call_sites_resolve rfl sampleLinked_steps hc hcode hsite nofun (.new 0 0 0) .new
    (b := .contract (sampleAddr 2) (sampleAddr 2) (sampleChild.library.map (·.val))) rfl rfl hco
  obtain ⟨plan, warm, hplan, hcodes⟩ : ∃ plan warm,
      planUserCall (.new 0 0 0) .new sampleHost.hash sampleLinked.contracts
          (.invoke (.use 0) .view [1, 2, 3, 4])
          (.contract (sampleAddr 2) (sampleAddr 2) (sampleChild.library.map (·.val)))
          ⟨∅, ⟨.zero, ⟨true, 1000, 0, 0, .zero⟩⟩⟩ = .ok plan warm ∧ plan.fnobj.codes = [0xef] :=
    ⟨_, _, rfl, rfl⟩
  rw [hplan] at hresolve
  obtain ⟨anchor, owner, osto, f, hres⟩ := hresolve
  exact ⟨plan, warm, anchor, owner, osto, f, hplan, hcodes, hres⟩

end Vm

end Hacash
