import Hacash.Field.Wire
import Hacash.Vm.Verify
import Mathlib.Data.List.Dedup

/-!
# Stored contracts (`vm::contract`, mod.rs; `vm::rt`: code_stuff.rs, function.rs)

A contract changes only by an edit, which leaves the inherit list as it is and removes no function
(`EditedTo`).
-/

namespace Hacash

open Lib List Function

/-- `is_zero`: bytes that are all zero. -/
def Fixed.isZero {n : ℕ} (b : Fixed n) : Bool := b.bytes.all (· == 0)

namespace Vm

/-! ## Code (code.rs, code_stuff.rs, function.rs) -/

/-- `CodeType`. -/
inductive CodeType where
  | bytecode | irNode
  deriving DecidableEq

/-- `CodeStuff`. -/
structure CodeStuff where
  conf : UInt8
  data : List UInt8
  deriving DecidableEq

namespace CodeStuff

/-- `CodePkg::try_from` and `code_type`. The six upper bits of the configuration are reserved. -/
def codeType (c : CodeStuff) : VmrtRes CodeType := do
  check (c.conf.toNat < 4) .codeTypeError
  match c.conf.toNat with
  | 0 => return .bytecode
  | 1 => return .irNode
  | _ => .error ⟨.codeTypeError, "code type not found"⟩

def encode (c : CodeStuff) : List UInt8 := c.conf :: (beBytes 2 c.data.length ++ c.data)

end CodeStuff

/-- `FuncArgvTypes`: output type and number of inputs, and the types of the inputs. -/
structure FuncArgvTypes where
  typnum : UInt8
  define : List UInt8
  deriving DecidableEq

namespace FuncArgvTypes

def paramCount (f : FuncArgvTypes) : ℕ := f.typnum.toNat % 16

def defSize (f : FuncArgvTypes) : ℕ := (f.paramCount + 1) / 2

def encode (f : FuncArgvTypes) : List UInt8 :=
  f.typnum :: (f.define.take f.defSize
    ++ List.replicate (f.defSize - f.define.length) 0)

end FuncArgvTypes

/-- `FnObj`. The compiled form is a function of the code and is not kept. -/
structure FnObj where
  confs : UInt8
  agvty : Option FuncArgvTypes
  ctype : CodeType
  codes : List UInt8
  deriving DecidableEq

/-- `check_conf(FnConf::External)`. -/
def FnObj.isExternal (f : FnObj) : Bool := f.confs &&& 0x80 == 0x80

/-- `runtime_irs_to_exec_bytecodes`: what an intermediate tree is compiled to. -/
abbrev IrCompiler : Type := List UInt8 → VmrtRes (List UInt8)

/-- The bytecode of a code of either type. -/
def toBytecodes (ir : IrCompiler) : CodeType → List UInt8 → VmrtRes (List UInt8)
  | .bytecode, codes => .ok codes
  | .irNode, codes => ir codes

/-- The bytecode that the code of a stored function runs as. -/
def CodeStuff.bytecodes (ir : IrCompiler) (c : CodeStuff) : VmrtRes (List UInt8) := do
  toBytecodes ir (← c.codeType) c.data

/-- `AbstCall`: the hooks of a contract. -/
inductive AbstCall where
  | construct | change | append | deferred
  | permitHAC | permitSAT | permitHACD | permitAsset
  | payableHAC | payableSAT | payableHACD | payableAsset
  deriving DecidableEq

namespace AbstCall

def uint : AbstCall → UInt8
  | .construct => 0
  | .change => 1
  | .append => 2
  | .deferred => 50
  | .permitHAC => 55
  | .permitSAT => 56
  | .permitHACD => 57
  | .permitAsset => 58
  | .payableHAC => 65
  | .payableSAT => 66
  | .payableHACD => 67
  | .payableAsset => 68

/-- All hooks. -/
def all : List AbstCall :=
  [.construct, .change, .append, .deferred, .permitHAC, .permitSAT, .permitHACD, .permitAsset,
    .payableHAC, .payableSAT, .payableHACD, .payableAsset]

def tryFromU8 (n : UInt8) : VmrtRes AbstCall :=
  match all.find? fun a => a.uint == n with
  | some a => .ok a
  | none => .error ⟨.abstTypeError, "AbstCall type not found"⟩

theorem uint_injective : Function.Injective uint := by
  intro a b h
  cases a <;> cases b <;> first | rfl | exact absurd h (by decide)

theorem tryFromU8_eq_ok {n : UInt8} {a : AbstCall} : tryFromU8 n = .ok a ↔ a.uint = n := by
  rw [tryFromU8]
  constructor
  · intro h
    cases hfind : all.find? fun a => a.uint == n with
    | none => rw [hfind] at h; cases h
    | some b =>
      rw [hfind] at h
      cases h
      exact beq_iff_eq.mp (@List.find?_some _ (fun a : AbstCall => a.uint == n) _ _ hfind)
  · rintro rfl
    cases a <;> rfl

end AbstCall

open AbstCall

/-! ## Records (mod.rs:31–90) -/

/-- `ContractMeta`. -/
structure ContractMeta where
  vrsn : Fixed 1
  revision : ℕ
  mark : Fixed 3
  mext : Fixed 4
  deriving DecidableEq

/-- `ContractAbstCall`. -/
structure ContractAbstCall where
  sign : UInt8
  mark : Fixed 2
  fncnf : UInt8
  codeStuff : CodeStuff
  deriving DecidableEq

/-- `ContractUserFunc`. -/
structure ContractUserFunc where
  sign : FnSign
  mark : Fixed 3
  fncnf : UInt8
  pmdf : FuncArgvTypes
  codeStuff : CodeStuff
  deriving DecidableEq

/-- `ContractCalcFunc`. -/
structure ContractCalcFunc where
  sign : Fixed 4
  mark : Fixed 1
  fncnf : UInt8
  codeStuff : CodeStuff
  deriving DecidableEq

/-- `ContractAddrReplaceAt`. -/
structure ContractAddrReplaceAt where
  idx : ℕ
  addr : ContractAddress
  deriving DecidableEq

/-- `ContractEdit`. -/
structure ContractEdit where
  newRevision : ℕ
  inheritAdd : List ContractAddress
  inheritReplaceAt : List ContractAddrReplaceAt
  libraryAdd : List ContractAddress
  libraryReplaceAt : List ContractAddrReplaceAt
  abstcalls : List ContractAbstCall
  userfuncs : List ContractUserFunc
  calcfuncs : List ContractCalcFunc
  deriving DecidableEq

/-- `ContractSto`. -/
structure ContractSto where
  metas : ContractMeta
  inherit : List ContractAddress
  library : List ContractAddress
  abstcalls : List ContractAbstCall
  userfuncs : List ContractUserFunc
  calcfuncs : List ContractCalcFunc
  morextend : ℕ
  deriving DecidableEq

open ContractSto

/-- `ContractEdition`: what tells one stored form of a contract from another. -/
structure ContractEdition where
  revision : ℕ
  rawSize : ℕ
  hash : Hash
  deriving DecidableEq

/-- `ContractObj`: the loaded form, of which the lists of linked contracts are read. -/
structure ContractObj where
  inherit : List ContractAddress
  library : List ContractAddress
  abstfns : AbstCall → Option FnObj
  userfns : FnSign → Option FnObj
  edition : ContractEdition

/-- The limits of `SpaceCap` on contracts. -/
structure ContractCap extends RunCap where
  contractSize : ℕ
  functionSize : ℕ
  inherit : ℕ
  library : ℕ

/-- `SpaceCap::new`, the same at every height. -/
def ContractCap.new : ContractCap where
  toRunCap := RunCap.new
  contractSize := 65535
  functionSize := 16383
  inherit := 12
  library := 64

/-! ## Encoding -/

/-- A list under a count of `w` bytes. -/
def encodeListW {α : Type} (w : ℕ) (encode : α → List UInt8) (l : List α) : List UInt8 :=
  beBytes w l.length ++ l.flatMap encode

def ContractMeta.encode (m : ContractMeta) : List UInt8 :=
  m.vrsn.bytes ++ beBytes 2 m.revision ++ m.mark.bytes ++ m.mext.bytes

def ContractAbstCall.encode (a : ContractAbstCall) : List UInt8 :=
  a.sign :: (a.mark.bytes ++ a.fncnf :: a.codeStuff.encode)

def ContractUserFunc.encode (f : ContractUserFunc) : List UInt8 :=
  f.sign ++ f.mark.bytes ++ f.fncnf :: (f.pmdf.encode ++ f.codeStuff.encode)

def ContractCalcFunc.encode (f : ContractCalcFunc) : List UInt8 :=
  f.sign.bytes ++ f.mark.bytes ++ f.fncnf :: f.codeStuff.encode

/-- The functions of a contract by selector; of two declarations the later is kept. -/
def fnTable {α κ : Type} [DecidableEq κ] (entry : α → VmrtRes (κ × FnObj)) (l : List α) :
    VmrtRes (κ → Option FnObj) :=
  l.foldlM (fun fns a => do
    let (k, f) ← entry a
    return update fns k (some f)) (fun _ => none)

namespace ContractSto

def encode (s : ContractSto) : List UInt8 :=
  s.metas.encode ++ encodeListW 1 (fun a => a.val.bytes) s.inherit
    ++ encodeListW 1 (fun a => a.val.bytes) s.library
    ++ encodeListW 1 ContractAbstCall.encode s.abstcalls
    ++ encodeListW 2 ContractUserFunc.encode s.userfuncs
    ++ encodeListW 2 ContractCalcFunc.encode s.calcfuncs ++ beBytes 8 s.morextend

def calcEdition (h : VmHash) (s : ContractSto) : ContractEdition where
  revision := s.metas.revision
  rawSize := s.encode.length % 2 ^ 32
  hash := h.sha3 s.encode

def haveAbstCall (s : ContractSto) (ac : AbstCall) : Bool :=
  s.abstcalls.any fun a => ac.uint == a.sign

/-- The entry of a hook in the table. -/
def abstEntry (a : ContractAbstCall) : VmrtRes (AbstCall × FnObj) := do
  let ctype ← a.codeStuff.codeType
  let cty ← tryFromU8 a.sign
  return (cty, ⟨a.fncnf, none, ctype, a.codeStuff.data⟩)

/-- The entry of a function in the table. -/
def userEntry (f : ContractUserFunc) : VmrtRes (FnSign × FnObj) := do
  let ctype ← f.codeStuff.codeType
  return (f.sign, ⟨f.fncnf, some f.pmdf, ctype, f.codeStuff.data⟩)

def intoObj (h : VmHash) (s : ContractSto) : VmrtRes ContractObj := do
  let abstfns ← fnTable abstEntry s.abstcalls
  let userfns ← fnTable userEntry s.userfuncs
  return { inherit := s.inherit, library := s.library, abstfns, userfns
           edition := s.calcEdition h }

end ContractSto

/-! ## Checks and edits (mod.rs:140–524) -/

section

variable (ir : IrCompiler) (cap : ContractCap) (registry : HostRegistry)

def convertAndCheck (ctype : CodeType) (codes : List UInt8) : VmrtRes (List ℕ) := do
  let bytecodes ← toBytecodes ir ctype codes
  check (bytecodes.length ≤ cap.functionSize) .codeTooLong
  verifyBytecodesForCap bytecodes cap.valueSize registry

def verifyCodeStuff (c : CodeStuff) : VmrtRes Unit := do
  let _ ← convertAndCheck ir cap registry (← c.codeType) c.data

def ContractMeta.check (m : ContractMeta) : VmrtRes Unit :=
  Vm.check (m.vrsn.isZero = true ∧ m.mark.isZero = true ∧ m.mext.isZero = true)
    .contractError "contract format invalid"

/-- The check of a hook: `ContractAbstCall::check`, `AbstCall::check` and its code. -/
def ContractAbstCall.check (a : ContractAbstCall) : VmrtRes Unit := do
  Vm.check (a.mark.isZero = true ∧ a.fncnf = 0) .contractError
    "contract ContractAbstCall format invalid"
  let _ ← tryFromU8 a.sign
  verifyCodeStuff ir cap registry a.codeStuff

/-- The check of a function: `ContractUserFunc::check` and its code. -/
def ContractUserFunc.check (f : ContractUserFunc) : VmrtRes Unit := do
  Vm.check (f.mark.isZero = true) .contractError "contract ContractUserFunc format invalid"
  Vm.check (f.fncnf &&& 0x7f = 0) .contractError "contract ContractUserFunc format invalid"
  verifyCodeStuff ir cap registry f.codeStuff

def ContractSto.check (s : ContractSto) : VmrtRes Unit := do
  s.metas.check
  Vm.check (s.morextend = 0) .contractError "morextend reserved, must be zero"
  Vm.check (s.calcfuncs = []) .contractError "calcfunc not enabled yet"
  Vm.check (s.encode.length ≤ cap.contractSize) .contractError "contract size overflow"
  Vm.check (s.inherit.length ≤ cap.inherit) .inheritError "inherit number overflow"
  Vm.check (s.library.length ≤ cap.library) .libraryError "library link number overflow"
  Vm.check s.inherit.Nodup .inheritError "inherit already exists"
  Vm.check s.library.Nodup .libraryError "library already exists"
  Vm.check (s.abstcalls.map (·.sign)).Nodup .contractError "abstcall sign already exists"
  s.abstcalls.forM (ContractAbstCall.check ir cap registry)
  Vm.check (s.userfuncs.map (·.sign)).Nodup .contractError "userfunc sign already exists"
  s.userfuncs.forM (ContractUserFunc.check ir cap registry)

/-- The replacements of an edit in a list of linked contracts of length `len`. -/
def applyReplaceAt (err : ItrErrCode) (tag : String) (len : ℕ) :
    List ContractAddrReplaceAt → List ℕ → List ContractAddress → VmrtRes (List ContractAddress)
  | [], _, list => .ok list
  | r :: rs, idxs, list => do
    check (r.idx ∉ idxs) err (tag ++ " replace index already exists")
    check (r.idx < len) err (tag ++ " replace index overflow")
    check (r.idx < list.length) err
    applyReplaceAt err tag len rs (r.idx :: idxs) (list.set r.idx r.addr)

/-- Replace the first function with the selector of `func`. -/
def replaceSign {α β : Type} [DecidableEq β] (sign : α → β) (func : α) : List α → Option (List α)
  | [] => none
  | x :: xs =>
    if sign x = sign func then some (func :: xs) else (replaceSign sign func xs).map (x :: ·)

/-- `merge_abst_funcs` and `merge_user_funcs`: a known selector is replaced, as the flag says. -/
def mergeFuncs {α β : Type} [DecidableEq β] (sign : α → β) (maxLen : ℕ) (dst : List α) :
    List α → VmrtRes (List α × Bool)
  | [] => .ok (dst, false)
  | func :: src =>
    match replaceSign sign func dst with
    | some dst => do
      let (dst, _) ← mergeFuncs sign maxLen dst src
      return (dst, true)
    | none => do
      check (dst.length + 1 ≤ maxLen) .contractUpgradeErr
      mergeFuncs sign maxLen (dst ++ [func]) src

def mergeAbstFuncs : List ContractAbstCall → List ContractAbstCall →
    VmrtRes (List ContractAbstCall × Bool) :=
  mergeFuncs (·.sign) 255

def mergeUserFuncs : List ContractUserFunc → List ContractUserFunc →
    VmrtRes (List ContractUserFunc × Bool) :=
  mergeFuncs (·.sign) 65535

/-- The selectors of the hooks of an edit. -/
def checkEditAbstSigns : List ContractAbstCall → List UInt8 → VmrtRes Unit
  | [], _ => .ok ()
  | a :: rest, seen => do
    check (a.sign ≠ construct.uint) .contractUpgradeErr
      "contract update cannot carry Construct abstcall"
    check (a.sign ∉ seen) .contractUpgradeErr "abstcall sign already exists in edit"
    checkEditAbstSigns rest (a.sign :: seen)

namespace ContractEdit

/-- The test of `apply_edit` for an edit that says nothing. -/
def isEmpty (e : ContractEdit) : Bool :=
  e.inheritAdd.isEmpty && e.inheritReplaceAt.isEmpty && e.libraryAdd.isEmpty
    && e.libraryReplaceAt.isEmpty && e.abstcalls.isEmpty && e.userfuncs.isEmpty
    && e.calcfuncs.isEmpty

end ContractEdit

/-- `apply_edit`, on a copy, and whether something was replaced. The inherit list is not edited. -/
def ContractSto.applyEdit (s : ContractSto) (edit : ContractEdit) :
    VmrtRes (ContractSto × Bool) := do
  Vm.check (s.metas.revision + 1 ≤ 65535) .contractError "contract revision overflow"
  Vm.check (edit.newRevision = s.metas.revision + 1) .contractError "contract revision mismatch"
  Vm.check (edit.inheritAdd = [] ∧ edit.inheritReplaceAt = []) .inheritError
    "contract inherit cannot be changed after deployment"
  Vm.check (edit.isEmpty = false) .contractError "contract edit is empty"
  Vm.check (edit.calcfuncs = []) .contractError "calcfunc not enabled yet"
  let inherit ← applyReplaceAt .inheritError "inherit" s.inherit.length
    edit.inheritReplaceAt [] s.inherit
  let library ← applyReplaceAt .libraryError "library" s.library.length
    edit.libraryReplaceAt [] s.library
  Vm.check (inherit.length + edit.inheritAdd.length ≤ cap.inherit) .inheritError
    "inherit number overflow"
  Vm.check (library.length + edit.libraryAdd.length ≤ cap.library) .libraryError
    "library link number overflow"
  checkEditAbstSigns edit.abstcalls []
  edit.abstcalls.forM (ContractAbstCall.check ir cap registry)
  let (abstcalls, _) ← mergeAbstFuncs s.abstcalls edit.abstcalls
  Vm.check (edit.userfuncs.map (·.sign)).Nodup .contractUpgradeErr
    "userfunc sign already exists in edit"
  edit.userfuncs.forM (ContractUserFunc.check ir cap registry)
  let (userfuncs, replaced) ← mergeUserFuncs s.userfuncs edit.userfuncs
  let new : ContractSto :=
    { s with
      metas := { s.metas with revision := s.metas.revision + 1 }
      inherit := inherit ++ edit.inheritAdd
      library := library ++ edit.libraryAdd
      abstcalls, userfuncs }
  new.check ir cap registry
  return (new, !edit.libraryReplaceAt.isEmpty || !edit.abstcalls.isEmpty || replaced)

end

/-! ## Tables of functions -/

section

variable {α κ : Type} [DecidableEq κ] {entry : α → VmrtRes (κ × FnObj)}

theorem foldTable_isSome {k : κ} : ∀ {l : List α} {acc fns : κ → Option FnObj},
    l.foldlM (fun fns a => do
      let (k, f) ← entry a
      return update fns k (some f)) acc = .ok fns →
    ((fns k).isSome ↔ (acc k).isSome ∨ ∃ a ∈ l, ∃ f, entry a = .ok (k, f))
  | [], acc, fns, h => by
    cases h
    simp only [not_mem_nil, false_and, exists_false, or_false]
  | a :: l, acc, fns, h => by
    obtain ⟨mid, hmid, h⟩ := bind_eq_ok h
    obtain ⟨⟨k', f⟩, hentry, hmid⟩ := bind_eq_ok hmid
    cases hmid
    rw [foldTable_isSome h, exists_mem_cons_iff, hentry]
    by_cases hk : k = k'
    · subst hk
      simp only [update_self, Option.isSome_some, true_or, Except.ok.injEq,
        Prod.mk.injEq, true_and, exists_eq', or_true]
    · simp only [update_of_ne hk, Except.ok.injEq, Prod.mk.injEq, Ne.symm hk,
        false_and, exists_false, false_or]

theorem fnTable_isSome {l : List α} {fns : κ → Option FnObj} (h : fnTable entry l = .ok fns)
    (k : κ) : (fns k).isSome ↔ ∃ a ∈ l, ∃ f, entry a = .ok (k, f) := by
  rw [foldTable_isSome h]
  simp only [Option.isSome_none, Bool.false_eq_true, false_or]

/-- What is found in a table is the entry of a declaration. -/
theorem foldTable_mem {k : κ} {f : FnObj} : ∀ {l : List α} {acc fns : κ → Option FnObj},
    l.foldlM (fun fns a => do
      let (k, f) ← entry a
      return update fns k (some f)) acc = .ok fns →
    fns k = some f → acc k = some f ∨ ∃ a ∈ l, entry a = .ok (k, f)
  | [], acc, fns, h, hk => by
    cases h
    exact .inl hk
  | a :: l, acc, fns, h, hk => by
    obtain ⟨mid, hmid, h⟩ := bind_eq_ok h
    obtain ⟨⟨k', f'⟩, hentry, hmid⟩ := bind_eq_ok hmid
    cases hmid
    rcases foldTable_mem h hk with hacc | ⟨b, hb, hbk⟩
    · by_cases hkk : k = k'
      · subst hkk
        rw [update_self] at hacc
        cases hacc
        exact .inr ⟨a, mem_cons_self, hentry⟩
      · rw [update_of_ne hkk] at hacc
        exact .inl hacc
    · exact .inr ⟨b, mem_cons_of_mem _ hb, hbk⟩

theorem foldTable_entry : ∀ {l : List α} {acc fns : κ → Option FnObj},
    l.foldlM (fun fns a => do
      let (k, f) ← entry a
      return update fns k (some f)) acc = .ok fns →
    ∀ a ∈ l, ∃ e, entry a = .ok e
  | [], _, _, _ => nofun
  | a :: l, acc, fns, h => by
    obtain ⟨mid, hmid, h⟩ := bind_eq_ok h
    obtain ⟨e, hentry, -⟩ := bind_eq_ok hmid
    exact forall_mem_cons.mpr ⟨⟨e, hentry⟩, foldTable_entry h⟩

theorem foldTable_ok : ∀ {l : List α} (acc : κ → Option FnObj),
    (∀ a ∈ l, ∃ e, entry a = .ok e) → ∃ fns, l.foldlM (fun fns a => do
      let (k, f) ← entry a
      return update fns k (some f)) acc = .ok fns
  | [], acc, _ => ⟨acc, rfl⟩
  | a :: l, acc, h => by
    obtain ⟨⟨k, f⟩, hentry⟩ := h a mem_cons_self
    obtain ⟨fns, hfns⟩ := foldTable_ok (update acc k (some f))
      fun b hb => h b (mem_cons_of_mem _ hb)
    refine ⟨fns, ?_⟩
    rw [foldlM_cons, hentry]
    exact hfns

end

/-! ## What checks and edits leave -/

section

variable {ir : IrCompiler} {cap : ContractCap} {registry : HostRegistry} {h : VmHash}

/-- What `check` says of the functions of a contract. -/
structure ContractSto.Checked (ir : IrCompiler) (cap : ContractCap) (registry : HostRegistry)
    (s : ContractSto) : Prop where
  abstcalls : ∀ a ∈ s.abstcalls, a.check ir cap registry = .ok ()
  userfuncs : ∀ f ∈ s.userfuncs, f.check ir cap registry = .ok ()

theorem ContractSto.checked_of_check {s : ContractSto} {u : Unit}
    (hs : s.check ir cap registry = .ok u) : s.Checked ir cap registry := by
  obtain ⟨_, -, hs⟩ := bind_eq_ok hs
  -- the tests on the record itself, in the order of the source
  replace hs := check_drop hs
  replace hs := check_drop hs
  replace hs := check_drop hs
  replace hs := check_drop hs
  replace hs := check_drop hs
  replace hs := check_drop hs
  replace hs := check_drop hs
  replace hs := check_drop hs
  obtain ⟨_, habst, hs⟩ := bind_eq_ok hs
  replace hs := check_drop hs
  exact ⟨forM_eq_ok.mp habst, forM_eq_ok.mp hs⟩

theorem codeType_of_verify {c : CodeStuff} {u : Unit}
    (hc : verifyCodeStuff ir cap registry c = .ok u) : ∃ ctype, c.codeType = .ok ctype := by
  obtain ⟨ctype, hctype, -⟩ := bind_eq_ok hc
  exact ⟨ctype, hctype⟩

theorem abstEntry_of_check {a : ContractAbstCall} (ha : a.check ir cap registry = .ok ()) :
    ∃ e, abstEntry a = .ok e := by
  replace ha := check_drop ha
  obtain ⟨cty, hcty, ha⟩ := bind_eq_ok ha
  obtain ⟨ctype, hctype⟩ := codeType_of_verify ha
  refine ⟨(cty, ⟨a.fncnf, none, ctype, a.codeStuff.data⟩), ?_⟩
  rw [abstEntry, hctype, ok_bind, hcty]
  rfl

theorem userEntry_of_check {f : ContractUserFunc} (hf : f.check ir cap registry = .ok ()) :
    ∃ o, userEntry f = .ok (f.sign, o) := by
  replace hf := check_drop hf
  replace hf := check_drop hf
  obtain ⟨ctype, hctype⟩ := codeType_of_verify hf
  refine ⟨⟨f.fncnf, some f.pmdf, ctype, f.codeStuff.data⟩, ?_⟩
  rw [userEntry, hctype]
  rfl

/-- The loaded form of a stored contract. -/
structure ContractSto.LoadsAs (h : VmHash) (s : ContractSto) (obj : ContractObj) : Prop where
  inherit : obj.inherit = s.inherit
  library : obj.library = s.library
  edition : obj.edition = s.calcEdition h
  abstfns : ∀ ac, (obj.abstfns ac).isSome = s.haveAbstCall ac
  userfns : ∀ sign, (obj.userfns sign).isSome ↔ sign ∈ s.userfuncs.map (·.sign)
  userfn : ∀ sign o, obj.userfns sign = some o →
    ∃ f ∈ s.userfuncs, f.sign = sign ∧ userEntry f = .ok (sign, o)

theorem ContractSto.loadsAs_of_intoObj {s : ContractSto} {obj : ContractObj}
    (hobj : s.intoObj h = .ok obj) : s.LoadsAs h obj := by
  obtain ⟨abstfns, habst, hobj⟩ := bind_eq_ok hobj
  obtain ⟨userfns, huser, hobj⟩ := bind_eq_ok hobj
  cases hobj
  refine ⟨rfl, rfl, rfl, fun ac => ?_, fun sign => ?_, fun sign o ho => ?_⟩
  · rw [Bool.eq_iff_iff, fnTable_isSome habst, haveAbstCall, any_eq_true]
    constructor
    · rintro ⟨a, ha, f, hentry⟩
      obtain ⟨ctype, -, hentry⟩ := bind_eq_ok hentry
      obtain ⟨cty, hcty, hentry⟩ := bind_eq_ok hentry
      cases hentry
      exact ⟨a, ha, beq_iff_eq.mpr (tryFromU8_eq_ok.mp hcty)⟩
    · rintro ⟨a, ha, hsign⟩
      obtain ⟨⟨k, f⟩, hentry⟩ := foldTable_entry habst a ha
      obtain ⟨ctype, hctype, hrest⟩ := bind_eq_ok hentry
      obtain ⟨cty, hcty, hrest⟩ := bind_eq_ok hrest
      cases hrest
      have heq : k = ac := uint_injective
        ((tryFromU8_eq_ok.mp hcty).trans (beq_iff_eq.mp hsign).symm)
      exact ⟨a, ha, _, heq ▸ hentry⟩
  · rw [fnTable_isSome huser, mem_map]
    constructor
    · rintro ⟨f, hf, o, hentry⟩
      obtain ⟨ctype, -, hentry⟩ := bind_eq_ok hentry
      cases hentry
      exact ⟨f, hf, rfl⟩
    · rintro ⟨f, hf, rfl⟩
      obtain ⟨⟨k, o⟩, hentry⟩ := foldTable_entry huser f hf
      obtain ⟨ctype, hctype, hrest⟩ := bind_eq_ok hentry
      cases hrest
      exact ⟨f, hf, _, hentry⟩
  · obtain hnone | ⟨f, hf, hentry⟩ := foldTable_mem huser ho
    · cases hnone
    · refine ⟨f, hf, ?_, hentry⟩
      obtain ⟨ctype, -, hentry⟩ := bind_eq_ok hentry
      cases hentry
      rfl

/-- A checked contract loads. -/
theorem ContractSto.Checked.intoObj {s : ContractSto} (hs : s.Checked ir cap registry) :
    ∃ obj, s.intoObj h = .ok obj := by
  obtain ⟨abstfns, habst⟩ := @foldTable_ok _ _ _ abstEntry _ (fun _ => none)
    fun a ha => abstEntry_of_check (hs.abstcalls a ha)
  obtain ⟨userfns, huser⟩ := @foldTable_ok _ _ _ userEntry _ (fun _ => none)
    fun f hf => (userEntry_of_check (hs.userfuncs f hf)).elim fun o ho => ⟨_, ho⟩
  refine ⟨⟨s.inherit, s.library, abstfns, userfns, s.calcEdition h⟩, ?_⟩
  rw [ContractSto.intoObj, fnTable, fnTable, habst, ok_bind, huser]
  rfl

section

variable {α β : Type} [DecidableEq β] {sign : α → β}

theorem replaceSign_signs {func : α} : ∀ {l out : List α},
    replaceSign sign func l = some out → out.map sign = l.map sign
  | [], _, hrep => by cases hrep
  | x :: xs, out, hrep => by
    rw [replaceSign] at hrep
    split_ifs at hrep with hsign
    · cases hrep
      rw [map_cons, map_cons, hsign]
    · obtain ⟨rest, hrest, rfl⟩ := Option.map_eq_some_iff.mp hrep
      rw [map_cons, map_cons, replaceSign_signs hrest]

/-- A merge keeps every selector. -/
theorem mergeFuncs_signs {maxLen : ℕ} : ∀ {src dst out : List α} {replaced : Bool},
    mergeFuncs sign maxLen dst src = .ok (out, replaced) →
    ∀ k ∈ dst.map sign, k ∈ out.map sign
  | [], dst, out, replaced, hmerge, k, hk => by
    cases hmerge
    exact hk
  | func :: src, dst, out, replaced, hmerge, k, hk => by
    rw [mergeFuncs] at hmerge
    cases hrep : replaceSign sign func dst with
    | some dst' =>
      simp only [hrep] at hmerge
      obtain ⟨⟨out', _⟩, hrest, hout⟩ := bind_eq_ok hmerge
      cases hout
      exact mergeFuncs_signs hrest k (by rw [replaceSign_signs hrep]; exact hk)
    | none =>
      simp only [hrep] at hmerge
      replace hmerge := check_drop hmerge
      refine mergeFuncs_signs hmerge k ?_
      rw [map_append]
      exact mem_append_left _ hk

end

/-- What an edit does to a contract. -/
structure ContractSto.EditedTo (ir : IrCompiler) (cap : ContractCap) (registry : HostRegistry)
    (s new : ContractSto) : Prop where
  inherit : new.inherit = s.inherit
  userfuncs : ∀ sign ∈ s.userfuncs.map (·.sign), sign ∈ new.userfuncs.map (·.sign)
  checked : new.Checked ir cap registry

theorem ContractSto.editedTo_of_applyEdit {s new : ContractSto} {edit : ContractEdit}
    {changed : Bool} (hedit : s.applyEdit ir cap registry edit = .ok (new, changed)) :
    s.EditedTo ir cap registry new := by
  replace hedit := check_drop hedit
  replace hedit := check_drop hedit
  -- the inherit list is not edited, so the loop over its replacements is empty
  obtain ⟨⟨hadd, hreplace⟩, hedit⟩ := check_bind_iff.mp hedit
  replace hedit := check_drop hedit
  replace hedit := check_drop hedit
  rw [hreplace, hadd] at hedit
  obtain ⟨inherit, hinherit, hedit⟩ := bind_eq_ok hedit
  cases hinherit
  obtain ⟨library, -, hedit⟩ := bind_eq_ok hedit
  replace hedit := check_drop hedit
  replace hedit := check_drop hedit
  obtain ⟨_, -, hedit⟩ := bind_eq_ok hedit
  obtain ⟨_, -, hedit⟩ := bind_eq_ok hedit
  obtain ⟨⟨abstcalls, _⟩, -, hedit⟩ := bind_eq_ok hedit
  replace hedit := check_drop hedit
  obtain ⟨_, -, hedit⟩ := bind_eq_ok hedit
  obtain ⟨⟨userfuncs, replaced⟩, huser, hedit⟩ := bind_eq_ok hedit
  obtain ⟨_, hcheck, hedit⟩ := bind_eq_ok hedit
  cases hedit
  exact ⟨append_nil _, mergeFuncs_signs huser, checked_of_check hcheck⟩

end

end Vm

end Hacash
