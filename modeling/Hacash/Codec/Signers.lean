import Mathlib.Data.List.Destutter
import Mathlib.Data.List.Sort
import Hacash.Codec.Tx

/-!
# Signatures of type 3 transactions (`protocol::codec::tx`)

The body of a type 3 transaction determines who signs it (`deterministicSigners`). **Key result**:
`type3_signatures_exact`. `Crypto` stands for hashing and signatures.
-/

namespace Hacash

open Lib List

variable {L : Type}

/-! ## Sorted sets of addresses -/

/-- The order of addresses, that of their bytes. -/
def Address.le (a b : Address) : Prop := beValue a.bytes ≤ beValue b.bytes

instance : DecidableRel Address.le := fun a b =>
  inferInstanceAs (Decidable (beValue a.bytes ≤ beValue b.bytes))

instance : Std.Total Address.le := ⟨fun a b => Nat.le_total (beValue a.bytes) (beValue b.bytes)⟩

instance : IsTrans Address Address.le := ⟨fun _ _ _ hab hbc => Nat.le_trans hab hbc⟩

instance : Std.Antisymm Address.le where
  antisymm a b hab hba := by
    have hvalue : beValue a.bytes = beValue b.bytes := Nat.le_antisymm hab hba
    have hbytes : a.bytes = b.bytes := by
      rw [← beBytes_beValue a.bytes, ← beBytes_beValue b.bytes, hvalue, a.size, b.size]
    cases a
    cases b
    cases hbytes
    rfl

/-- `sort_addresses`: sorted, and each address once. -/
def sortAddresses (addrs : List Address) : List Address :=
  (addrs.insertionSort Address.le).destutter (· ≠ ·)

theorem sortAddresses_eq (addrs : List Address) :
    sortAddresses addrs = (addrs.insertionSort Address.le).dedup :=
  (pairwise_insertionSort Address.le addrs).destutter_eq_dedup

theorem mem_sortAddresses {addrs : List Address} {a : Address} :
    a ∈ sortAddresses addrs ↔ a ∈ addrs := by
  rw [sortAddresses_eq, mem_dedup, mem_insertionSort]

theorem sortAddresses_nodup (addrs : List Address) : (sortAddresses addrs).Nodup := by
  rw [sortAddresses_eq]
  exact nodup_dedup _

theorem sortAddresses_sorted (addrs : List Address) : (sortAddresses addrs).Pairwise Address.le :=
  (pairwise_insertionSort Address.le addrs).sublist (destutter_sublist _ _)

theorem sortAddresses_eq_iff {as bs : List Address} :
    sortAddresses as = sortAddresses bs ↔ ∀ a, a ∈ as ↔ a ∈ bs := by
  constructor
  · intro h a
    rw [← mem_sortAddresses, h, mem_sortAddresses]
  · intro h
    have hperm : (sortAddresses as).Perm (sortAddresses bs) := by
      rw [perm_ext_iff_of_nodup (sortAddresses_nodup as) (sortAddresses_nodup bs)]
      intro a
      rw [mem_sortAddresses, mem_sortAddresses, h]
    exact hperm.eq_of_pairwise (fun a b _ _ hab hba => Std.Antisymm.antisymm a b hab hba)
      (sortAddresses_sorted as) (sortAddresses_sorted bs)

theorem sortAddresses_length {addrs : List Address} (h : addrs.Nodup) :
    (sortAddresses addrs).length = addrs.length := by
  have hnodup := (perm_insertionSort Address.le addrs).nodup_iff.mpr h
  rw [sortAddresses_eq, hnodup.dedup, length_insertionSort]

/-! ## The signers a transaction asks for -/

/-- What the leaves say about signers: `req_sign`, and the list of a `RequiredSigners`. -/
structure LeafSigners (L : Type) where
  reqSign : L → List AddrOrPtr
  asRequiredSigners : L → Option (List AddrOrPtr)

/-- `RequiredSigners::KIND`. -/
def requiredSignersKind : ℕ := 0x0414

/-- `kind` of an action. -/
def ActionTree.kind (reg : Registry L) : ActionTree L → ℕ
  | .leaf act => (reg.kind act).uint
  | .select _ => astSelectKind
  | .astIf .. => astIfKind

/-- The downcast of an action to `RequiredSigners`. -/
def ActionTree.asRequiredSigners (ls : LeafSigners L) : ActionTree L → Option (List AddrOrPtr)
  | .leaf act => ls.asRequiredSigners act
  | _ => none

mutual

/-- `req_sign` of an action: `collect_ast_req_sign`, over all the leaves of the tree. -/
def ActionTree.reqSign (ls : LeafSigners L) : ActionTree L → List AddrOrPtr
  | .leaf act => ls.reqSign act
  | .select sel => collectReqSign ls sel
  | .astIf cond brIf brElse =>
    collectReqSign ls cond ++ collectReqSign ls brIf ++ collectReqSign ls brElse

def collectReqSign (ls : LeafSigners L) : AstSelect (ActionTree L) → List AddrOrPtr
  | ⟨_, _, actions⟩ => collectReqSigns ls actions

/-- The loop of `collect_req_sign`. -/
def collectReqSigns (ls : LeafSigners L) : List (ActionTree L) → List AddrOrPtr
  | [] => []
  | act :: rest => act.reqSign ls ++ collectReqSigns ls rest

end

namespace StdTransaction

def addrs (tx : StdTransaction L) : List Address := tx.addrlist.toList

/-- `main`, the first address. `AddrOrList` is neither decoded nor built from an empty list. -/
def main (tx : StdTransaction L) : Address := tx.addrs.headD (.fill 0)

/-- One turn of the inner loop of `intrinsic_req_sign`. -/
def addSigner (addrs sets : List Address) (ptr : AddrOrPtr) : Ret (List Address) := do
  let adr ← ptr.real addrs
  return if adr.isPrivkey = true ∧ adr ∉ sets then sets ++ [adr] else sets

/-- One turn of the outer loop of `intrinsic_req_sign`. -/
def addActionSigners (reg : Registry L) (ls : LeafSigners L) (addrs sets : List Address)
    (act : ActionTree L) : Ret (List Address) :=
  if act.kind reg = requiredSignersKind then .ok sets
  else (act.reqSign ls).foldlM (addSigner addrs) sets

def intrinsicReqSign (reg : Registry L) (ls : LeafSigners L) (tx : StdTransaction L) :
    Ret (List Address) :=
  tx.actions.foldlM (addActionSigners reg ls tx.addrs) [tx.main]

/-- One turn of the loop of `RequiredSigners::validate_against`. -/
def addDeclared (addrs e : List Address) (ptr : AddrOrPtr) : Ret (List Address) := do
  let adr ← ptr.real addrs
  ensure (adr.isPrivkey = true) (.fault "RequiredSigners address must be PRIVAKEY type")
  ensure (adr.isPrivkeyUnknown = false)
    (.fault "RequiredSigners address is a system address with unknown private key")
  ensure (adr ∉ e) (.fault "RequiredSigners address is duplicated")
  return e ++ [adr]

def validateAgainst (signers : List AddrOrPtr) (addrs : List Address) : Ret (List Address) := do
  ensure (signers ≠ []) (.fault "RequiredSigners cannot be empty")
  signers.foldlM (addDeclared addrs) []

/-- One turn of the loop of `declared_extra_signers`. -/
def findRequired (ls : LeafSigners L) (found : Option (List AddrOrPtr)) (act : ActionTree L) :
    Ret (Option (List AddrOrPtr)) :=
  match act.asRequiredSigners ls with
  | none => .ok found
  | some list => do
    ensure (found = none) (.fault "RequiredSigners must be TOP_GUARD_UNIQUE (duplicate found)")
    return some list

def declaredExtraSigners (ls : LeafSigners L) (tx : StdTransaction L) : Ret (List Address) := do
  let found ← tx.actions.foldlM (findRequired ls) none
  match found with
  | none => .ok []
  | some list => validateAgainst list tx.addrs

/-- `deterministic_signers`: the set `D`. -/
def deterministicSigners (reg : Registry L) (ls : LeafSigners L) (tx : StdTransaction L) :
    Ret (List Address) := do
  let d ← tx.intrinsicReqSign reg ls
  let e ← tx.declaredExtraSigners ls
  ensure (e.any (· ∈ d) = false) (.fault "RequiredSigners address overlaps intrinsic req_sign")
  return d ++ e

def deterministicSignersVec (reg : Registry L) (ls : LeafSigners L) (tx : StdTransaction L) :
    Ret (List Address) := do
  let v ← tx.deterministicSigners reg ls
  return sortAddresses v

end StdTransaction

/-! ## The signatures attached to it -/

/-- The cryptography of `sys`. -/
structure Crypto where
  calculateHash : List UInt8 → Hash
  getAddressByPublicKey : Fixed 33 → Address
  verifySignature : Hash → Fixed 33 → Fixed 64 → Bool

def Crypto.signAddress (cr : Crypto) (sign : Sign) : Address :=
  cr.getAddressByPublicKey sign.publickey

namespace StdTransaction

/-- `hash_ex`: the hash of the body, with the given bytes in place of the fee. -/
def hashEx (cr : Crypto) (reg : Registry L) (tx : StdTransaction L) (feeBytes : List UInt8) :
    Hash :=
  cr.calculateHash (tx.ty.encode ++ tx.timestamp.encode ++ tx.addrlist.encode ++ feeBytes
    ++ encodeActionList reg tx.actions
    ++ if tx.ty.uint = 3 then tx.gasMax.encode ++ tx.anoMark.bytes else [])

/-- `sign_hash_for`: what a signer signs. -/
def signHashFor (cr : Crypto) (reg : Registry L) (tx : StdTransaction L) (adr : Address) : Hash :=
  if adr = tx.main ∧ tx.ty.uint ≠ 1 then tx.hashEx cr reg tx.fee.encode else tx.hashEx cr reg []

/-- A signature verifies over the digest of its signer. -/
def signVerifies (cr : Crypto) (reg : Registry L) (tx : StdTransaction L) (sig : Sign) : Bool :=
  cr.verifySignature (tx.signHashFor cr reg (cr.signAddress sig)) sig.publickey sig.signature

def signItemSize : ℕ := 97

/-- `Sign::default`. -/
def defaultSign : Sign :=
  ⟨⟨List.replicate 33 0, length_replicate⟩, ⟨List.replicate 64 0, length_replicate⟩⟩

/-- One turn of the first loop of `verify_type3_signatures_exact`. -/
def checkKey (presentKeys : List (Fixed 33)) (sig : Sign) : Ret (List (Fixed 33)) := do
  ensure (sig.size = signItemSize) (.fault "Type3 Sign encoding size must be 97")
  ensure (sig.publickey ∉ presentKeys) (.fault "Type3 SignW2 contains duplicate public key")
  return presentKeys ++ [sig.publickey]

/-- One turn of the second loop of `verify_type3_signatures_exact`. -/
def checkSign (cr : Crypto) (reg : Registry L) (tx : StdTransaction L) (d : List Address)
    (presentAddrs : List Address) (sig : Sign) : Ret (List Address) := do
  ensure (cr.signAddress sig ∉ presentAddrs)
    (.fault "Type3 SignW2 contains duplicate signer address")
  ensure (cr.signAddress sig ∈ d) (.fault "undeclared Type3 signer")
  ensure (tx.signVerifies cr reg sig = true) (.fault "signature verification failed")
  return presentAddrs ++ [cr.signAddress sig]

def verifyType3SignaturesExact (cr : Crypto) (reg : Registry L) (ls : LeafSigners L)
    (tx : StdTransaction L) : Ret Unit := do
  let d ← tx.deterministicSignersVec reg ls
  ensure (tx.signs.length = d.length)
    (.fault "Type3 SignW2 length is not the deterministic signer count")
  let _ ← tx.signs.foldlM checkKey []
  let presentAddrs ← tx.signs.foldlM (tx.checkSign cr reg d) []
  ensure (sortAddresses presentAddrs = d)
    (.fault "Type3 signer address set does not equal deterministic set D")

/-- `usize::checked_add`, `checked_mul` and `checked_sub`, as far as `usize` reaches. -/
def checkedUsize (n : ℕ) (e : Error) : Ret ℕ := do
  ensure (n < 2 ^ 64) e
  return n

def canonicalBillingSize (reg : Registry L) (ls : LeafSigners L) (tx : StdTransaction L) :
    Ret ℕ := do
  let d ← tx.deterministicSigners reg ls
  ensure (signsSize tx.signs ≤ tx.size reg) (.fault "Type3 billing size underflow")
  ensure (defaultSign.size = signItemSize) (.fault "Type3 Sign encoding size must be 97")
  let items ← checkedUsize (d.length * defaultSign.size)
    (.fault "Type3 canonical signs size overflow")
  let canonicalSignsSize ← checkedUsize (signsSize [] + items)
    (.fault "Type3 canonical signs size overflow")
  checkedUsize (tx.size reg - signsSize tx.signs + canonicalSignsSize)
    (.fault "Type3 billing size overflow")

/-! ## The set `D` -/

/-- An address that one of the pointers names. -/
def Named (addrs : List Address) (ptrs : List AddrOrPtr) (a : Address) : Prop :=
  ∃ ptr ∈ ptrs, ptr.real addrs = .ok a

variable {addrs : List Address}

theorem named_cons {ptr : AddrOrPtr} {ptrs : List AddrOrPtr}
    {adr a : Address} (h : ptr.real addrs = .ok adr) :
    Named addrs (ptr :: ptrs) a ↔ a = adr ∨ Named addrs ptrs a := by
  constructor
  · rintro ⟨p, hp, hreal⟩
    rcases mem_cons.mp hp with rfl | hp
    · exact Or.inl (Except.ok.inj (hreal.symm.trans h))
    · exact Or.inr ⟨p, hp, hreal⟩
  · rintro (rfl | ⟨p, hp, hreal⟩)
    · exact ⟨ptr, mem_cons_self, h⟩
    · exact ⟨p, mem_cons_of_mem ptr hp, hreal⟩

theorem addSigner_ok {sets out : List Address} {ptr : AddrOrPtr}
    (h : addSigner addrs sets ptr = .ok out) :
    ∃ adr, ptr.real addrs = .ok adr ∧ (sets.Nodup → out.Nodup) ∧
      ∀ a, a ∈ out ↔ a ∈ sets ∨ a.isPrivkey = true ∧ a = adr := by
  obtain ⟨adr, hreal, h⟩ := bind_eq_ok h
  refine ⟨adr, hreal, ?_⟩
  cases h
  split_ifs with hadd
  · refine ⟨fun hnodup => ?_, fun a => ?_⟩
    · exact nodup_append.mpr ⟨hnodup, nodup_singleton adr, by
        rintro a ha b hb rfl
        exact hadd.2 (mem_singleton.mp hb ▸ ha)⟩
    · rw [mem_append, mem_singleton]
      refine or_congr_right ⟨?_, fun h => h.2⟩
      rintro rfl
      exact ⟨hadd.1, rfl⟩
  · refine ⟨id, fun a => ⟨Or.inl, ?_⟩⟩
    rintro (ha | ⟨hkey, rfl⟩)
    · exact ha
    · by_contra ha
      exact hadd ⟨hkey, ha⟩

theorem addSigners_ok : ∀ {ptrs : List AddrOrPtr} {sets out : List Address},
    ptrs.foldlM (addSigner addrs) sets = .ok out →
      (sets.Nodup → out.Nodup) ∧
        ∀ a, a ∈ out ↔ a ∈ sets ∨ a.isPrivkey = true ∧ Named addrs ptrs a
  | [], sets, out, h => by
    cases h
    refine ⟨id, fun a => ⟨Or.inl, ?_⟩⟩
    rintro (ha | ⟨-, _, hp, -⟩)
    · exact ha
    · cases hp
  | ptr :: ptrs, sets, out, h => by
    rw [foldlM_cons] at h
    obtain ⟨mid, hstep, h⟩ := bind_eq_ok h
    obtain ⟨adr, hreal, hnodup, hmem⟩ := addSigner_ok hstep
    obtain ⟨hnodup', hmem'⟩ := addSigners_ok h
    refine ⟨hnodup' ∘ hnodup, fun a => ?_⟩
    rw [hmem', hmem, named_cons hreal, and_or_left, or_assoc]

/-- The outer loop leaves out the `RequiredSigners`. -/
def Intrinsic (reg : Registry L) (ls : LeafSigners L) (addrs : List Address)
    (actions : List (ActionTree L)) (a : Address) : Prop :=
  a.isPrivkey = true ∧ ∃ act ∈ actions,
    act.kind reg ≠ requiredSignersKind ∧ Named addrs (act.reqSign ls) a

theorem addActionSigners_ok {reg : Registry L} {ls : LeafSigners L} :
    ∀ {actions : List (ActionTree L)} {sets out : List Address},
      actions.foldlM (addActionSigners reg ls addrs) sets = .ok out →
        (sets.Nodup → out.Nodup) ∧
          ∀ a, a ∈ out ↔ a ∈ sets ∨ Intrinsic reg ls addrs actions a
  | [], sets, out, h => by
    cases h
    refine ⟨id, fun a => ⟨Or.inl, ?_⟩⟩
    rintro (ha | ⟨-, _, hp, -⟩)
    · exact ha
    · cases hp
  | act :: actions, sets, out, h => by
    rw [foldlM_cons] at h
    obtain ⟨mid, hstep, h⟩ := bind_eq_ok h
    obtain ⟨hnodup', hmem'⟩ := addActionSigners_ok h
    have hstep' : (sets.Nodup → mid.Nodup) ∧ ∀ a, a ∈ mid ↔ a ∈ sets ∨ a.isPrivkey = true ∧
        act.kind reg ≠ requiredSignersKind ∧ Named addrs (act.reqSign ls) a := by
      rw [addActionSigners] at hstep
      split_ifs at hstep with hkind
      · cases hstep
        exact ⟨id, fun a => ⟨Or.inl, fun h => h.elim id fun h => absurd hkind h.2.1⟩⟩
      · obtain ⟨hnodup, hmem⟩ := addSigners_ok hstep
        refine ⟨hnodup, fun a => ?_⟩
        rw [hmem]
        exact or_congr_right (and_congr_right fun _ => ⟨fun h => ⟨hkind, h⟩, fun h => h.2⟩)
    refine ⟨hnodup' ∘ hstep'.1, fun a => ?_⟩
    rw [hmem', hstep'.2, Intrinsic, Intrinsic, or_assoc, ← and_or_left]
    simp only [mem_cons, exists_eq_or_imp]

/-- The `RequiredSigners` list adds the addresses that it names. -/
theorem addDeclared_ok : ∀ {signers : List AddrOrPtr} {e out : List Address},
      signers.foldlM (addDeclared addrs) e = .ok out →
        (e.Nodup → out.Nodup) ∧ ∀ a, a ∈ out ↔ a ∈ e ∨ Named addrs signers a
  | [], e, out, h => by
    cases h
    refine ⟨id, fun a => ⟨Or.inl, ?_⟩⟩
    rintro (ha | ⟨_, hp, -⟩)
    · exact ha
    · cases hp
  | ptr :: signers, e, out, h => by
    rw [foldlM_cons] at h
    obtain ⟨mid, hstep, h⟩ := bind_eq_ok h
    obtain ⟨adr, hreal, hstep⟩ := bind_eq_ok hstep
    replace hstep := ensure_drop hstep
    replace hstep := ensure_drop hstep
    obtain ⟨hfresh, hstep⟩ := ensure_bind_iff.mp hstep
    cases hstep
    obtain ⟨hnodup', hmem'⟩ := addDeclared_ok h
    refine ⟨fun hnodup => hnodup' (nodup_append.mpr ⟨hnodup, nodup_singleton adr, ?_⟩),
      fun a => ?_⟩
    · rintro a ha b hb rfl
      exact hfresh (mem_singleton.mp hb ▸ ha)
    · rw [hmem', mem_append, mem_singleton, named_cons hreal, or_assoc]

variable {reg : Registry L} {ls : LeafSigners L} {tx : StdTransaction L} {d e : List Address}

theorem declaredExtraSigners_nodup (h : tx.declaredExtraSigners ls = .ok e) : e.Nodup := by
  obtain ⟨found, -, h⟩ := bind_eq_ok h
  cases found with
  | none => cases h; exact nodup_nil
  | some list =>
    replace h := ensure_drop h
    exact (addDeclared_ok h).1 nodup_nil

/-- **The set `D`**: the main address, the addresses the actions ask for, and the declared
ones. -/
theorem mem_deterministicSigners (h : tx.deterministicSigners reg ls = .ok d) :
    ∃ e, tx.declaredExtraSigners ls = .ok e ∧
      ∀ a, a ∈ d ↔ a = tx.main ∨ Intrinsic reg ls tx.addrs tx.actions a ∨ a ∈ e := by
  obtain ⟨r, hr, h⟩ := bind_eq_ok h
  obtain ⟨e, he, h⟩ := bind_eq_ok h
  replace h := ensure_drop h
  cases h
  refine ⟨e, he, fun a => ?_⟩
  rw [mem_append, (addActionSigners_ok hr).2, mem_singleton, or_assoc]

theorem deterministicSigners_nodup (h : tx.deterministicSigners reg ls = .ok d) : d.Nodup := by
  obtain ⟨r, hr, h⟩ := bind_eq_ok h
  obtain ⟨e, he, h⟩ := bind_eq_ok h
  obtain ⟨hdisj, h⟩ := ensure_bind_iff.mp h
  cases h
  refine nodup_append.mpr ⟨(addActionSigners_ok hr).1 (nodup_singleton _),
    declaredExtraSigners_nodup he, ?_⟩
  rintro a ha b hb rfl
  exact Bool.eq_false_iff.mp hdisj (any_eq_true.mpr ⟨a, hb, decide_eq_true ha⟩)

/-! ## The check of the signatures -/

theorem checkKey_iff (present : List (Fixed 33)) (sig : Sign) (out : List (Fixed 33)) :
    checkKey present sig = .ok out ↔
      sig.publickey ∉ present ∧ True ∧ out = present ++ [sig.publickey] := by
  rw [checkKey, ensure_bind_iff, ensure_bind_iff]
  constructor
  · rintro ⟨-, hnew, h⟩
    cases h
    exact ⟨hnew, trivial, rfl⟩
  · rintro ⟨hnew, -, rfl⟩
    exact ⟨rfl, hnew, rfl⟩

theorem checkSign_iff (cr : Crypto) (reg : Registry L) (tx : StdTransaction L) (d : List Address)
    (present : List Address) (sig : Sign) (out : List Address) :
    tx.checkSign cr reg d present sig = .ok out ↔ cr.signAddress sig ∉ present ∧
      (cr.signAddress sig ∈ d ∧ tx.signVerifies cr reg sig = true) ∧
      out = present ++ [cr.signAddress sig] := by
  rw [checkSign, ensure_bind_iff, ensure_bind_iff, ensure_bind_iff]
  constructor
  · rintro ⟨hnew, hd, hverifies, h⟩
    cases h
    exact ⟨hnew, ⟨hd, hverifies⟩, rfl⟩
  · rintro ⟨hnew, ⟨hd, hverifies⟩, rfl⟩
    exact ⟨hnew, hd, hverifies, rfl⟩

/-- The signatures are those of the addresses in `d`, one each. -/
structure ExactSigns (cr : Crypto) (reg : Registry L) (tx : StdTransaction L) (d : List Address) :
    Prop where
  distinct : (tx.signs.map cr.signAddress).Nodup
  signers : ∀ a, a ∈ tx.signs.map cr.signAddress ↔ a ∈ d
  verifies : ∀ sig ∈ tx.signs, tx.signVerifies cr reg sig = true

/-- **The check accepts exactly the signatures of `D`.** -/
theorem verifyType3SignaturesExact_iff (cr : Crypto) :
    tx.verifyType3SignaturesExact cr reg ls = .ok () ↔
      ∃ d, tx.deterministicSigners reg ls = .ok d ∧ tx.ExactSigns cr reg d := by
  constructor
  · intro h
    obtain ⟨v, hv, h⟩ := bind_eq_ok h
    obtain ⟨d, hd, hv⟩ := bind_eq_ok hv
    cases hv
    replace h := ensure_drop h
    obtain ⟨keys, -, h⟩ := bind_eq_ok h
    obtain ⟨present, hpresent, h⟩ := bind_eq_ok h
    obtain ⟨hnodup, -, hgood, rfl⟩ := (foldlM_scan (checkSign_iff cr reg tx _)).mp hpresent
    refine ⟨d, hd, hnodup, ?_, fun sig hsig => (hgood sig hsig).2⟩
    exact sortAddresses_eq_iff.mp (of_ensure h)
  · rintro ⟨d, hd, hexact⟩
    have hsorted := sortAddresses_eq_iff.mpr hexact.signers
    have hlen : tx.signs.length = (sortAddresses d).length := by
      rw [← hsorted, sortAddresses_length hexact.distinct, length_map]
    -- an address belongs to one public key's signature only, so the keys are distinct too
    have hkeys : (tx.signs.map Sign.publickey).Nodup := by
      have hmap : tx.signs.map cr.signAddress
          = (tx.signs.map Sign.publickey).map cr.getAddressByPublicKey := by
        rw [List.map_map]
        rfl
      exact List.Nodup.of_map _ (hmap ▸ hexact.distinct)
    have hfirst : tx.signs.foldlM checkKey [] = .ok (tx.signs.map Sign.publickey) :=
      (foldlM_scan checkKey_iff).mpr
        ⟨hkeys, fun _ _ => not_mem_nil, fun _ _ => trivial, rfl⟩
    have hsecond : tx.signs.foldlM (tx.checkSign cr reg (sortAddresses d)) []
        = .ok (tx.signs.map cr.signAddress) :=
      (foldlM_scan (checkSign_iff cr reg tx (sortAddresses d))).mpr
        ⟨hexact.distinct, fun _ _ => not_mem_nil, fun sig hsig =>
          ⟨mem_sortAddresses.mpr ((hexact.signers _).mp (mem_map_of_mem hsig)),
            hexact.verifies sig hsig⟩, rfl⟩
    rw [verifyType3SignaturesExact, deterministicSignersVec, hd, ok_bind, pure_bind,
      ensure_of _ hlen, ok_bind, hfirst, ok_bind, hsecond, ok_bind]
    exact ensure_of _ hsorted

/-- The order of the signatures does not matter. -/
theorem ExactSigns.perm {cr : Crypto} {signs : List Sign} (hperm : tx.signs.Perm signs)
    (h : tx.ExactSigns cr reg d) :
    ({ tx with signs } : StdTransaction L).ExactSigns cr reg d where
  distinct := (hperm.map cr.signAddress).nodup_iff.mp h.distinct
  signers a := by
    rw [← h.signers a]
    exact (hperm.map cr.signAddress).mem_iff.symm
  verifies sig hsig := h.verifies sig (hperm.mem_iff.mpr hsig)

/-! ## The billed size -/

/-- The size of the body: all but the signatures. -/
def bodySize (reg : Registry L) (tx : StdTransaction L) : ℕ :=
  1 + 5 + tx.addrlist.size + tx.fee.size + actionListSize reg tx.actions + 1 + 1

theorem size_eq_body (reg : Registry L) (tx : StdTransaction L) :
    tx.size reg = tx.bodySize reg + signsSize tx.signs := by
  rw [size, bodySize]
  omega

theorem signsSize_eq_mul (signs : List Sign) : signsSize signs = 2 + signs.length * 97 := by
  have hsum : (signs.map Sign.size).sum = signs.length * 97 := by
    induction signs with
    | nil => rfl
    | cons s signs ih =>
      rw [map_cons, sum_cons, ih, length_cons, Sign.size]
      omega
  rw [signsSize, hsum]

/-- The billed size is that of the body and of one signature for each address in `D`. -/
theorem canonicalBillingSize_eq (hd : tx.deterministicSigners reg ls = .ok d) :
    tx.canonicalBillingSize reg ls = (do
      let items ← checkedUsize (d.length * 97) (.fault "Type3 canonical signs size overflow")
      let signs ← checkedUsize (2 + items) (.fault "Type3 canonical signs size overflow")
      checkedUsize (tx.bodySize reg + signs) (.fault "Type3 billing size overflow")) := by
  have hle : signsSize tx.signs ≤ tx.size reg := by
    rw [size_eq_body]
    exact Nat.le_add_left ..
  have hbase : tx.size reg - signsSize tx.signs = tx.bodySize reg := by
    rw [size_eq_body, Nat.add_sub_cancel]
  have hitem : defaultSign.size = signItemSize := rfl
  rw [canonicalBillingSize, hd, ok_bind, ensure_of _ hle, ok_bind, ensure_of _ hitem, ok_bind,
    hbase]
  rfl

theorem canonicalBillingSize_signs (signs : List Sign) :
    ({ tx with signs } : StdTransaction L).canonicalBillingSize reg ls
      = tx.canonicalBillingSize reg ls := by
  cases hd : tx.deterministicSigners reg ls with
  | error e =>
    have hd' : ({ tx with signs } : StdTransaction L).deterministicSigners reg ls = .error e := hd
    rw [canonicalBillingSize, canonicalBillingSize, hd, hd']
    rfl
  | ok d =>
    have hd' : ({ tx with signs } : StdTransaction L).deterministicSigners reg ls = .ok d := hd
    rw [canonicalBillingSize_eq hd, canonicalBillingSize_eq hd']
    rfl

/-- The signatures of `D` have the size that is billed for them. -/
theorem ExactSigns.billing {cr : Crypto} (hd : tx.deterministicSigners reg ls = .ok d)
    (h : tx.ExactSigns cr reg d) (hsize : tx.size reg < 2 ^ 64) :
    tx.canonicalBillingSize reg ls = .ok (tx.size reg) := by
  have hlen : d.length = tx.signs.length := by
    have hperm := (perm_ext_iff_of_nodup h.distinct (deterministicSigners_nodup hd)).mpr
      h.signers
    rw [← hperm.length_eq, length_map]
  have hsigns := signsSize_eq_mul tx.signs
  rw [size_eq_body] at hsize ⊢
  rw [canonicalBillingSize_eq hd, hlen, checkedUsize, ensure_of _ (by omega), ok_bind, pure_bind,
    checkedUsize, ensure_of _ (by omega), ok_bind, pure_bind, checkedUsize,
    ensure_of _ (by omega), ok_bind, hsigns]
  rfl

/-- **Type 3 signatures are exact.** The check accepts exactly the transactions with one signature
of each address in `D`, in any order. The billed size does not depend on the signatures and is the
encoded size of every accepted transaction. -/
theorem type3_signatures_exact (cr : Crypto) (reg : Registry L) (ls : LeafSigners L)
    (tx : StdTransaction L) {d : List Address} (hd : tx.deterministicSigners reg ls = .ok d) :
    (∃ e, tx.declaredExtraSigners ls = .ok e ∧
      ∀ a, a ∈ d ↔ a = tx.main ∨ Intrinsic reg ls tx.addrs tx.actions a ∨ a ∈ e) ∧
    (tx.verifyType3SignaturesExact cr reg ls = .ok () ↔
      (tx.signs.map cr.signAddress).Nodup ∧
      (∀ a, a ∈ tx.signs.map cr.signAddress ↔ a ∈ d) ∧
      ∀ sig ∈ tx.signs, cr.verifySignature (tx.signHashFor cr reg (cr.signAddress sig))
        sig.publickey sig.signature = true) ∧
    (∀ signs, tx.signs.Perm signs →
      (tx.verifyType3SignaturesExact cr reg ls = .ok () ↔
        ({ tx with signs } : StdTransaction L).verifyType3SignaturesExact cr reg ls = .ok ())) ∧
    (∀ signs, ({ tx with signs } : StdTransaction L).canonicalBillingSize reg ls
      = tx.canonicalBillingSize reg ls) ∧
    (tx.verifyType3SignaturesExact cr reg ls = .ok () → tx.size reg < 2 ^ 64 →
      tx.canonicalBillingSize reg ls = .ok (tx.size reg) ∧
      ∀ wf, reg.Lawful wf → tx.Valid wf →
        tx.canonicalBillingSize reg ls = .ok (tx.encode reg).length) := by
  have hiff : ∀ {signs : List Sign},
      ({ tx with signs } : StdTransaction L).verifyType3SignaturesExact cr reg ls = .ok () ↔
        ({ tx with signs } : StdTransaction L).ExactSigns cr reg d := by
    intro signs
    rw [verifyType3SignaturesExact_iff]
    refine ⟨?_, fun h => ⟨d, hd, h⟩⟩
    rintro ⟨d', hd', h⟩
    obtain rfl := Except.ok.inj (hd.symm.trans hd')
    exact h
  have hself : tx.verifyType3SignaturesExact cr reg ls = .ok () ↔ tx.ExactSigns cr reg d :=
    @hiff tx.signs
  refine ⟨mem_deterministicSigners hd, ?_, fun signs hperm => ?_, canonicalBillingSize_signs,
    fun haccept hsize => ?_⟩
  · rw [hself]
    exact ⟨fun h => ⟨h.distinct, h.signers, h.verifies⟩, fun h => ⟨h.1, h.2.1, h.2.2⟩⟩
  · rw [hself, hiff]
    exact ⟨fun h => h.perm hperm,
      fun h => @ExactSigns.perm _ _ { tx with signs } _ _ _ hperm.symm h⟩
  · have hbill := (hself.mp haccept).billing hd hsize
    refine ⟨hbill, fun wf hreg hvalid => ?_⟩
    rw [hbill, hvalid.size_eq hreg]

/-- The address of the keys that end in `b`. -/
def keyAddress (b : UInt8) : Address := ⟨0 :: List.replicate 20 b, rfl⟩

/-- A cryptography in which every key is that of the zero address. -/
def sampleCrypto : Crypto :=
  ⟨fun _ => .fill 0, fun key => keyAddress (key.bytes.getLastD 0), fun _ _ _ => true⟩

def keySign (b : UInt8) : Sign :=
  ⟨⟨List.replicate 32 0 ++ [b], rfl⟩, ⟨List.replicate 64 0, length_replicate⟩⟩

/-- A nested leaf asks for key 1, and a leaf at the top declares key 2. -/
def sampleSigners : LeafSigners (Uint 1) where
  reqSign act := if act.uint = 6 then [.addr (keyAddress 1)] else [.ptr 0]
  asRequiredSigners act := if act.uint = 9 then some [.addr (keyAddress 2)] else none

/-- Signed by the declared signer, the main address and the intrinsic one. -/
def signedTx : StdTransaction (Uint 1) :=
  { wireTx 0 with
    actions := (wireTx 0).actions ++ [.leaf 9]
    signs := [keySign 2, keySign 0, keySign 1] }

theorem type3_signatures_exact_sample :
    let d := [keyAddress 0, keyAddress 1, keyAddress 2]
    signedTx.deterministicSigners sampleRegistry sampleSigners = .ok d ∧
      signedTx.verifyType3SignaturesExact sampleCrypto sampleRegistry sampleSigners = .ok () ∧
      signedTx.canonicalBillingSize sampleRegistry sampleSigners = .ok 343 := by
  intro d
  have hd : signedTx.deterministicSigners sampleRegistry sampleSigners = .ok d := by
    decide +kernel
  obtain ⟨-, hiff, -, -, hbill⟩ :=
    type3_signatures_exact sampleCrypto sampleRegistry sampleSigners signedTx hd
  have hperm : (signedTx.signs.map sampleCrypto.signAddress).Perm d := by decide
  have haccept : signedTx.verifyType3SignaturesExact sampleCrypto sampleRegistry sampleSigners
      = .ok () :=
    hiff.mpr ⟨hperm.nodup_iff.mpr (by decide), fun _ => hperm.mem_iff, fun _ _ => rfl⟩
  have hsize : signedTx.size sampleRegistry = 343 := by decide +kernel
  refine ⟨hd, haccept, ?_⟩
  rw [← hsize]
  exact (hbill haccept (by rw [hsize]; decide)).1

end StdTransaction

end Hacash
