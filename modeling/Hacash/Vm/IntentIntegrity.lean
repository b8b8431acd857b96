import Hacash.Vm.Intent

/-!
# Integrity of the intent runtime (`vm::machine::intent`)

Index and table name the same ids, and every operation is all or nothing. **Key result**:
`intent_integrity`.
-/

namespace Hacash

open Lib List Function AList Succeeds Vm.MKVMap

namespace Vm

/-! ## The invariant -/

/-- **Integrity of the runtime.** -/
structure IntentInv (r : IntentRuntime) : Prop where
  /-- the index and the table name the same ids -/
  index : ∀ id owner, r.owners.lookup id = some owner ↔ id ∈ r.buckets owner
  /-- an owner has at most one intent of a kind -/
  kinds : ∀ owner id id' entry entry', (r.buckets owner).lookup id = some entry →
    (r.buckets owner).lookup id' = some entry' → entry.kind = entry'.kind → id = id'
  /-- the keys of an intent are within their limit, and its values are not nil -/
  entries : ∀ owner id entry, (r.buckets owner).lookup id = some entry →
    entry.data.Bounded r.keyLimit r.keyMaxBytes
  /-- the intents are within their limit, also those already destroyed -/
  created : r.owners.entries.length ≤ r.totalCreated ∧ r.totalCreated ≤ r.createLimit
  /-- the two limits on keys are one -/
  keyLimit : r.intentKeyLimit = r.keyLimit

/-- A runtime without intents is sound. -/
theorem IntentInv.of_empty {r : IntentRuntime} (howners : r.owners = ∅)
    (hbuckets : ∀ owner, r.buckets owner = ∅) (hcreated : r.totalCreated = 0)
    (hlimit : r.intentKeyLimit = r.keyLimit) : IntentInv r where
  index id owner := by
    rw [howners, hbuckets]
    exact ⟨nofun, fun h => absurd h (notMem_empty id)⟩
  kinds owner _ _ _ _ h := by
    rw [hbuckets] at h
    cases h
  entries owner _ _ h := by
    rw [hbuckets] at h
    cases h
  created := by
    rw [howners, hcreated]
    exact ⟨le_rfl, Nat.zero_le _⟩
  keyLimit := hlimit

/-- A new runtime is empty. -/
theorem intentInv_new (limits : IntentRuntimeLimits) : IntentInv (.new limits) :=
  .of_empty rfl (fun _ => rfl) rfl rfl

theorem IntentInv.clear {r : IntentRuntime} (h : IntentInv r) : IntentInv r.clear :=
  .of_empty rfl (fun _ => rfl) rfl h.keyLimit

theorem intentInv_reset (limits : IntentRuntimeLimits) (r : IntentRuntime) :
    IntentInv (r.reset limits) :=
  .of_empty rfl (fun _ => rfl) rfl rfl

namespace IntentRuntime

variable {r t : IntentRuntime} {owner : ContractAddress} {id : ℕ} {key val : Value}

/-! ## Checks -/

/-- `ensure_owner` asks the index. -/
theorem ensureOwner_iff : r.ensureOwner owner id = .ok () ↔ r.owners.lookup id = some owner := by
  rw [ensureOwner, ownerOf]
  cases r.owners.lookup id with
  | none => exact ⟨nofun, nofun⟩
  | some real =>
    constructor
    · intro h
      rw [of_check h]
    · intro h
      cases h
      exact check_of _ _ rfl

variable {entry : IntentEntry} {bytes kind : List UInt8} {u : Unit} {data : KVMap}
  {f : KVMap → VmrtRes KVMap} {next : ℕ} {oldVal : Value} {keys : List Value}
  {pairs : List (Value × Value)} {op : String}

/-- `require_ref` returns the entry that index and table agree on. -/
theorem requireRef_iff : r.requireRef owner id = .ok entry ↔
      r.owners.lookup id = some owner ∧ (r.buckets owner).lookup id = some entry := by
  constructor
  · intro h
    obtain ⟨_, howner, h⟩ := bind_eq_ok h
    refine ⟨ensureOwner_iff.mp howner, ?_⟩
    cases hlookup : (r.buckets owner).lookup id with
    | none =>
      rw [hlookup] at h
      cases h
    | some e =>
      rw [hlookup] at h
      cases h
      rfl
  · rintro ⟨howner, hentry⟩
    rw [requireRef, ensureOwner_iff.mpr howner, ok_bind, hentry]
    rfl

theorem extractIntentKeyBytes_ok (h : r.extractIntentKeyBytes key = .ok bytes) :
    key.extractKeyBytes .memoryError = .ok bytes ∧ bytes.length ≤ r.keyMaxBytes := by
  obtain ⟨b, hb, h⟩ := bind_eq_ok h
  obtain ⟨hle, h⟩ := check_bind_iff.mp h
  cases h
  exact ⟨extractKeyBytes_code _ hb, hle⟩

theorem validateKeyValueForPut_ok (h : r.validateKeyValueForPut key val = .ok u) :
    val.isNil = false ∧ val.isScalar = true := by
  obtain ⟨_, -, h⟩ := bind_eq_ok h
  replace h := check_drop h
  exact validateVolatileScalarPut_ok h

theorem preparePutMode_ok {existed : Bool} (h : r.preparePutMode owner id key val = .ok existed) :
    val.isNil = false := by
  obtain ⟨_, hvalid, -⟩ := bind_eq_ok h
  exact (validateKeyValueForPut_ok hvalid).1

theorem validateNonNilScalar_ok (h : validateNonNilScalar val = .ok u) : val.isNil = false := by
  rw [validateNonNilScalar] at h
  cases hcheck : val.checkNonNilScalar .intentError with
  | error e =>
    rw [hcheck] at h
    cases h
  | ok u => exact (check_bind_iff.mp hcheck).1

/-! ## One write -/

/-- The data of an intent is replaced within its bounds. -/
theorem inv_setEntry (hinv : IntentInv r) (hentry : (r.buckets owner).lookup id = some entry)
    (hdata : data.Bounded r.keyLimit r.keyMaxBytes) :
    IntentInv (r.setEntry owner id { entry with data := data }) := by
  -- the entry that an id has now, with the one that it had before
  have hback : ∀ a i e, ((r.setEntry owner id { entry with data := data }).buckets a).lookup i
      = some e → ∃ e₀, (r.buckets a).lookup i = some e₀ ∧ e₀.kind = e.kind ∧
        (e.data = data ∨ e = e₀) := by
    intro a i e h
    rw [setEntry] at h
    by_cases ha : a = owner
    · subst ha
      simp only [update_self] at h
      by_cases hi : i = id
      · subst hi
        rw [lookup_insert] at h
        cases h
        exact ⟨entry, hentry, rfl, .inl rfl⟩
      · rw [lookup_insert_ne hi] at h
        exact ⟨e, h, rfl, .inr rfl⟩
    · simp only [update_of_ne ha] at h
      exact ⟨e, h, rfl, .inr rfl⟩
  refine ⟨?_, ?_, ?_, hinv.created, hinv.keyLimit⟩
  · intro i a
    refine (hinv.index i a).trans ?_
    rw [setEntry]
    by_cases ha : a = owner
    · subst ha
      simp only [update_self, mem_insert]
      refine ⟨.inr, ?_⟩
      rintro (rfl | h)
      · exact lookup_isSome.mp (by rw [hentry]; rfl)
      · exact h
    · simp only [update_of_ne ha]
  · intro a i i' e e' h h' hkind
    obtain ⟨e₀, h₀, hk₀, -⟩ := hback a i e h
    obtain ⟨e₁, h₁, hk₁, -⟩ := hback a i' e' h'
    exact hinv.kinds a i i' e₀ e₁ h₀ h₁ (hk₀.trans (hkind.trans hk₁.symm))
  · intro a i e h
    obtain ⟨e₀, h₀, -, hd | rfl⟩ := hback a i e h
    · rw [hd]
      exact hdata
    · exact hinv.entries a i e h₀

/-- The runtime with an intent of an owner. -/
structure Owned (owner : ContractAddress) (id : ℕ) (r : IntentRuntime) : Prop where
  inv : IntentInv r
  entry : ∃ entry, r.requireRef owner id = .ok entry

open Owned

/-- A written entry is found again. -/
theorem requireRef_setEntry {entry entry' : IntentEntry} (h : r.requireRef owner id = .ok entry) :
    (r.setEntry owner id entry').requireRef owner id = .ok entry' := by
  refine requireRef_iff.mpr ⟨(requireRef_iff.mp h).1, ?_⟩
  rw [setEntry]
  simp only [update_self, lookup_insert]

theorem changeData_of
    (hentry : r.requireRef owner id = .ok entry) (hdata : f entry.data = .ok data) :
    changeData owner id f r = .ok () (r.setEntry owner id { entry with data := data }) := by
  rw [changeData]
  simp only [hentry, hdata]

/-- A change of the data fails and changes nothing, or writes the new data. -/
theorem changeData_cases (owner : ContractAddress) (id : ℕ) (f : KVMap → VmrtRes KVMap)
    (r : IntentRuntime) : (∃ e, changeData owner id f r = .error e r) ∨
    ∃ entry data, r.requireRef owner id = .ok entry ∧ f entry.data = .ok data ∧
      changeData owner id f r = .ok () (r.setEntry owner id { entry with data := data }) := by
  cases hentry : r.requireRef owner id with
  | error e => exact .inl ⟨e, by simp only [changeData, hentry]⟩
  | ok entry =>
    cases hdata : f entry.data with
    | error e => exact .inl ⟨e, by simp only [changeData, hentry, hdata]⟩
    | ok data => exact .inr ⟨entry, data, rfl, hdata, changeData_of hentry hdata⟩

/-- A change of the data within the bounds is all or nothing. -/
theorem changeData_atomic (hinv : IntentInv r)
    (hf : ∀ data data', data.Bounded r.keyLimit r.keyMaxBytes → f data = .ok data' →
      data'.Bounded r.keyLimit r.keyMaxBytes) :
    Atomic (Owned owner id) (changeData owner id f) r := by
  obtain ⟨e, hrun⟩ | ⟨entry, data, hentry, hdata, hrun⟩ :=
    changeData_cases owner id f r
  · rw [Atomic, hrun]
  · rw [Atomic, hrun]
    have hlookup := (requireRef_iff.mp hentry).2
    exact ⟨inv_setEntry hinv hlookup (hf _ _ (hinv.entries _ _ _ hlookup) hdata),
      _, requireRef_setEntry hentry⟩

theorem changeData_put (hinv : IntentInv r) (hnil : val.isNil = false) :
    Atomic (Owned owner id) (changeData owner id (MKVMap.put · key val)) r :=
  changeData_atomic hinv fun _ _ hb h => hb.put hnil h

theorem changeData_remove (hinv : IntentInv r) :
    Atomic (Owned owner id) (changeData owner id (remove · key)) r :=
  changeData_atomic hinv fun _ _ hb h => hb.remove h

/-! ## Ids -/

/-- The id of a new intent is not in use. -/
theorem nextIntentIdFrom_ok {owners : AList fun _ : ℕ => ContractAddress} {steps first : ℕ}
    (h : nextIntentIdFrom owners steps first = .ok next) : next ∉ owners := by
  induction steps generalizing first with
  | zero =>
    obtain ⟨hnew, h⟩ := check_bind_iff.mp h
    cases h
    exact hnew
  | succ steps ih =>
    rw [nextIntentIdFrom] at h
    split_ifs at h with hmem
    · exact ih h
    · cases h
      exact hmem

theorem openIdsByKind_nil (h : r.openIdsByKind owner kind = [])
    (hentry : (r.buckets owner).lookup id = some entry) : entry.kind ≠ kind := by
  intro hkind
  have hlen := congrArg List.length h
  rw [openIdsByKind, length_mergeSort, length_map, length_nil,
    length_eq_zero_iff, filter_eq_nil_iff] at hlen
  exact hlen ⟨id, entry⟩ (mem_lookup_iff.mp hentry) (by simp [hkind])

/-- The runtime after a new intent. -/
def inserted (r : IntentRuntime) (owner : ContractAddress) (kind : List UInt8) (next : ℕ) :
    IntentRuntime :=
  { r with
    idGeneration := next
    nextId := next
    totalCreated := r.totalCreated + 1
    owners := r.owners.insert next owner
    buckets := update r.buckets owner
      ((r.buckets owner).insert next ⟨kind, .withKeyMax r.keyLimit r.keyMaxBytes⟩) }

/-- An intent of the runtime after a new one is the new one or was there. -/
theorem lookup_inserted {kind : List UInt8} {next i : ℕ} {a : ContractAddress} {e : IntentEntry}
    (h : ((r.inserted owner kind next).buckets a).lookup i = some e) :
    (a = owner ∧ i = next ∧ e = ⟨kind, .withKeyMax r.keyLimit r.keyMaxBytes⟩) ∨
      (r.buckets a).lookup i = some e := by
  rw [inserted] at h
  by_cases ha : a = owner
  · subst ha
    simp only [update_self] at h
    by_cases hi : i = next
    · subst hi
      rw [lookup_insert] at h
      cases h
      exact .inl ⟨rfl, rfl, rfl⟩
    · rw [lookup_insert_ne hi] at h
      exact .inr h
  · simp only [update_of_ne ha] at h
    exact .inr h

/-- A new intent keeps the invariant. -/
theorem inv_inserted (hinv : IntentInv r)
    (hnew : next ∉ r.owners) (hopen : r.openIdsByKind owner kind = [])
    (hlimit : r.totalCreated < r.createLimit) : IntentInv (r.inserted owner kind next) := by
  have hfresh : ∀ a, next ∉ r.buckets a := fun a hmem =>
    hnew (lookup_isSome.mp (by rw [(hinv.index next a).mpr hmem]; rfl))
  refine ⟨?_, ?_, ?_, ?_, hinv.keyLimit⟩
  · intro i a
    rw [inserted]
    by_cases hi : i = next
    · subst hi
      rw [lookup_insert]
      by_cases ha : a = owner
      · subst ha
        simp only [update_self, mem_insert, true_or]
      · simp only [update_of_ne ha]
        exact ⟨fun h => absurd (Option.some.inj h).symm ha, fun h => absurd h (hfresh a)⟩
    · rw [lookup_insert_ne hi, hinv.index i a]
      by_cases ha : a = owner
      · subst ha
        simp only [update_self, mem_insert]
        exact ⟨.inr, fun h => h.resolve_left hi⟩
      · simp only [update_of_ne ha]
  · intro a i i' e e' h h' hkind
    -- the kind of the new intent was not open
    rcases lookup_inserted h with ⟨rfl, rfl, rfl⟩ | hold
    · rcases lookup_inserted h' with ⟨-, rfl, -⟩ | hold'
      · rfl
      · exact absurd hkind.symm (openIdsByKind_nil hopen hold')
    · rcases lookup_inserted h' with ⟨rfl, rfl, rfl⟩ | hold'
      · exact absurd hkind (openIdsByKind_nil hopen hold)
      · exact hinv.kinds a i i' e e' hold hold' hkind
  · intro a i e h
    rcases lookup_inserted h with ⟨-, -, rfl⟩ | h
    · exact .withKeyMax
    · exact hinv.entries a i e h
  · rw [inserted]
    simp only [length_insert_of_notMem hnew]
    exact ⟨Nat.add_le_add_right hinv.created.1 1, hlimit⟩

/-- A new intent gets an id that is not in use. -/
theorem create_fresh (h : create owner kind r = .ok next t) : next ∉ r.owners := by
  obtain ⟨_, -, h⟩ := peek_bind_ok h
  obtain ⟨next', hnext, h⟩ := peek_bind_ok h
  cases h
  exact nextIntentIdFrom_ok hnext

/-- Creation is checked before anything is written. -/
theorem create_atomic (hinv : IntentInv r) (kind : List UInt8) :
    Atomic IntentInv (create owner kind) r := by
  refine Atomic.peek_bind fun _ hchecks => ?_
  replace hchecks := check_drop hchecks
  obtain ⟨_, -, hchecks⟩ := bind_eq_ok hchecks
  obtain ⟨hopen, hchecks⟩ := check_bind_iff.mp hchecks
  refine Atomic.peek_bind fun next hnext => ?_
  exact atomic ⟨next, r.inserted owner kind next, rfl,
    inv_inserted hinv (nextIntentIdFrom_ok hnext) hopen (of_check hchecks)⟩

/-- The runtime after an intent is destroyed. -/
def erased (r : IntentRuntime) (owner : ContractAddress) (id : ℕ) : IntentRuntime :=
  { r with
    owners := r.owners.erase id
    buckets := update r.buckets owner ((r.buckets owner).erase id) }

/-- What is left was there before. -/
theorem lookup_erased {i : ℕ} {a : ContractAddress} {e : IntentEntry}
    (h : ((r.erased owner id).buckets a).lookup i = some e) : (r.buckets a).lookup i = some e := by
  rw [erased] at h
  by_cases ha : a = owner
  · subst ha
    simp only [update_self] at h
    by_cases hi : i = id
    · subst hi
      rw [lookup_erase] at h
      cases h
    · rwa [lookup_erase_ne hi] at h
  · simpa only [update_of_ne ha] using h

section

variable (hinv : IntentInv r)
include hinv

/-- A removed intent leaves index and table alike. -/
theorem inv_erased (howner : r.owners.lookup id = some owner) : IntentInv (r.erased owner id) := by
  refine ⟨?_, ?_, ?_, ?_, hinv.keyLimit⟩
  · intro i a
    rw [erased]
    by_cases hi : i = id
    · subst hi
      rw [lookup_erase]
      by_cases ha : a = owner
      · subst ha
        simp only [update_self, mem_erase]
        exact ⟨nofun, fun h => absurd rfl h.1⟩
      · simp only [update_of_ne ha]
        refine ⟨nofun, fun h => absurd ?_ ha⟩
        rw [← hinv.index, howner] at h
        exact (Option.some.inj h).symm
    · rw [lookup_erase_ne hi, hinv.index i a]
      by_cases ha : a = owner
      · subst ha
        simp only [update_self, mem_erase]
        exact ⟨fun h => ⟨hi, h⟩, fun h => h.2⟩
      · simp only [update_of_ne ha]
  · intro a i i' e e' h h' hkind
    exact hinv.kinds a i i' e e' (lookup_erased h) (lookup_erased h') hkind
  · intro a i e h
    exact hinv.entries a i e (lookup_erased h)
  · exact ⟨(length_erase_le _ _).trans hinv.created.1, hinv.created.2⟩

/-- An intent that is there is destroyed. -/
theorem destroy_succeeds (howner : r.owners.lookup id = some owner) :
    Succeeds (fun _ => IntentInv) (destroy owner id) r :=
  ⟨(), r.erased owner id, bind_ok (peek_ok (ensureOwner_iff.mpr howner)), inv_erased hinv howner⟩

/-- Index and table lose the intent together. -/
theorem destroy_atomic : Atomic IntentInv (destroy owner id) r := by
  refine Atomic.peek_bind fun _ howner => ?_
  exact atomic ⟨(), r.erased owner id, rfl, inv_erased hinv (ensureOwner_iff.mp howner)⟩

/-! ## Single writes -/

/-- A put is checked before it is made. -/
theorem put_atomic : Atomic (Owned owner id) (put owner id key val) r :=
  Atomic.peek_bind fun _ h => changeData_put hinv (preparePutMode_ok h)

theorem take_atomic : Atomic (Owned owner id) (take owner id key) r :=
  Atomic.peek_bind fun val _ => (changeData_remove hinv).bind_pure fun _ => val

theorem del_atomic : Atomic (Owned owner id) (del owner id key) r :=
  Atomic.peek_bind fun _ _ => changeData_remove hinv

theorem clearData_atomic : Atomic (Owned owner id) (clearData owner id) r :=
  changeData_atomic hinv fun _ _ hb h => by cases h; exact hb.clear

theorem replace_atomic : Atomic (Owned owner id) (replace owner id key val) r :=
  Atomic.peek_bind fun old _ => (put_atomic hinv).bind_pure fun _ => old

/-- The sum is computed before it is put. -/
theorem addCore_atomic {delta : Value} {zeroBase : Bool} {deltaErr targetErr overflowErr : String} :
    Atomic (Owned owner id)
      (addCore owner id key delta zeroBase deltaErr targetErr overflowErr) r :=
  Atomic.peek_bind fun _ _ => Atomic.peek_bind fun val _ =>
    (put_atomic hinv).bind_pure fun _ => val

end

/-- A difference is an integer. -/
theorem uintSubChecked_isNil {left right val : Value} (h : uintSubChecked left right = .ok val) :
    val.isNil = false := by
  cases left with
  | uint a n =>
    cases right with
    | uint b m =>
      replace h := check_drop h
      cases h
      rfl
    | _ => cases h
  | _ => cases right <;> cases h

section

variable (hinv : IntentInv r)
include hinv

theorem sub_atomic {delta : Value} : Atomic (Owned owner id) (sub owner id key delta) r := by
  refine Atomic.peek_bind fun val hval => ?_
  replace hval := check_drop hval
  obtain ⟨_, -, hval⟩ := bind_eq_ok hval
  obtain ⟨_, -, hval⟩ := bind_eq_ok hval
  obtain ⟨_, -, hval⟩ := bind_eq_ok hval
  replace hval := check_drop hval
  obtain ⟨_, -, hval⟩ := bind_eq_ok hval
  replace hval := check_drop hval
  exact (changeData_put hinv (uintSubChecked_isNil hval)).bind_pure fun _ => val

theorem append_atomic : Atomic (Owned owner id) (append owner id key val) r :=
  Atomic.peek_bind fun buf _ => (put_atomic hinv).bind_pure fun _ => buf.length

/-- The conditional operations test before they change. -/
theorem putIfAbsent_atomic : Atomic IntentInv (putIfAbsent owner id key val) r := by
  refine Atomic.peek_bind fun existed h => ?_
  cases existed with
  | true => exact .pure hinv false
  | false =>
    exact ((changeData_put hinv (preparePutMode_ok h)).bind_pure fun _ => true).mono
      fun _ => inv

theorem replaceIf_atomic {newVal : Value} :
    Atomic IntentInv (replaceIf owner id key oldVal newVal) r := by
  refine Atomic.peek_bind fun hit h => ?_
  obtain ⟨_, hnil, -⟩ := bind_eq_ok h
  cases hit with
  | none => exact .pure hinv false
  | some _ =>
    exact ((changeData_put hinv (validateNonNilScalar_ok hnil)).bind_pure fun _ => true).mono
      fun _ => inv

theorem delIf_atomic : Atomic IntentInv (delIf owner id key oldVal) r := by
  refine Atomic.peek_bind fun hit _ => ?_
  cases hit with
  | none => exact .pure hinv false
  | some _ => exact ((changeData_remove hinv).bind_pure fun _ => true).mono fun _ => inv

theorem takeIf_atomic : Atomic IntentInv (takeIf owner id key oldVal) r := by
  refine Atomic.peek_bind fun hit _ => ?_
  cases hit with
  | none => exact (Atomic.peek hinv _).bind_pure fun existing => (false, existing)
  | some v => exact ((changeData_remove hinv).bind_pure fun _ => (true, v)).mono fun _ => inv

theorem destroyIfEmpty_atomic : Atomic IntentInv (destroyIfEmpty owner id) r := by
  refine Atomic.peek_bind fun n _ => ?_
  by_cases hn : 0 < n
  · rw [if_pos hn]
    exact .pure hinv false
  · rw [if_neg hn]
    exact (destroy_atomic hinv).bind_pure fun _ => true

theorem putIfAbsentOrMatch_atomic : Atomic IntentInv (putIfAbsentOrMatch owner id key val) r := by
  refine Atomic.peek_bind fun existed h => ?_
  cases existed with
  | true => exact .peek hinv _
  | false =>
    exact ((changeData_put hinv (preparePutMode_ok h)).bind_pure fun _ => true).mono
      fun _ => inv

end

/-! ## Batches and moves -/

/-- The key of a map that allows its length. -/
theorem key_of {m : KVMap} (hkey : key.extractKeyBytes .memoryError = .ok bytes)
    (hle : bytes.length ≤ m.keyMax) : m.key .memoryError key = .ok bytes := by
  rw [KVMap.key, hkey, ok_bind, check_of _ _ hle, ok_bind]
  rfl

/-- What a batch has checked of a key. -/
def KeyOk (keyMax : ℕ) (key : Value) (bytes : List UInt8) : Prop :=
  key.extractKeyBytes .memoryError = .ok bytes ∧ bytes.length ≤ keyMax

/-- A checked key is looked up without an error. -/
theorem containsKey_of (hkey : KeyOk r.keyMaxBytes key bytes) (hmax : data.keyMax = r.keyMaxBytes) :
    containsKey data key = .ok (decide (bytes ∈ data.datas)) := by
  rw [containsKey, KVMap.containsKey, key_of hkey.1 (hmax ▸ hkey.2), ok_bind]
  rfl

/-- Removals of keys that were checked do not fail. -/
theorem removeLoop_succeeds (howned : Owned owner id r)
    (hkeys : ∀ key ∈ keys, ∃ bytes, KeyOk r.keyMaxBytes key bytes) :
    Succeeds (fun _ => Owned owner id)
      (keys.forM fun key => changeData owner id (remove · key)) r := by
  induction keys generalizing r with
  | nil => exact ⟨(), r, rfl, howned⟩
  | cons key keys ih =>
    obtain ⟨hinv, entry, hentry⟩ := howned
    obtain ⟨⟨bytes, hkey, hle⟩, hkeys⟩ := forall_mem_cons.mp hkeys
    have hlookup := (requireRef_iff.mp hentry).2
    have hb := hinv.entries owner id entry hlookup
    have hremove : remove entry.data key =
        .ok { entry.data with datas := entry.data.datas.erase bytes } :=
      KVMap.remove_of (key_of hkey (hb.keyMax_eq ▸ hle))
    refine step (changeData_of hentry hremove) ?_
    exact ih ⟨inv_setEntry hinv hlookup (hb.remove hremove), _, requireRef_setEntry hentry⟩ hkeys

/-- Writes of pairs that were checked do not fail, if there is room for the new keys. -/
theorem putLoop_succeeds {bytess : List (List UInt8)}
    {keyMax : ℕ} (hinv : IntentInv r) (hmax : r.keyMaxBytes = keyMax)
    (hentry : r.requireRef owner id = .ok entry)
    (hpairs : List.Forall₂ (fun p bytes => KeyOk keyMax p.1 bytes ∧ p.2.isNil = false ∧
      p.2.isScalar = true) pairs bytess) (hnodup : bytess.Nodup)
    (hroom : entry.data.len + bytess.countP (fun b => decide (b ∉ entry.data.datas)) ≤ r.keyLimit) :
    Succeeds (fun _ => IntentInv)
      (pairs.forM fun p => changeData owner id (MKVMap.put · p.1 p.2)) r := by
  induction hpairs generalizing r entry with
  | nil => exact ⟨(), r, rfl, hinv⟩
  | @cons p bytes pairs bytess hp _ ih =>
    obtain ⟨⟨hkey, hle⟩, hnil, hscalar⟩ := hp
    obtain ⟨hnotmem, hnodup⟩ := nodup_cons.mp hnodup
    have hlookup := (requireRef_iff.mp hentry).2
    have hb := hinv.entries owner id entry hlookup
    have hfree : bytes ∈ entry.data.datas ∨ entry.data.len < entry.data.limit := by
      by_cases hmem : bytes ∈ entry.data.datas
      · exact .inl hmem
      · right
        rw [countP_cons_of_pos (by simpa using hmem)] at hroom
        rw [hb.limit_eq]
        omega
    have hput : MKVMap.put entry.data p.1 p.2 =
        .ok { entry.data with datas := entry.data.datas.insert bytes p.2 } :=
      KVMap.put_of (key_of hkey (hb.keyMax_eq.trans hmax ▸ hle)) hscalar hfree
    refine step (changeData_of hentry hput) ?_
    refine ih (inv_setEntry hinv hlookup (hb.put hnil hput)) hmax (requireRef_setEntry hentry)
      hnodup ?_
    -- the pairs that are left have other keys, so as many of them are new as before
    have hrest : bytess.countP (fun b => decide (b ∉ entry.data.datas.insert bytes p.2)) =
        bytess.countP (fun b => decide (b ∉ entry.data.datas)) := by
      refine countP_congr fun b hmem => ?_
      have hne : b ≠ bytes := fun heq => hnotmem (heq ▸ hmem)
      simp [mem_insert, hne]
    show (entry.data.datas.insert bytes p.2).entries.length + _ ≤ r.keyLimit
    rw [hrest]
    by_cases hmem : bytes ∈ entry.data.datas
    · rw [length_insert_of_mem hmem]
      rw [countP_cons_of_neg (by simpa using hmem)] at hroom
      exact hroom
    · rw [length_insert_of_notMem hmem]
      rw [countP_cons_of_pos (by simpa using hmem), KVMap.len] at hroom
      omega

/-- What the first loop of `put_many` checks. -/
theorem checkPairs_ok {uniq : List (List UInt8)} (h : r.checkPairs uniq pairs = .ok u) :
    ∃ bytess : List (List UInt8), List.Forall₂ (fun p bytes => KeyOk r.keyMaxBytes p.1 bytes ∧
      p.2.isNil = false ∧ p.2.isScalar = true) pairs bytess ∧ bytess.Nodup ∧
        ∀ b ∈ bytess, b ∉ uniq := by
  induction pairs generalizing uniq with
  | nil => exact ⟨[], .nil, nodup_nil, nofun⟩
  | cons p pairs ih =>
    obtain ⟨_, hvalid, h⟩ := bind_eq_ok h
    obtain ⟨bytes, hbytes, h⟩ := bind_eq_ok h
    obtain ⟨hnew, h⟩ := check_bind_iff.mp h
    obtain ⟨bytess, hpairs, hnodup, huniq⟩ := ih h
    refine ⟨bytes :: bytess, .cons ⟨extractIntentKeyBytes_ok hbytes,
      validateKeyValueForPut_ok hvalid⟩ hpairs, nodup_cons.mpr ⟨?_, hnodup⟩, ?_⟩
    · exact fun hmem => huniq bytes hmem mem_cons_self
    · exact forall_mem_cons.mpr
        ⟨hnew, fun b hb hmem => huniq b hb (mem_cons_of_mem _ hmem)⟩

/-- The second loop counts the new keys. -/
theorem countNew_of {bytess : List (List UInt8)} (hmax : data.keyMax = r.keyMaxBytes)
    (hpairs : List.Forall₂ (fun p bytes => KeyOk r.keyMaxBytes p.1 bytes ∧ p.2.isNil = false ∧
      p.2.isScalar = true) pairs bytess) :
    countNew data pairs = .ok (bytess.countP fun b => decide (b ∉ data.datas)) := by
  induction hpairs with
  | nil => rfl
  | @cons p bytes pairs bytess hp _ ih =>
    rw [countNew, containsKey_of hp.1 hmax, ok_bind, ih, ok_bind]
    by_cases hmem : bytes ∈ data.datas
    · rw [countP_cons_of_neg (by simpa using hmem), decide_eq_true hmem]
      rfl
    · rw [countP_cons_of_pos (by simpa using hmem), decide_eq_false hmem]
      rfl

/-- All pairs are checked before the first is put. -/
theorem putMany_atomic (hinv : IntentInv r) : Atomic IntentInv (putMany owner id pairs) r := by
  refine Atomic.peek_bind fun _ h => ?_
  obtain ⟨_, hpairs, h⟩ := bind_eq_ok h
  obtain ⟨entry, hentry, h⟩ := bind_eq_ok h
  obtain ⟨add, hadd, h⟩ := bind_eq_ok h
  replace h := check_drop h
  obtain ⟨bytess, hpairs, hnodup, -⟩ := checkPairs_ok hpairs
  have hb := hinv.entries owner id entry (requireRef_iff.mp hentry).2
  rw [countNew_of hb.keyMax_eq hpairs] at hadd
  cases hadd
  refine atomic (putLoop_succeeds hinv rfl hentry hpairs hnodup ?_)
  rw [← hinv.keyLimit]
  exact of_check h

/-- What passes the check are keys. -/
theorem uniqueKeys_ok {uniq : List (List UInt8)}
    (h : r.uniqueKeys op uniq keys = .ok u) :
    ∀ key ∈ keys, ∃ bytes, KeyOk r.keyMaxBytes key bytes := by
  induction keys generalizing uniq with
  | nil => exact nofun
  | cons key keys ih =>
    obtain ⟨bytes, hbytes, h⟩ := bind_eq_ok h
    replace h := check_drop h
    exact forall_mem_cons.mpr ⟨⟨bytes, extractIntentKeyBytes_ok hbytes⟩, ih h⟩

section

variable (hinv : IntentInv r)
include hinv

/-- All keys are checked before the first is removed. -/
theorem batchRemoveCore_atomic : Atomic (Owned owner id) (batchRemoveCore owner id keys op) r := by
  refine Atomic.peek_bind fun _ h => ?_
  obtain ⟨_, hkeys, h⟩ := bind_eq_ok h
  obtain ⟨entry, hentry, -⟩ := bind_eq_ok h
  exact atomic (removeLoop_succeeds ⟨hinv, entry, hentry⟩ (uniqueKeys_ok hkeys))

theorem delMany_atomic : Atomic (Owned owner id) (delMany owner id keys) r :=
  (batchRemoveCore_atomic hinv).bind_pure fun _ => keys.length

theorem takePairs_atomic : Atomic (Owned owner id) (takePairs owner id keys op) r :=
  Atomic.peek_bind fun pairs _ => (batchRemoveCore_atomic hinv).bind_pure fun _ => pairs

theorem takeMany_atomic : Atomic (Owned owner id) (takeMany owner id keys) r :=
  (takePairs_atomic hinv).bind_pure fun pairs => pairs.map Prod.snd

theorem takeMap_atomic : Atomic (Owned owner id) (takeMap owner id keys) r :=
  (takePairs_atomic hinv).bind_pure sortedPairs

end

/-- After something was taken the intent is still there, and can be destroyed. -/
theorem destroyIfNowEmpty_succeeds (howned : Owned owner id r) :
    Succeeds (fun _ => IntentInv) (destroyIfNowEmpty owner id) r := by
  obtain ⟨hinv, entry, hentry⟩ := howned
  have hlen : r.len owner id = .ok entry.data.len := by
    rw [len, hentry, ok_bind]
    rfl
  refine step (peek_ok hlen) ?_
  by_cases hn : entry.data.len = 0
  · rw [if_pos hn]
    exact destroy_succeeds hinv (requireRef_iff.mp hentry).1
  · rw [if_neg hn]
    exact ⟨(), r, rfl, hinv⟩

/-- A program that ends with the intent in place may destroy it. -/
theorem thenDestroy_atomic {α : Type} {m : IntentM α} (hm : Atomic (Owned owner id) m r) :
    Atomic IntentInv (do let val ← m; destroyIfNowEmpty owner id; return val) r := by
  rw [Atomic] at hm ⊢
  cases hrun : m r with
  | error e t =>
    rw [hrun] at hm
    rw [bind_error hrun]
    exact hm
  | ok val t =>
    rw [hrun] at hm
    rw [bind_ok hrun]
    obtain ⟨_, t', hrun', hinv⟩ := destroyIfNowEmpty_succeeds hm
    rw [bind_ok hrun']
    exact hinv

/-- A consumed intent that is empty is destroyed. -/
theorem consume_atomic (hinv : IntentInv r) : Atomic IntentInv (consume owner id key) r :=
  thenDestroy_atomic (take_atomic hinv)

theorem consumeMany_atomic (hinv : IntentInv r) : Atomic IntentInv (consumeMany owner id keys) r :=
  thenDestroy_atomic (takeMany_atomic hinv)

theorem validateIntentKey_ok (h : r.validateIntentKey key = .ok u) :
    ∃ bytes, KeyOk r.keyMaxBytes key bytes := by
  obtain ⟨bytes, hbytes, -⟩ := bind_eq_ok h
  exact ⟨bytes, extractIntentKeyBytes_ok hbytes⟩

/-- A moved key frees the room for the key that it is moved to. -/
theorem moveKey_atomic (hinv : IntentInv r) {srcKey dstKey : Value} :
    Atomic IntentInv (moveKey owner id srcKey dstKey) r := by
  refine Atomic.peek_bind fun val h => ?_
  obtain ⟨_, hsrc, h⟩ := bind_eq_ok h
  obtain ⟨_, hdst, h⟩ := bind_eq_ok h
  obtain ⟨entry, hentry, h⟩ := bind_eq_ok h
  obtain ⟨src, hcontains, h⟩ := bind_eq_ok h
  obtain ⟨hthere, h⟩ := check_bind_iff.mp h
  obtain ⟨dst, -, h⟩ := bind_eq_ok h
  replace h := check_drop h
  obtain ⟨_, -, h⟩ := bind_eq_ok h
  obtain ⟨_, hvalid, h⟩ := bind_eq_ok h
  cases h
  obtain ⟨bytes, hsrc⟩ := validateIntentKey_ok hsrc
  obtain ⟨bytes', hdst⟩ := validateIntentKey_ok hdst
  obtain ⟨hnil, hscalar⟩ := validateKeyValueForPut_ok hvalid
  have hlookup := (requireRef_iff.mp hentry).2
  have hb := hinv.entries owner id entry hlookup
  rw [containsKey_of hsrc hb.keyMax_eq] at hcontains
  have hmem : bytes ∈ entry.data.datas := by
    cases hcontains
    exact of_decide_eq_true hthere
  have hremove : remove entry.data srcKey =
      .ok { entry.data with datas := entry.data.datas.erase bytes } :=
    KVMap.remove_of (key_of hsrc.1 (hb.keyMax_eq ▸ hsrc.2))
  have hb' := hb.remove hremove
  refine atomic (step (changeData_of hentry hremove) ?_)
  have hroom : (entry.data.datas.erase bytes).entries.length < entry.data.limit := by
    rw [hb.limit_eq]
    exact lt_of_lt_of_le (length_erase_of_mem hmem) hb.len_le
  have hput : MKVMap.put { entry.data with datas := entry.data.datas.erase bytes } dstKey val =
      .ok { entry.data with datas := (entry.data.datas.erase bytes).insert bytes' val } :=
    KVMap.put_of (key_of hdst.1 (hb.keyMax_eq ▸ hdst.2)) hscalar (.inr hroom)
  have hinv' := inv_setEntry hinv hlookup hb'
  have hentry' := @requireRef_setEntry r owner id entry
    { entry with data := { entry.data with datas := entry.data.datas.erase bytes } } hentry
  exact ⟨(), _, changeData_of hentry' hput,
    inv_setEntry hinv' (requireRef_iff.mp hentry').2 (hb'.put hnil hput)⟩

end IntentRuntime

open IntentRuntime in
/-- **Every operation is all or nothing.** -/
theorem IntentOp.atomic {r : IntentRuntime} (hinv : IntentInv r) (owner : ContractAddress)
    (op : IntentOp) : Atomic IntentInv (op.exec owner) r := by
  have hweak : ∀ {α : Type} {id : ℕ} {m : IntentM α}, Atomic (Owned owner id) m r →
      Atomic IntentInv m r := fun h => h.mono fun _ => Owned.inv
  cases op with
  | create name => exact (create_atomic hinv name).map _
  | put id key val => exact (hweak (put_atomic hinv)).map _
  | existsIntent id =>
    exact Atomic.peek hinv fun r => .ok (IntentOut.bool (r.existsIntent id))
  | take id key => exact (hweak (take_atomic hinv)).map _
  | del id key => exact (hweak (del_atomic hinv)).map _
  | clearData id => exact (hweak (clearData_atomic hinv)).map _
  | replace id key val => exact (hweak (replace_atomic hinv)).map _
  | destroy id => exact (destroy_atomic hinv).map _
  | append id key val => exact (hweak (append_atomic hinv)).map _
  | add id key delta => exact (hweak (addCore_atomic hinv)).map _
  | sub id key delta => exact (hweak (sub_atomic hinv)).map _
  | inc id key delta => exact (hweak (addCore_atomic hinv)).map _
  | putIfAbsent id key val => exact (putIfAbsent_atomic hinv).map _
  | replaceIf id key oldVal newVal => exact (replaceIf_atomic hinv).map _
  | delIf id key oldVal => exact (delIf_atomic hinv).map _
  | takeIf id key oldVal => exact (takeIf_atomic hinv).map _
  | destroyIfEmpty id => exact (destroyIfEmpty_atomic hinv).map _
  | moveKey id srcKey dstKey => exact (moveKey_atomic hinv).map _
  | openIdsByKind name =>
    exact Atomic.peek hinv fun r => .ok (IntentOut.ids (r.openIdsByKind owner name))
  | putMany id pairs => exact (putMany_atomic hinv).map _
  | putIfAbsentOrMatch id key val => exact (putIfAbsentOrMatch_atomic hinv).map _
  | delMany id keys => exact (hweak (delMany_atomic hinv)).map _
  | takeMany id keys => exact (hweak (takeMany_atomic hinv)).map _
  | takeMap id keys => exact (hweak (takeMap_atomic hinv)).map _
  | consume id key => exact (consume_atomic hinv).map _
  | consumeMany id keys => exact (consumeMany_atomic hinv).map _
  | _ => exact (Atomic.peek hinv _).map _

/-! ## Ownership -/

/-- The intents of the others are as they were. -/
def OthersKept (owner : ContractAddress) (r t : IntentRuntime) : Prop :=
  ∀ a, a ≠ owner → t.buckets a = r.buckets a

/-- Two runtimes that differ in the intents of the others only. -/
structure SameFor (owner : ContractAddress) (r r' : IntentRuntime) : Prop where
  shared : r' = { r with buckets := r'.buckets }
  own : r'.buckets owner = r.buckets owner

/-- A program of a contract that neither changes nor reads the intents of the others. -/
structure Confined (owner : ContractAddress) {α : Type} (m : IntentM α) : Prop where
  leaves : Leaves (OthersKept owner) m
  blind : Blind (SameFor owner) m

namespace Confined

variable {owner : ContractAddress} {α β : Type}

protected theorem pure (a : α) : Confined owner (pure a : IntentM α) :=
  ⟨.pure (fun _ _ _ => rfl) a, .pure a⟩

protected theorem bind {m : IntentM α} {k : α → IntentM β} (hm : Confined owner m)
    (hk : ∀ a, Confined owner (k a)) : Confined owner (m >>= k) :=
  ⟨.bind (fun _ _ _ h h' a ha => (h' a ha).trans (h a ha)) hm.leaves fun a => (hk a).leaves,
    .bind hm.blind fun a => (hk a).blind⟩

protected theorem map {m : IntentM α} (hm : Confined owner m) (f : α → β) :
    Confined owner (f <$> m) :=
  ⟨hm.leaves.map f, hm.blind.map f⟩

protected theorem forM {f : α → IntentM PUnit} (hf : ∀ a, Confined owner (f a)) (l : List α) :
    Confined owner (l.forM f) :=
  ⟨.forM (fun _ _ _ => rfl) (fun _ _ _ h h' a ha => (h' a ha).trans (h a ha))
    (fun a => (hf a).leaves) l, .forM (fun a => (hf a).blind) l⟩

/-- A look at the own intents and at what all contracts share. -/
protected theorem peek {f : IntentRuntime → VmrtRes α}
    (hf : ∀ r b, b owner = r.buckets owner → f { r with buckets := b } = f r) :
    Confined owner (peek f) := by
  refine ⟨.peek (fun _ _ _ => rfl) f, .peek fun r r' h => ?_⟩
  rw [h.shared]
  exact (hf r r'.buckets h.own).symm

end Confined

namespace IntentRuntime

variable {r : IntentRuntime} {owner : ContractAddress} {id : ℕ}
  {b : ContractAddress → AList fun _ : ℕ => IntentEntry}

/-- A lookup reads the bucket of its owner. -/
theorem requireRef_buckets (hb : b owner = r.buckets owner) :
    requireRef { r with buckets := b } owner id = r.requireRef owner id := by
  rw [requireRef, requireRef]
  simp only [hb]
  rfl

/-- A change touches the bucket of its owner only. -/
theorem changeData_confined (f : KVMap → VmrtRes KVMap) :
    Confined owner (changeData owner id f) := by
  constructor
  · intro r a ha
    obtain ⟨e, hrun⟩ | ⟨entry, data, -, -, hrun⟩ :=
      changeData_cases owner id f r
    · rw [finalState, hrun]
    · rw [finalState, hrun]
      exact update_of_ne ha _ _
  · intro r r' h
    rw [h.shared, changeData, changeData, requireRef_buckets h.own]
    cases r.requireRef owner id with
    | error e => exact ⟨rfl, rfl, h.own⟩
    | ok entry =>
      dsimp only
      cases f entry.data with
      | error e => exact ⟨rfl, rfl, h.own⟩
      | ok data =>
        refine ⟨rfl, rfl, ?_⟩
        simp only [setEntry, update_self, h.own]

theorem destroy_confined : Confined owner (destroy owner id) := by
  refine .bind (.peek fun r b _ => rfl) fun _ => ⟨fun r a ha => ?_, ?_⟩
  · exact update_of_ne ha _ _
  · refine .modify fun r r' h => ?_
    rw [h.shared]
    refine ⟨rfl, ?_⟩
    simp only [update_self, h.own]

theorem create_confined (kind : List UInt8) : Confined owner (create owner kind) := by
  refine .bind (.peek fun r b hb => ?_) fun _ =>
    .bind (.peek fun r b _ => rfl) fun next => .bind ⟨fun r a ha => ?_, ?_⟩ fun _ => .pure next
  · simp only [openIdsByKind, hb]
    rfl
  · exact update_of_ne ha _ _
  · refine .modify fun r r' h => ?_
    rw [h.shared]
    refine ⟨rfl, ?_⟩
    simp only [update_self, h.own]

/-! ### Looks -/

variable {key val : Value}

section

variable (hb : b owner = r.buckets owner)
include hb

theorem preparePutMode_buckets :
    preparePutMode { r with buckets := b } owner id key val =
      r.preparePutMode owner id key val := by
  simp only [preparePutMode, requireRef_buckets hb]
  rfl

/-- Reads depend on the bucket of their owner only. -/
theorem get_buckets :
    get { r with buckets := b } owner id key = r.get owner id key := by
  simp only [get, requireRef_buckets hb]
  rfl

theorem require_buckets :
    require { r with buckets := b } owner id key = r.require owner id key := by
  simp only [require, get_buckets hb]

theorem keysSorted_buckets :
    keysSorted { r with buckets := b } owner id = r.keysSorted owner id := by
  simp only [keysSorted, requireRef_buckets hb]

theorem len_buckets :
    len { r with buckets := b } owner id = r.len owner id := by
  simp only [len, requireRef_buckets hb]

theorem conditionalOpCore_buckets :
    conditionalOpCore { r with buckets := b } owner id key val =
      r.conditionalOpCore owner id key val := by
  simp only [conditionalOpCore, require_buckets hb]

end

theorem uniqueKeys_buckets (op : String) (uniq : List (List UInt8)) (keys : List Value) :
    uniqueKeys { r with buckets := b } op uniq keys = r.uniqueKeys op uniq keys := by
  induction keys generalizing uniq with
  | nil => rfl
  | cons key keys ih =>
    simp only [uniqueKeys, ih]
    rfl

theorem checkPairs_buckets (uniq : List (List UInt8)) (pairs : List (Value × Value)) :
    checkPairs { r with buckets := b } uniq pairs = r.checkPairs uniq pairs := by
  induction pairs generalizing uniq with
  | nil => rfl
  | cons p pairs ih =>
    obtain ⟨key, val⟩ := p
    simp only [checkPairs, ih]
    rfl

theorem batchReadCore_buckets (hb : b owner = r.buckets owner) (keys : List Value) (op : String) :
    batchReadCore { r with buckets := b } owner id keys op =
      r.batchReadCore owner id keys op := by
  simp only [batchReadCore, ensureUniqueBatchKeys, uniqueKeys_buckets, requireRef_buckets hb]
  rfl

theorem put_confined : Confined owner (put owner id key val) :=
  .bind (.peek fun _ _ hb => preparePutMode_buckets hb) fun _ => changeData_confined _

theorem take_confined : Confined owner (take owner id key) :=
  .bind (.peek fun _ _ hb => require_buckets hb) fun val =>
    .bind (changeData_confined _) fun _ => .pure val

theorem addCore_confined {delta : Value} {zeroBase : Bool}
    {deltaErr targetErr overflowErr : String} :
    Confined owner (addCore owner id key delta zeroBase deltaErr targetErr overflowErr) := by
  refine .bind (.peek fun r b hb => ?_) fun base =>
    .bind (.peek fun _ _ _ => rfl) fun val => .bind put_confined fun _ => .pure val
  simp only [addBase, requireRef_buckets hb]
  rfl

/-- A batch removes from the bucket of its owner. -/
theorem batchRemoveCore_confined {keys : List Value} {op : String} :
    Confined owner (batchRemoveCore owner id keys op) := by
  refine .bind (.peek fun r b hb => ?_) fun _ => .forM (fun key => changeData_confined _) keys
  simp only [ensureUniqueBatchKeys, uniqueKeys_buckets, requireRef_buckets hb]

theorem takePairs_confined {keys : List Value} {op : String} :
    Confined owner (takePairs owner id keys op) :=
  .bind (.peek fun _ _ hb => batchReadCore_buckets hb keys op) fun pairs =>
    .bind batchRemoveCore_confined fun _ => .pure pairs

theorem destroyIfNowEmpty_confined : Confined owner (destroyIfNowEmpty owner id) := by
  refine .bind (.peek fun _ _ hb => len_buckets hb) fun n => ?_
  split_ifs
  · exact destroy_confined
  · exact .pure ()

/-- **An operation of a contract is confined to its own intents.** -/
theorem exec_confined (owner : ContractAddress) (op : IntentOp) :
    Confined owner (op.exec owner) := by
  cases op with
  | create name => exact (create_confined name).map _
  | put id key val => exact put_confined.map _
  | existsIntent id =>
    exact @Confined.peek owner _ (fun r => .ok (IntentOut.bool (r.existsIntent id)))
      fun _ _ _ => rfl
  | ownerOf id | isOwner id | ensureOwner id => exact .map (.peek fun _ _ _ => rfl) _
  | kind id =>
    exact .map (.peek fun _ _ hb => by simp only [kind, requireRef_buckets hb]) _
  | kindIs id name =>
    exact .map (.peek fun _ _ hb => by simp only [kindIs, requireRef_buckets hb]) _
  | get id key => exact .map (.peek fun _ _ hb => get_buckets hb) _
  | take id key => exact take_confined.map _
  | del id key =>
    exact .map (.bind (.peek fun _ _ hb => require_buckets hb) fun _ => changeData_confined _) _
  | has id key =>
    exact .map (.peek fun _ _ hb => by simp only [has, requireRef_buckets hb]; rfl) _
  | clearData id => exact (changeData_confined _).map _
  | len id => exact .map (.peek fun _ _ hb => len_buckets hb) _
  | keysSorted id => exact .map (.peek fun _ _ hb => keysSorted_buckets hb) _
  | getOr id key dflt =>
    exact .map (.peek fun _ _ hb => by simp only [getOr, requireRef_buckets hb]; rfl) _
  | require id key => exact .map (.peek fun _ _ hb => require_buckets hb) _
  | requireEq id key expected =>
    exact .map (.peek fun _ _ hb => by simp only [requireEq, require_buckets hb]) _
  | requireAbsent id key =>
    exact .map (.peek fun _ _ hb => by simp only [requireAbsent, requireRef_buckets hb]; rfl) _
  | replace id key val =>
    exact .map (.bind (.peek fun _ _ hb => require_buckets hb) fun old =>
      .bind put_confined fun _ => .pure old) _
  | destroy id => exact destroy_confined.map _
  | append id key val =>
    refine .map (.bind (.peek fun _ _ hb => ?_) fun buf =>
      .bind put_confined fun _ => .pure (List.length buf)) _
    simp only [require_buckets hb]
    rfl
  | add id key delta => exact addCore_confined.map _
  | sub id key delta =>
    refine .map (.bind (.peek fun _ _ hb => ?_) fun val =>
      .bind (changeData_confined _) fun _ => .pure val) _
    simp only [requireRef_buckets hb]
    rfl
  | inc id key delta => exact addCore_confined.map _
  | putIfAbsent id key val =>
    refine .map (.bind (.peek fun _ _ hb => preparePutMode_buckets hb) fun existed => ?_) _
    split_ifs
    · exact .pure false
    · exact .bind (changeData_confined _) fun _ => .pure true
  | replaceIf id key oldVal newVal =>
    refine .map (.bind (.peek fun _ _ hb => ?_) fun hit => ?_) _
    · simp only [conditionalOpCore_buckets hb]
      rfl
    · split_ifs
      · exact .bind (changeData_confined _) fun _ => .pure true
      · exact .pure false
  | delIf id key oldVal =>
    refine .map (.bind (.peek fun _ _ hb => conditionalOpCore_buckets hb) fun hit => ?_) _
    split_ifs
    · exact .bind (changeData_confined _) fun _ => .pure true
    · exact .pure false
  | takeIf id key oldVal =>
    refine .map (.bind (.peek fun _ _ hb => conditionalOpCore_buckets hb) fun hit => ?_) _
    cases hit with
    | none =>
      exact .bind (.peek fun _ _ hb => by simp only [requireRef_buckets hb]) fun existing =>
        .pure (false, existing)
    | some val => exact .bind (changeData_confined _) fun _ => .pure (true, val)
  | destroyIfEmpty id =>
    refine .map (.bind (.peek fun _ _ hb => len_buckets hb) fun n => ?_) _
    split_ifs
    · exact .pure false
    · exact .bind destroy_confined fun _ => .pure true
  | keysPage id cursor limit =>
    exact .map (.peek fun _ _ hb => by simp only [keysPage, keysSorted_buckets hb]) _
  | moveKey id srcKey dstKey =>
    refine .map (.bind (.peek fun _ _ hb => ?_) fun val =>
      .bind (changeData_confined _) fun _ => changeData_confined _) _
    simp only [movedValue, requireRef_buckets hb]
    rfl
  | keysAfter id start limit =>
    refine .map (.peek fun _ _ hb => ?_) _
    simp only [keysAfter, keysSorted_buckets hb]
    rfl
  | openIdsByKind name =>
    exact @Confined.peek owner _ (fun r => .ok (IntentOut.ids (r.openIdsByKind owner name)))
      fun _ _ hb => by simp only [openIdsByKind, hb]
  | openKindPage after limit =>
    exact .map (.peek fun _ _ hb => by simp only [openKindPage, hb]) _
  | putMany id pairs =>
    refine .map (.bind (.peek fun _ _ hb => ?_) fun _ =>
      .forM (fun p => changeData_confined _) pairs) _
    simp only [checkPairs_buckets, requireRef_buckets hb]
  | putIfAbsentOrMatch id key val =>
    refine .map (.bind (.peek fun _ _ hb => preparePutMode_buckets hb) fun existed => ?_) _
    split_ifs
    · exact .peek fun _ _ hb => by simp only [requireRef_buckets hb]
    · exact .bind (changeData_confined _) fun _ => .pure true
  | hasAll id keys =>
    refine .map (.peek fun _ _ hb => ?_) _
    simp only [hasAll, ensureUniqueBatchKeys, uniqueKeys_buckets, requireRef_buckets hb]
  | hasAny id keys =>
    refine .map (.peek fun _ _ hb => ?_) _
    simp only [hasAny, ensureUniqueBatchKeys, uniqueKeys_buckets, requireRef_buckets hb]
  | requireMany id keys =>
    exact .map (.peek fun _ _ hb => by simp only [requireMany, batchReadCore_buckets hb]) _
  | requireMap id keys =>
    exact .map (.peek fun _ _ hb => by simp only [requireMap, batchReadCore_buckets hb]) _
  | delMany id keys => exact .map (.bind batchRemoveCore_confined fun _ => .pure _) _
  | takeMany id keys | takeMap id keys =>
    exact .map (.bind takePairs_confined fun pairs => .pure _) _
  | consume id key =>
    exact .map (.bind take_confined fun val =>
      .bind destroyIfNowEmpty_confined fun _ => .pure val) _
  | consumeMany id keys =>
    exact .map (.bind (.bind takePairs_confined fun pairs => .pure _) fun vals =>
      .bind destroyIfNowEmpty_confined fun _ => .pure vals) _

end IntentRuntime

/-! ## Runs -/

/-- A step of the runtime: an operation of a contract, or one of the machine. -/
inductive IntentStep where
  | exec (owner : ContractAddress) (op : IntentOp)
  | clear
  | reset (limits : IntentRuntimeLimits)

/-- The runtime after a step, whether it succeeded or failed. -/
def IntentStep.apply (r : IntentRuntime) : IntentStep → IntentRuntime
  | .exec owner op => finalState (op.exec owner) r
  | .clear => r.clear
  | .reset limits => r.reset limits

/-- The invariant holds along every run. -/
theorem IntentInv.run (steps : List IntentStep) {r : IntentRuntime} (hinv : IntentInv r) :
    IntentInv (steps.foldl IntentStep.apply r) := by
  induction steps generalizing r with
  | nil => exact hinv
  | cons step steps ih =>
    refine ih ?_
    cases step with
    | exec owner op => exact (op.atomic hinv owner).finalState hinv
    | clear => exact hinv.clear
    | reset limits => exact intentInv_reset limits r

/-- **Integrity of the intent runtime.** In every runtime that steps reach: the invariant holds; a
failed operation changes nothing; a new intent gets an unused id; and an operation of a contract
neither changes nor depends on the intents of the others. -/
theorem intent_integrity (limits : IntentRuntimeLimits) (steps : List IntentStep) :
    let r := steps.foldl IntentStep.apply (.new limits)
    IntentInv r ∧
      (∀ owner op e t, IntentOp.exec owner op r = .error e t → t = r) ∧
      (∀ owner kind id t, IntentRuntime.create owner kind r = .ok id t → id ∉ r.owners) ∧
      (∀ owner op other, other ≠ owner →
        let t := finalState (IntentOp.exec owner op) r
        t.buckets other = r.buckets other ∧
          ∀ id, t.owners.lookup id = some other ↔ r.owners.lookup id = some other) ∧
      (∀ owner op r', SameFor owner r r' →
        SameResult (SameFor owner) (IntentOp.exec owner op r) (IntentOp.exec owner op r')) := by
  intro r
  have hinv : IntentInv r := (intentInv_new limits).run steps
  refine ⟨hinv, ?_, ?_, ?_, fun owner op r' h =>
    (IntentRuntime.exec_confined owner op).blind r r' h⟩
  · intro owner op e t hrun
    have hatomic := op.atomic hinv owner
    rw [Atomic, hrun] at hatomic
    exact hatomic
  · intro owner kind id t hrun
    exact IntentRuntime.create_fresh hrun
  · intro owner op other hother t
    have hkept := (IntentRuntime.exec_confined owner op).leaves r other hother
    have hinv' := (op.atomic hinv owner).finalState hinv
    refine ⟨hkept, fun id => ?_⟩
    rw [hinv'.index, hinv.index, hkept]

end Vm

end Hacash
