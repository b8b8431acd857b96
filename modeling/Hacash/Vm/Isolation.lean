import Hacash.Vm.Rent

/-!
# Isolation of contract storage (`vm::state`)

What is written under a context address and a key is read back only under the same address and a key
of the same class. **Key result**: `storage_isolation`.
-/

namespace Hacash

open Lib List AList Function

namespace Vm

/-! ## Slots -/

/-- The class of a key: integers by their value, other keys by their bytes. -/
def SameKey (k k' : Value) : Prop :=
  match k, k' with
  | .uint _ n, .uint _ m => n.val = m.val
  | k, k' => ∃ key, k.extractKeyBytes .storageKeyInvalid = .ok key ∧
      k'.extractKeyBytes .storageKeyInvalid = .ok key

/-- Keys with the same bytes are of one class. -/
theorem SameKey.of_bytes {k k' : Value} {key : List UInt8}
    (h : k.extractKeyBytes .storageKeyInvalid = .ok key)
    (h' : k'.extractKeyBytes .storageKeyInvalid = .ok key) : SameKey k k' := by
  cases k with
  | uint ty n =>
    cases k' with
    | uint ty' m =>
      exact (extractKeyBytes_uint_iff ty ty' n m .storageKeyInvalid).mp (h.trans h'.symm)
    | _ => exact ⟨key, h, h'⟩
  | _ => exact ⟨key, h, h'⟩

theorem encodeCtrtKvSlot_inj {hash : VmHash} {S : Set (List UInt8)} (hinj : S.InjOn hash.sha3)
    {cadr cadr' : Address} {key key' : List UInt8} (hmem : cadr.bytes ++ key ∈ S)
    (hmem' : cadr'.bytes ++ key' ∈ S)
    (h : encodeCtrtKvSlot hash cadr key = encodeCtrtKvSlot hash cadr' key') :
    cadr = cadr' ∧ key = key' := by
  have happend : cadr.bytes ++ key = cadr'.bytes ++ key' := by
    rw [encodeCtrtKvSlot, encodeCtrtKvSlot] at h
    -- the tag tells a plain slot from a hashed one
    split_ifs at h
    · exact hinj hmem hmem' (Hash.eq_of_bytes (cons.inj h).2)
    · cases h
    · cases h
    · exact (cons.inj h).2
  obtain ⟨hcadr, hkey⟩ := append_inj happend (cadr.size.trans cadr'.size.symm)
  exact ⟨Address.eq_of_bytes hcadr, hkey⟩

theorem skey_ok {hash : VmHash} {cadr : Address} {k : Value} {keyMax : ℕ} {sk : List UInt8}
    (h : skey hash cadr k keyMax = .ok sk) : ∃ key, k.extractKeyBytes .storageKeyInvalid = .ok key ∧
      sk = encodeCtrtKvSlot hash cadr key := by
  replace h := check_drop h
  obtain ⟨key, hkey, h⟩ := bind_eq_ok h
  replace h := check_drop h
  cases h
  exact ⟨key, hkey, rfl⟩

/-! ## Only the slot of the key -/

section

variable {hash : VmHash} {gst : GasExtra} {cap : SpaceCap} {cadr : Address} {k : Value}
  {curhei : ℕ} {s s' : VMState}

/-- The slot of a key and no other is changed; none if the key has no slot. -/
def OnlyKey (hash : VmHash) (cap : SpaceCap) (cadr : Address) (k : Value) (s s' : VMState) : Prop :=
  s' = s ∨ ∃ sk, skey hash cadr k cap.kvKeySize = .ok sk ∧ OnlySlot sk s s'

theorem withSlot_onlyKey {α β : Type} {slot : VmrtRes (List UInt8 × α)}
    {body : α → Option ValueSto → VmrtRes (β × SlotWrite)}
    (hslot : ∀ sk a, slot = .ok (sk, a) → skey hash cadr k cap.kvKeySize = .ok sk) :
    OnlyKey hash cap cadr k s (withSlot curhei gst slot body s).1 := by
  cases hs : slot with
  | error e => exact Or.inl rfl
  | ok p =>
    obtain ⟨sk, a⟩ := p
    exact Or.inr ⟨sk, hslot sk a hs, (withSlot_ok rfl rfl).1⟩

theorem skey_of_plainSlot (sk : List UInt8) (u : Unit)
    (h : plainSlot hash cap cadr k = .ok (sk, u)) : skey hash cadr k cap.kvKeySize = .ok sk := by
  obtain ⟨sk', hsk, h⟩ := bind_eq_ok h
  cases h
  exact hsk

theorem skey_of_periodSlot {p : Value} {maxPeriod : ℕ} (sk : List UInt8) (period : ℕ)
    (h : (do
      let period ← parsePeriod p maxPeriod
      let sk ← skey hash cadr k cap.kvKeySize
      return (sk, period)) = (.ok (sk, period) : VmrtRes (List UInt8 × ℕ))) :
    skey hash cadr k cap.kvKeySize = .ok sk := by
  obtain ⟨n, -, h⟩ := bind_eq_ok h
  obtain ⟨sk', hsk, h⟩ := bind_eq_ok h
  cases h
  exact hsk

theorem sdel_onlyKey : OnlyKey hash cap cadr k s (sdel hash gst cap curhei cadr k s).1 := by
  cases hsk : skey hash cadr k cap.kvKeySize with
  | error e =>
    left
    simp only [sdel, hsk]
  | ok sk =>
    refine Or.inr ⟨sk, hsk, ?_⟩
    simp only [sdel, hsk]
    cases s.ctrtkvdb sk with
    | none => exact .refl sk s
    | some v =>
      dsimp only
      cases v.reload >>= fun v => v.settle curhei gst with
      | error e => exact .refl sk s
      | ok v' =>
        dsimp only
        split_ifs
        · exact onlySlot_write s sk .del
        · exact onlySlot_write s sk .del

/-- **A storage operation changes the slot of its key at most**, also when it fails. -/
theorem StorageOp.onlyKey (op : StorageOp) :
    OnlyKey hash cap cadr k s (op.exec hash gst cap cadr k curhei s).1 := by
  cases op with
  | snew v p =>
    show OnlyKey hash cap cadr k s (Vm.snew hash gst cap curhei cadr k v p s).1
    refine withSlot_onlyKey fun sk a h => ?_
    obtain ⟨_, -, h⟩ := bind_eq_ok h
    obtain ⟨_, -, h⟩ := bind_eq_ok h
    exact skey_of_periodSlot sk a h
  | sedit v =>
    refine withSlot_onlyKey fun sk a h => ?_
    obtain ⟨_, -, h⟩ := bind_eq_ok h
    obtain ⟨_, -, h⟩ := bind_eq_ok h
    exact skey_of_plainSlot sk a h
  | spatch expected patchSet =>
    show OnlyKey hash cap cadr k s (Vm.spatch hash gst cap curhei cadr k expected patchSet s).1
    exact withSlot_onlyKey skey_of_plainSlot
  | srent p =>
    show OnlyKey hash cap cadr k s (Vm.srent hash gst cap curhei cadr k p s).1
    exact withSlot_onlyKey skey_of_periodSlot
  | srecv p =>
    show OnlyKey hash cap cadr k s (Vm.srecv hash gst cap curhei cadr k p s).1
    exact withSlot_onlyKey skey_of_periodSlot
  | sdel => exact sdel_onlyKey
  | sload =>
    show OnlyKey hash cap cadr k s (Vm.sload hash gst cap curhei cadr k s).1
    exact withSlot_onlyKey skey_of_plainSlot
  | sstat =>
    show OnlyKey hash cap cadr k s (Vm.sstat hash gst cap curhei cadr k s).1
    exact withSlot_onlyKey skey_of_plainSlot

theorem withSlot_congr {α β : Type} {slot : VmrtRes (List UInt8 × α)}
    {body : α → Option ValueSto → VmrtRes (β × SlotWrite)}
    (h : ∀ sk a, slot = .ok (sk, a) → s'.ctrtkvdb sk = s.ctrtkvdb sk) :
    (withSlot curhei gst slot body s').2 = (withSlot curhei gst slot body s).2 := by
  cases slot with
  | error e => rfl
  | ok p =>
    obtain ⟨sk, a⟩ := p
    have hfetch : (sfetch curhei gst sk s').2 = (sfetch curhei gst sk s).2 := by
      rw [sfetch, sfetch, h sk a rfl]
      cases s.ctrtkvdb sk with
      | none => rfl
      | some v =>
        dsimp only
        cases v.reload >>= fun v => v.settle curhei gst with
        | error e => rfl
        | ok v' =>
          dsimp only
          split_ifs <;> rfl
    simp only [withSlot]
    revert hfetch
    cases sfetch curhei gst sk s' with
    | mk t r =>
      cases sfetch curhei gst sk s with
      | mk t' r' =>
        rintro rfl
        cases r with
        | error e => rfl
        | ok fetched =>
          dsimp only
          cases body a fetched with
          | error e | ok q => rfl

end

/-! ## Status -/

namespace Value

variable {v : Value}

theorem lt_of_fits {n valueMax : ℕ} (h : scalarFieldLenFits n valueMax = true) : n < 65535 :=
  of_decide_eq_true (Bool.and_eq_true_iff.mp h).1

/-- A value that may be put has bytes. -/
theorem encode_of_put {valueMax : ℕ} {ec : ItrErrCode} {u : Unit}
    (h : validateVolatileScalarPut v valueMax ec = .ok u) :
    v.encode = some (v.tyNum :: v.payload) := by
  refine encode_of (validateVolatileScalarPut_ok h).2 ?_
  rintro b rfl
  have hfits := of_check (show check (scalarFieldLenFits b.length valueMax = true) ec
    "value too long, max bytes but got" = .ok u from h)
  exact lt_of_fits hfits

end Value

namespace StatusMap

/-- An entry that can be stored and read back. -/
structure Storable (e : Σ _ : List UInt8, Value) : Prop where
  key : e.1 ≠ []
  nil : e.2.isNil = false
  scalar : e.2.isScalar = true
  supported : e.2.Supported

variable {m : StatusMap} {key : List UInt8} {v : Value}

theorem load_ok (hkey : Storable ⟨key, v⟩)
    (hnew : key ∉ m) : m.load (key, v) = .ok (m.insert key v) := by
  rw [load, check_of _ _ hkey.nil, ok_bind, Value.checkScalar, Value.checkScalarAs,
    check_of _ _ hkey.scalar, ok_bind, check_of _ _ hkey.key, ok_bind, check_of _ _ hnew, ok_bind]
  rfl

/-- The entries that are read in turn. -/
theorem foldlM_load (l : List (Σ _ : List UInt8, Value)) (m : StatusMap) (hnodup : l.NodupKeys)
    (hnew : ∀ e ∈ l, e.1 ∉ m) (hstorable : ∀ e ∈ l, Storable e) :
    ∃ m' : StatusMap, (l.map fun e => (e.1, e.2)).foldlM load m = .ok m' ∧
      m'.entries = l.reverse ++ m.entries := by
  induction l generalizing m with
  | nil => exact ⟨m, rfl, rfl⟩
  | cons e l ih =>
    obtain ⟨hhead, htail⟩ := nodupKeys_cons.mp hnodup
    have hfresh := hnew e mem_cons_self
    obtain ⟨m', hm', hentries⟩ := ih (m.insert e.1 e.2) htail
      (fun x hx hmem => by
        rcases mem_insert m |>.mp hmem with heq | hmem
        · exact hhead (heq ▸ mem_keys_of_mem hx)
        · exact hnew x (mem_cons_of_mem e hx) hmem)
      (fun x hx => hstorable x (mem_cons_of_mem e hx))
    refine ⟨m', ?_, ?_⟩
    · rw [map_cons, foldlM_cons, load_ok (hstorable e mem_cons_self) hfresh, ok_bind]
      exact hm'
    · rw [hentries, entries_insert_of_notMem hfresh, reverse_cons, append_assoc]
      rfl

/-- **A stored status is read back**, entry for entry. -/
theorem fromStorage_toStorage {sto : StatusSto} (h : m.toStorage = .ok sto)
    (hstorable : ∀ e ∈ m.entries, Storable e) :
    ∃ m', fromStorage sto = .ok m' ∧ m'.entries.Perm m.entries := by
  replace h := check_drop h
  replace h := check_drop h
  cases h
  have hnodup : m.items.NodupKeys := (perm_nodupKeys m.items_perm).mpr m.nodupKeys
  obtain ⟨m', hm', hentries⟩ := foldlM_load m.items ∅ hnodup (fun e _ => notMem_empty e.1)
    fun e he => hstorable e (m.items_perm.mem_iff.mp he)
  refine ⟨m', hm', ?_⟩
  rw [hentries, empty_entries, append_nil]
  exact (reverse_perm _).trans m.items_perm

/-- What was read can be stored. -/
theorem fromStorage_storable {sto : StatusSto} (h : fromStorage sto = .ok m)
    (hsto : ∀ item ∈ sto, item.2.Supported) : ∀ e ∈ m.entries, Storable e := by
  suffices hfold : ∀ (sto : StatusSto) (m₀ : StatusMap), (∀ item ∈ sto, item.2.Supported) →
      (∀ e ∈ m₀.entries, Storable e) → sto.foldlM load m₀ = .ok m → ∀ e ∈ m.entries, Storable e from
    hfold sto ∅ hsto (fun e he => absurd he not_mem_nil) h
  intro sto
  induction sto with
  | nil =>
    intro m₀ _ hm₀ h
    cases h
    exact hm₀
  | cons item sto ih =>
    intro m₀ hsupported hm₀ h
    obtain ⟨hitem, hrest⟩ := forall_mem_cons.mp hsupported
    rw [foldlM_cons] at h
    obtain ⟨m₁, hload, h⟩ := bind_eq_ok h
    refine ih m₁ hrest ?_ h
    obtain ⟨hnil, hload⟩ := check_bind_iff.mp hload
    obtain ⟨_, hscalar, hload⟩ := bind_eq_ok hload
    obtain ⟨hkey, hload⟩ := check_bind_iff.mp hload
    obtain ⟨hnew, hload⟩ := check_bind_iff.mp hload
    cases hload
    intro e he
    rw [entries_insert_of_notMem hnew, mem_cons] at he
    rcases he with rfl | he
    · exact ⟨hkey, hnil, of_check hscalar, hitem⟩
    · exact hm₀ e he

section

variable {key' : List UInt8} {m' : StatusMap} (h : m.setOrRemove key v = .ok m')
include h

theorem setOrRemove_get_ne (hne : key' ≠ key) : m'.get key' = m.get key' := by
  rw [setOrRemove] at h
  split_ifs at h with hnil
  · cases h
    rw [get, get, lookup_erase_ne hne]
  · obtain ⟨_, -, h⟩ := bind_eq_ok h
    cases h
    rw [get, get, lookup_insert_ne hne]

theorem setOrRemove_mem {e : Σ _ : List UInt8, Value} (he : e ∈ m'.entries) :
    e = ⟨key, v⟩ ∨ e ∈ m.entries := by
  have hkept : ∀ e ∈ m.entries.kerase key, e ∈ m.entries :=
    fun _ he => (kerase_sublist key m.entries).subset he
  rw [setOrRemove] at h
  split_ifs at h with hnil
  · cases h
    exact Or.inr (hkept e he)
  · obtain ⟨_, -, h⟩ := bind_eq_ok h
    cases h
    rw [entries_insert, mem_cons] at he
    exact he.imp_right (hkept e)

end

/-- What is saved holds storable values. -/
theorem ensureSaveBounds_values {cap : SpaceCap} {u : Unit} (h : m.ensureSaveBounds cap = .ok u) :
    ∀ e ∈ m.entries, e.2.isNil = false ∧ e.2.isScalar = true ∧
      e.2.encode = some (e.2.tyNum :: e.2.payload) := by
  obtain ⟨_, -, h⟩ := bind_eq_ok h
  obtain ⟨_, hvalues, -⟩ := bind_eq_ok h
  intro e he
  have hput := forM_eq_ok.mp hvalues e (m.items_perm.mem_iff.mpr he)
  obtain ⟨hnil, hscalar⟩ := validateVolatileScalarPut_ok hput
  exact ⟨hnil, hscalar, Value.encode_of_put hput⟩

end StatusMap

open StatusMap

section

variable {cap : SpaceCap} {cadr : Address} {k : Value} {s s' : VMState}

theorem statusKeyBytes_ok {key : List UInt8} (h : statusKeyBytes cap k = .ok key) :
    k.extractKeyBytes .storageKeyInvalid = .ok key := by
  obtain ⟨key', hkey, h⟩ := bind_eq_ok h
  replace h := check_drop h
  cases h
  exact hkey

theorem extractKeyBytes_ne_nil {ec : ItrErrCode} {key : List UInt8}
    (h : k.extractKeyBytes ec = .ok key) : key ≠ [] := by
  cases k with
  | nil | bool b => cases h
  | uint ty n =>
    cases h
    rw [uintKeyBytes]
    split_ifs with hnil
    · exact cons_ne_nil _ _
    · exact hnil
  | _ =>
    obtain ⟨key', -, h⟩ := bind_eq_ok h
    obtain ⟨hne, h⟩ := check_bind_iff.mp h
    cases h
    exact hne

theorem statusPutPrepare_ok {v : Value} {key : List UInt8}
    (h : statusPutPrepare cap k v = .ok key) : statusKeyBytes cap k = .ok key := by
  obtain ⟨key', hkey, h⟩ := bind_eq_ok h
  split_ifs at h
  · cases h
    exact hkey
  · obtain ⟨_, -, h⟩ := bind_eq_ok h
    obtain ⟨_, -, h⟩ := bind_eq_ok h
    replace h := check_drop h
    cases h
    exact hkey

theorem statusLoad_storable {m : StatusMap} (h : statusLoad cap cadr s = .ok m) :
    ∀ e ∈ m.entries, Storable e := by
  rw [statusLoad] at h
  cases hsto : s.ctrtstatus cadr with
  | none =>
    simp only [hsto] at h
    cases h
    exact fun e he => absurd he not_mem_nil
  | some sto =>
    simp only [hsto] at h
    obtain ⟨sto', hreload, h⟩ := bind_eq_ok h
    obtain ⟨m', hfrom, h⟩ := bind_eq_ok h
    obtain ⟨_, -, h⟩ := bind_eq_ok h
    cases h
    exact fromStorage_storable hfrom (StatusSto.reload_supported hreload)

/-- A status of supported values is written as bytes that are read back. -/
theorem statusSave_decode {m : StatusMap} {sto : StatusSto}
    (h : statusSave cap m = .ok (some sto)) (hm : ∀ e ∈ m.entries, e.2.Supported) :
    sto = m.items.map (fun e => (e.1, e.2)) ∧
      ∃ bytes, sto.encode = some bytes ∧ StatusSto.decode bytes = .ok (sto, bytes.length) := by
  rw [statusSave] at h
  split_ifs at h
  · cases h
  obtain ⟨_, hbounds, h⟩ := bind_eq_ok h
  obtain ⟨sto', hsto, h⟩ := bind_eq_ok h
  cases h
  obtain ⟨hcount, hsto⟩ := check_bind_iff.mp hsto
  obtain ⟨hkeys, hsto⟩ := check_bind_iff.mp hsto
  cases hsto
  have hlen : (m.items.map fun e => (e.1, e.2)).length < 65536 := by
    rwa [length_map, m.items_perm.length_eq]
  refine ⟨rfl, StatusSto.decode_encode hlen fun item hitem => ?_⟩
  obtain ⟨e, he, rfl⟩ := mem_map.mp hitem
  replace he := m.items_perm.mem_iff.mp he
  have hkey := of_decide_eq_true (all_eq_true.mp hkeys e he)
  exact ⟨hkey, hm e he, (ensureSaveBounds_values hbounds e he).2.2⟩

/-- A status that was saved is loaded again. -/
theorem statusLoad_of_save {m : StatusMap} {sto : Option StatusSto}
    (h : statusSave cap m = .ok sto) (hm : ∀ e ∈ m.entries, e.1 ≠ [] ∧ e.2.Supported) :
    ∃ m', statusLoad cap cadr { s with ctrtstatus := update s.ctrtstatus cadr sto } =
      .ok m' ∧ m'.entries.Perm m.entries := by
  have hsave := h
  rw [statusSave] at h
  rw [statusLoad]
  simp only [update_self]
  split_ifs at h with hempty
  · cases h
    exact ⟨∅, rfl, by rw [hempty, empty_entries]⟩
  · obtain ⟨_, hbounds, h⟩ := bind_eq_ok h
    obtain ⟨sto', hsto, h⟩ := bind_eq_ok h
    cases h
    have hvalues := ensureSaveBounds_values hbounds
    obtain ⟨-, bytes, hbytes, hdecode⟩ := statusSave_decode hsave fun e he => (hm e he).2
    obtain ⟨m', hm', hperm⟩ := fromStorage_toStorage hsto fun e he =>
      ⟨(hm e he).1, (hvalues e he).1, (hvalues e he).2.1, (hm e he).2⟩
    refine ⟨m', ?_, hperm⟩
    -- the lengths of the keys were checked when it was saved
    obtain ⟨_, hlengths, -⟩ := bind_eq_ok hbounds
    have hlengths' := of_check hlengths
    rw [← hperm.all_eq] at hlengths'
    dsimp only
    rw [StatusSto.reload_of hbytes hdecode, ok_bind, hm', ok_bind, validateKeyLengths,
      check_of _ _ hlengths', ok_bind]
    rfl

theorem sput_ok {v : Value} (hv : v.Supported) (h : sput cap cadr k v s = .ok s') :
    ∃ addr key m m₁ sto m',
    statusContractAddr cadr = .ok addr ∧ k.extractKeyBytes .storageKeyInvalid = .ok key ∧
    statusLoad cap addr s = .ok m ∧ m.setOrRemove key v = .ok m₁ ∧ statusSave cap m₁ = .ok sto ∧
    s' = { s with ctrtstatus := update s.ctrtstatus addr sto } ∧
    (∀ e ∈ m₁.entries, e.2.Supported) ∧ statusLoad cap addr s' = .ok m' ∧
    m'.entries.Perm m₁.entries := by
  obtain ⟨addr, haddr, h⟩ := bind_eq_ok h
  obtain ⟨key, hkey, h⟩ := bind_eq_ok h
  obtain ⟨m, hm, h⟩ := bind_eq_ok h
  obtain ⟨m₁, hset, h⟩ := bind_eq_ok h
  obtain ⟨sto, hsave, h⟩ := bind_eq_ok h
  cases h
  have hbytes := statusKeyBytes_ok (statusPutPrepare_ok hkey)
  have hm₁ : ∀ e ∈ m₁.entries, e.1 ≠ [] ∧ e.2.Supported := by
    intro e he
    rcases setOrRemove_mem hset he with rfl | he
    · exact ⟨extractKeyBytes_ne_nil hbytes, hv⟩
    · exact ⟨(statusLoad_storable hm e he).key, (statusLoad_storable hm e he).supported⟩
  obtain ⟨m', hm', hperm⟩ := @statusLoad_of_save cap addr s _ _ hsave hm₁
  exact ⟨addr, key, m, m₁, sto, m', haddr, hbytes, hm, hset, hsave, rfl,
    fun e he => (hm₁ e he).2, hm', hperm⟩

/-- **A write of a supported value to one status key leaves the others.** -/
theorem sput_other {k' v : Value} (hv : v.Supported) (h : sput cap cadr k v s = .ok s')
    (hne : ¬ SameKey k k') : sget cap cadr k' s' = sget cap cadr k' s := by
  obtain ⟨addr, key, m, m₁, sto, m', haddr, hbytes, hm, hset, -, -, -, hm', hperm⟩ := sput_ok hv h
  rw [sget, sget, haddr]
  cases hkey' : statusKeyBytes cap k' with
  | error e => rfl
  | ok key' =>
    have hkeyne : key' ≠ key := fun heq =>
      hne (.of_bytes hbytes (heq ▸ statusKeyBytes_ok hkey'))
    simp only [ok_bind, hm', hm]
    have hget : m'.get key' = m.get key' := by
      rw [← setOrRemove_get_ne hset hkeyne, StatusMap.get, StatusMap.get,
        perm_lookup hperm]
    rw [hget]

end

/-! ## Runs -/

/-- An operation on storage, at a height, or on status. -/
inductive StoreOp where
  | storage (curhei : ℕ) (op : StorageOp)
  | sget
  | sput (v : Value)

/-- An operation under a context address and a key. -/
structure Access where
  cadr : Address
  k : Value
  op : StoreOp

open Access

/-- The state after an operation, whether it succeeded or failed. -/
def Access.exec (hash : VmHash) (gst : GasExtra) (cap : SpaceCap) (s : VMState) (a : Access) :
    VMState :=
  match a.op with
  | .storage curhei op => (op.exec hash gst cap a.cadr a.k curhei s).1
  | .sget => s
  | .sput v =>
    match Vm.sput cap a.cadr a.k v s with
    | .ok s' => s'
    | .error _ => s

/-- The same context address and a key of the same class. -/
def SamePair (cadr : Address) (k : Value) (cadr' : Address) (k' : Value) : Prop :=
  cadr = cadr' ∧ SameKey k k'

/-- The addresses with keys that a run and a read have slots for. -/
def slotStrings (ops : List Access) (cadr : Address) (k : Value) : Set (List UInt8) :=
  {x | ∃ p ∈ (cadr, k) :: ops.map (fun a => (a.cadr, a.k)), ∃ key,
    p.2.extractKeyBytes .storageKeyInvalid = .ok key ∧ x = p.1.bytes ++ key}

section

variable {hash : VmHash} {gst : GasExtra} {cap : SpaceCap} {cadr : Address} {k : Value}
  {s s' : VMState} {S : Set (List UInt8)}

/-- What is read under an address and a key is the same in two states. -/
structure SameReads (hash : VmHash) (cap : SpaceCap) (cadr : Address) (k : Value)
    (s s' : VMState) : Prop where
  slot : ∀ sk, skey hash cadr k cap.kvKeySize = .ok sk → s'.ctrtkvdb sk = s.ctrtkvdb sk
  status : sget cap cadr k s' = sget cap cadr k s

theorem SameReads.trans {s'' : VMState} (h : SameReads hash cap cadr k s s')
    (h' : SameReads hash cap cadr k s' s'') : SameReads hash cap cadr k s s'' :=
  ⟨fun sk hsk => (h'.slot sk hsk).trans (h.slot sk hsk), h'.status.trans h.status⟩

theorem sget_congr (h : s'.ctrtstatus cadr = s.ctrtstatus cadr) :
    sget cap cadr k s' = sget cap cadr k s := by
  rw [sget, sget]
  cases statusKeyBytes cap k with
  | error e => rfl
  | ok key =>
    cases haddr : statusContractAddr cadr with
    | error e => rfl
    | ok addr =>
      replace haddr := check_drop haddr
      cases haddr
      simp only [ok_bind, statusLoad, h]

theorem Access.sameReads (a : Access) (hinj : S.InjOn hash.sha3)
    (hown : ∀ key, a.k.extractKeyBytes .storageKeyInvalid = .ok key → a.cadr.bytes ++ key ∈ S)
    (hread : ∀ key, k.extractKeyBytes .storageKeyInvalid = .ok key → cadr.bytes ++ key ∈ S)
    (hne : ¬ SamePair a.cadr a.k cadr k)
    (hput : ∀ v, a.op = .sput v → a.cadr = cadr → v.Supported) :
    SameReads hash cap cadr k s (a.exec hash gst cap s) := by
  obtain ⟨acadr, ak, op⟩ := a
  cases op with
  | storage curhei op =>
    have honly : OnlyKey hash cap acadr ak s (op.exec hash gst cap acadr ak curhei s).1 :=
      op.onlyKey
    rcases honly with heq | ⟨sk, hsk, honly⟩
    · simp only [exec, heq]
      exact ⟨fun _ _ => rfl, rfl⟩
    · refine ⟨fun sk' hsk' => honly.other sk' ?_, sget_congr (congrFun honly.status cadr)⟩
      -- one slot for both pairs would make them the same
      rintro rfl
      obtain ⟨key, hkey, heq⟩ := skey_ok hsk
      obtain ⟨key', hkey', heq'⟩ := skey_ok hsk'
      obtain ⟨rfl, rfl⟩ := encodeCtrtKvSlot_inj hinj (hown key hkey) (hread key' hkey')
        (heq.symm.trans heq')
      exact hne ⟨rfl, .of_bytes hkey hkey'⟩
  | sget => exact ⟨fun _ _ => rfl, rfl⟩
  | sput v =>
    cases hrun : Vm.sput cap acadr ak v s with
    | error e =>
      simp only [exec, hrun]
      exact ⟨fun _ _ => rfl, rfl⟩
    | ok s' =>
      simp only [exec, hrun]
      obtain ⟨hkv, haddr⟩ : s'.ctrtkvdb = s.ctrtkvdb ∧
          ∀ b, b ≠ acadr → s'.ctrtstatus b = s.ctrtstatus b := by
        obtain ⟨addr, haddr, hok⟩ := bind_eq_ok hrun
        replace haddr := check_drop haddr
        cases haddr
        obtain ⟨_, -, hok⟩ := bind_eq_ok hok
        obtain ⟨_, -, hok⟩ := bind_eq_ok hok
        obtain ⟨_, -, hok⟩ := bind_eq_ok hok
        obtain ⟨_, -, hok⟩ := bind_eq_ok hok
        cases hok
        exact ⟨rfl, fun b hb => update_of_ne hb _ _⟩
      refine ⟨fun sk _ => congrFun hkv sk, ?_⟩
      by_cases hcadr : cadr = acadr
      · subst hcadr
        exact sput_other (hput v rfl rfl) hrun fun hsame => hne ⟨rfl, hsame⟩
      · exact sget_congr (haddr cadr hcadr)

theorem sameReads_run (hinj : S.InjOn hash.sha3) (ops : List Access)
    (hown : ∀ a ∈ ops, ∀ key, a.k.extractKeyBytes .storageKeyInvalid = .ok key →
      a.cadr.bytes ++ key ∈ S)
    (hread : ∀ key, k.extractKeyBytes .storageKeyInvalid = .ok key → cadr.bytes ++ key ∈ S)
    (hne : ∀ a ∈ ops, ¬ SamePair a.cadr a.k cadr k)
    (hput : ∀ a ∈ ops, ∀ v, a.op = .sput v → a.cadr = cadr → v.Supported) (s : VMState) :
    SameReads hash cap cadr k s (ops.foldl (exec hash gst cap) s) := by
  induction ops generalizing s with
  | nil => exact ⟨fun _ _ => rfl, rfl⟩
  | cons a ops ih =>
    have hhead : SameReads hash cap cadr k s (a.exec hash gst cap s) :=
      a.sameReads hinj (hown a mem_cons_self) hread (hne a mem_cons_self) (hput a mem_cons_self)
    exact hhead.trans (ih (fun b hb => hown b (mem_cons_of_mem a hb))
      (fun b hb => hne b (mem_cons_of_mem a hb)) (fun b hb => hput b (mem_cons_of_mem a hb)) _)

end

/-- **Contract storage is isolated.** Operations under other pairs of context address and key class
change no later read under a pair, as long as the hash does not collide on their slots and the
status of the address is written with supported values. -/
theorem storage_isolation (hash : VmHash) (gst : GasExtra) (cap : SpaceCap) (ops : List Access)
    (cadr : Address) (k : Value) (hinj : (slotStrings ops cadr k).InjOn hash.sha3)
    (hne : ∀ a ∈ ops, ¬ SamePair a.cadr a.k cadr k)
    (hput : ∀ a ∈ ops, ∀ v, a.op = .sput v → a.cadr = cadr → v.Supported)
    (s : VMState) (curhei : ℕ) :
    let s' := ops.foldl (exec hash gst cap) s
    (sload hash gst cap curhei cadr k s').2 = (sload hash gst cap curhei cadr k s).2 ∧
      (sstat hash gst cap curhei cadr k s').2 = (sstat hash gst cap curhei cadr k s).2 ∧
      sget cap cadr k s' = sget cap cadr k s := by
  intro s'
  have hreads : SameReads hash cap cadr k s s' := by
    refine sameReads_run hinj ops ?_ ?_ hne hput s
    · intro a ha key hkey
      exact ⟨(a.cadr, a.k), mem_cons_of_mem _ (mem_map.mpr ⟨a, ha, rfl⟩), key, hkey, rfl⟩
    · intro key hkey
      exact ⟨(cadr, k), mem_cons_self, key, hkey, rfl⟩
  have hslot : ∀ sk u, plainSlot hash cap cadr k = .ok (sk, u) →
      s'.ctrtkvdb sk = s.ctrtkvdb sk :=
    fun sk u h => hreads.slot sk (skey_of_plainSlot sk u h)
  exact ⟨withSlot_congr hslot, withSlot_congr hslot, hreads.status⟩

/-! ### Two keys of a contract -/

/-- Strings are hashed to their last byte. -/
def sampleHash : VmHash := ⟨fun x => .fill (x.getLastD 0), id⟩

/-- A key too long for a plain slot. -/
def sampleKey (b : UInt8) : Value := .bytes (replicate 12 b)

/-- An entry and a status under one key of the contract `fill 1`. -/
def sampleOps (v : Value) : List Access :=
  [⟨.fill 1, sampleKey 7, .storage 5 (.snew (.bool true) (.uint .u8 ⟨9, by decide⟩))⟩,
    ⟨.fill 1, sampleKey 7, .sput v⟩]

theorem sampleOps_injOn (v : Value) :
    (slotStrings (sampleOps v) (.fill 1) (sampleKey 8)).InjOn sampleHash.sha3 := by
  have hmem : ∀ x ∈ slotStrings (sampleOps v) (.fill 1) (sampleKey 8),
      x = (Address.fill 1).bytes ++ replicate 12 8 ∨
        x = (Address.fill 1).bytes ++ replicate 12 7 := by
    rintro x ⟨p, hp, bytes, hbytes, rfl⟩
    have hp' : p = (.fill 1, sampleKey 8) ∨ p = (.fill 1, sampleKey 7) := by
      simpa [sampleOps] using hp
    rcases hp' with rfl | rfl
    · cases hbytes
      exact Or.inl rfl
    · cases hbytes
      exact Or.inr rfl
  intro x hx y hy hxy
  rcases hmem x hx with rfl | rfl
  · rcases hmem y hy with rfl | rfl
    · rfl
    · exact absurd hxy (by decide)
  · rcases hmem y hy with rfl | rfl
    · exact absurd hxy (by decide)
    · rfl

theorem sampleOps_other (v : Value) :
    ∀ a ∈ sampleOps v, ¬ SamePair a.cadr a.k (.fill 1) (sampleKey 8) := by
  intro a ha hsame
  have hk : a.k = sampleKey 7 := by
    rcases mem_cons.mp ha with rfl | ha
    · rfl
    · rw [mem_singleton.mp ha]
  obtain ⟨bytes, hbytes, hbytes'⟩ : SameKey (sampleKey 7) (sampleKey 8) := hk ▸ hsame.2
  cases hbytes
  cases hbytes'

/-- With a status of a supported value the other key reads as before. -/
theorem storage_isolation_sample :
    let ops := sampleOps (.bool true)
    let s : VMState := ⟨fun _ => none, fun _ => none⟩
    (slotStrings ops (.fill 1) (sampleKey 8)).InjOn sampleHash.sha3 ∧
      (∀ a ∈ ops, ¬ SamePair a.cadr a.k (.fill 1) (sampleKey 8)) ∧
      (∀ a ∈ ops, ∀ v, a.op = .sput v → a.cadr = .fill 1 → v.Supported) ∧
      sget .new (.fill 1) (sampleKey 8) (ops.foldl (exec sampleHash .new .new) s) =
        sget .new (.fill 1) (sampleKey 8) s := by
  intro ops s
  have hput : ∀ a ∈ ops, ∀ v, a.op = .sput v → a.cadr = .fill 1 → v.Supported := by
    intro a ha v hv _
    rcases mem_cons.mp ha with rfl | ha
    · cases hv
    · rw [mem_singleton.mp ha] at hv
      cases hv
      trivial
  exact ⟨sampleOps_injOn _, sampleOps_other _, hput, (storage_isolation sampleHash .new .new ops
    (.fill 1) (sampleKey 8) (sampleOps_injOn _) (sampleOps_other _) hput s 9).2.2⟩

/-- **A value that is not read back takes the other keys with it.** After the status of one key is
an address of an unknown version, the status of the contract is not read under any key. -/
theorem unsupported_status_shared :
    let ops := sampleOps (.address (.fill 7))
    let s : VMState := ⟨fun _ => none, fun _ => none⟩
    (slotStrings ops (.fill 1) (sampleKey 8)).InjOn sampleHash.sha3 ∧
      (∀ a ∈ ops, ¬ SamePair a.cadr a.k (.fill 1) (sampleKey 8)) ∧
      sget .new (.fill 1) (sampleKey 8) s = .ok .nil ∧
      ∃ msg, sget .new (.fill 1) (sampleKey 8) (ops.foldl (exec sampleHash .new .new) s) =
        .error ⟨.stateDecodeFailed, msg⟩ :=
  ⟨sampleOps_injOn _, sampleOps_other _, rfl, _, rfl⟩

end Vm

end Hacash
