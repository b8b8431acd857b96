import Hacash.Vm.Storage

/-!
# Volatile maps (`vm::space`)

The maps from keys to scalars that live as long as a transaction. No value in them is nil
(`KVMap.Bounded`).
-/

namespace Hacash

open Lib AList

namespace Vm

/-! ## The maps (kvmap.rs) -/

/-- A map of `memories_kvmap_define!`. -/
structure KVMap where
  limit : ℕ
  keyMax : ℕ
  datas : AList fun _ : List UInt8 => Value

namespace KVMap

def withKeyMax (limit keyMax : ℕ) : KVMap := ⟨limit, keyMax, ∅⟩

def len (m : KVMap) : ℕ := m.datas.entries.length

def clear (m : KVMap) : KVMap := { m with datas := ∅ }

/-- `key`; `er1` is the code of the map for bad keys. -/
def key (er1 : ItrErrCode) (m : KVMap) (k : Value) : VmrtRes (List UInt8) := do
  let key ← k.extractKeyBytes er1
  check (key.length ≤ m.keyMax) er1 "key too long, max bytes but got"
  return key

/-- `put`; `er2` is the code of the map for no room. -/
def put (er1 er2 : ItrErrCode) (m : KVMap) (k v : Value) : VmrtRes KVMap := do
  v.checkScalar
  let key ← m.key er1 k
  check (key ∈ m.datas ∨ m.len < m.limit) er2
  return { m with datas := m.datas.insert key v }

def get (er1 : ItrErrCode) (m : KVMap) (k : Value) : VmrtRes Value := do
  let key ← m.key er1 k
  return (m.datas.lookup key).getD .nil

def remove (er1 : ItrErrCode) (m : KVMap) (k : Value) : VmrtRes KVMap := do
  let key ← m.key er1 k
  return { m with datas := m.datas.erase key }

def containsKey (er1 : ItrErrCode) (m : KVMap) (k : Value) : VmrtRes Bool := do
  let key ← m.key er1 k
  return decide (key ∈ m.datas)

def keysSorted (m : KVMap) : List (List UInt8) := m.datas.keys.mergeSort fun a b => decide (a ≤ b)

end KVMap

/-! ## Checks (kv_policy.rs) -/

def validateVolatileKvPut (key val : Value) (keyMax valueMax : ℕ) (allowNil : Bool)
    (ec : ItrErrCode) : VmrtRes Unit := do
  let bytes ← key.extractKeyBytes ec
  check (bytes.length ≤ keyMax) ec "key too long, max bytes but got"
  if allowNil && val.isNil then return ()
  else validateVolatileScalarPut val valueMax ec

/-! ## Bounds -/

theorem extractKeyBytes_code {k : Value} {ec : ItrErrCode} (ec' : ItrErrCode) {key : List UInt8}
    (h : k.extractKeyBytes ec = .ok key) : k.extractKeyBytes ec' = .ok key := by
  cases k with
  | nil | bool b => cases h
  | uint ty n => exact h
  | bytes b | address a =>
    obtain ⟨bytes, hbytes, h⟩ := bind_eq_ok h
    cases hbytes
    obtain ⟨hne, h⟩ := check_bind_iff.mp h
    cases h
    exact check_bind_iff.mpr ⟨hne, rfl⟩
  | tuple items | compo ref | handle ref => cases h

theorem length_keys {α : Type} {β : α → Type} (m : AList β) :
    m.keys.length = m.entries.length := List.length_map _

theorem length_insert_of_mem {α : Type} {β : α → Type} [DecidableEq α] {m : AList β} {a : α}
    {b : β a} (h : a ∈ m) : (m.insert a b).entries.length = m.entries.length := by
  have hkeys := mem_keys.mp h
  have hpos := List.length_pos_of_mem hkeys
  rw [← length_keys, ← length_keys, keys_insert, List.length_cons,
    List.length_erase_of_mem hkeys]
  omega

theorem length_insert_of_notMem {α : Type} {β : α → Type} [DecidableEq α] {m : AList β} {a : α}
    {b : β a} (h : a ∉ m) : (m.insert a b).entries.length = m.entries.length + 1 := by
  rw [entries_insert_of_notMem h, List.length_cons]

theorem length_erase_of_mem {α : Type} {β : α → Type} [DecidableEq α] {m : AList β} {a : α}
    (h : a ∈ m) : (m.erase a).entries.length < m.entries.length := by
  have hkeys := mem_keys.mp h
  have hpos := List.length_pos_of_mem hkeys
  rw [← length_keys, ← length_keys, keys_erase, List.length_erase_of_mem hkeys]
  omega

theorem length_erase_le {α : Type} {β : α → Type} [DecidableEq α] (m : AList β) (a : α) :
    (m.erase a).entries.length ≤ m.entries.length := by
  rw [← length_keys, ← length_keys, keys_erase]
  exact List.length_erase_le

namespace KVMap

/-- A map within its limit, without a nil. -/
structure Bounded (limit keyMax : ℕ) (m : KVMap) : Prop where
  limit_eq : m.limit = limit
  keyMax_eq : m.keyMax = keyMax
  len_le : m.len ≤ limit
  values : ∀ key v, m.datas.lookup key = some v → v.isNil = false ∧ v.isScalar = true

variable {limit keyMax : ℕ} {m m' : KVMap} {k v : Value} {er1 er2 : ItrErrCode}

theorem Bounded.withKeyMax : Bounded limit keyMax (KVMap.withKeyMax limit keyMax) :=
  ⟨rfl, rfl, Nat.zero_le _, nofun⟩

theorem Bounded.clear (h : Bounded limit keyMax m) : Bounded limit keyMax m.clear :=
  ⟨h.limit_eq, h.keyMax_eq, Nat.zero_le _, nofun⟩

theorem put_ok (h : m.put er1 er2 k v = .ok m') :
    ∃ key, m.key er1 k = .ok key ∧ v.isScalar = true ∧ (key ∈ m.datas ∨ m.len < m.limit) ∧
      m' = { m with datas := m.datas.insert key v } := by
  obtain ⟨_, hscalar, h⟩ := bind_eq_ok h
  obtain ⟨key, hkey, h⟩ := bind_eq_ok h
  obtain ⟨hroom, h⟩ := check_bind_iff.mp h
  cases h
  exact ⟨key, hkey, of_check hscalar, hroom, rfl⟩

theorem put_of {key : List UInt8} (hkey : m.key er1 k = .ok key) (hscalar : v.isScalar = true)
    (hroom : key ∈ m.datas ∨ m.len < m.limit) :
    m.put er1 er2 k v = .ok { m with datas := m.datas.insert key v } := by
  rw [put, Value.checkScalar, Value.checkScalarAs, check_of _ _ hscalar, ok_bind, hkey, ok_bind,
    check_of _ _ hroom, ok_bind]
  rfl

theorem Bounded.put (hb : Bounded limit keyMax m) (hnil : v.isNil = false)
    (h : m.put er1 er2 k v = .ok m') : Bounded limit keyMax m' := by
  obtain ⟨key, -, hscalar, hroom, rfl⟩ := put_ok h
  refine ⟨hb.limit_eq, hb.keyMax_eq, ?_, ?_⟩
  · have hlen := hb.len_le
    show (m.datas.insert key v).entries.length ≤ limit
    by_cases hmem : key ∈ m.datas
    · rw [length_insert_of_mem hmem]
      exact hlen
    · rw [length_insert_of_notMem hmem, ← hb.limit_eq]
      exact hroom.resolve_left hmem
  · intro key' v' hlookup
    by_cases heq : key' = key
    · subst heq
      rw [lookup_insert] at hlookup
      cases hlookup
      exact ⟨hnil, hscalar⟩
    · rw [lookup_insert_ne heq] at hlookup
      exact hb.values key' v' hlookup

theorem remove_ok (h : m.remove er1 k = .ok m') :
    ∃ key, m.key er1 k = .ok key ∧ m' = { m with datas := m.datas.erase key } := by
  obtain ⟨key, hkey, h⟩ := bind_eq_ok h
  cases h
  exact ⟨key, hkey, rfl⟩

theorem remove_of {key : List UInt8} (hkey : m.key er1 k = .ok key) :
    m.remove er1 k = .ok { m with datas := m.datas.erase key } := by
  rw [remove, hkey, ok_bind]
  rfl

theorem Bounded.remove (hb : Bounded limit keyMax m) (h : m.remove er1 k = .ok m') :
    Bounded limit keyMax m' := by
  obtain ⟨key, -, rfl⟩ := remove_ok h
  refine ⟨hb.limit_eq, hb.keyMax_eq, (length_erase_le _ _).trans hb.len_le, ?_⟩
  intro key' v' hlookup
  by_cases heq : key' = key
  · subst heq
    rw [lookup_erase] at hlookup
    cases hlookup
  · rw [lookup_erase_ne heq] at hlookup
    exact hb.values key' v' hlookup

end KVMap

end Vm

end Hacash
