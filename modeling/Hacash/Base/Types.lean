import Hacash.Lib.BigEndian
import Hacash.Lib.Overlay

/-!
# Shared data types (`field`, `base`)

`ForkChoiceKey` is a byte string in lexicographic order; the default one orders blocks by height
(`fromHeight_lt_iff`).
-/

namespace Hacash

open Lib

/-- The largest `u64`. -/
def u64Max : ℕ := 2 ^ 64 - 1

/-- `u64::saturating_add`. -/
def satAdd64 (a b : ℕ) : ℕ := min (a + b) u64Max

theorem bind_eq_ok {ε α β : Type} {x : Except ε α} {f : α → Except ε β} {b : β}
    (hs : x >>= f = .ok b) : ∃ a, x = .ok a ∧ f a = .ok b := by
  cases x with
  | error e => cases hs
  | ok a => exact ⟨a, rfl, hs⟩

/-- A successful first step is passed over. -/
theorem ok_bind {ε α β : Type} (a : α) (f : α → Except ε β) : (Except.ok a >>= f) = f a := rfl

/-- A 32-byte hash. -/
structure Hash where
  bytes : List UInt8
  size : bytes.length = 32
  deriving DecidableEq

theorem Hash.eq_of_bytes {a b : Hash} (h : a.bytes = b.bytes) : a = b := by
  cases a
  cases b
  cases h
  rfl

/-- `Hash::from([b; 32])`. -/
def Hash.fill (b : UInt8) : Hash := ⟨List.replicate 32 b, List.length_replicate⟩

/-- What the chain reads of a block. Heights end below the last `u64`, so each has a successor. -/
structure Block where
  height : ℕ
  hash : Hash
  prevHash : Hash
  txHashes : List Hash
  height_lt : height < u64Max
  deriving DecidableEq

/-- A block without transactions, with constant hashes. -/
def Block.sample (height : ℕ) (hash prevHash : UInt8) : Block :=
  ⟨height % u64Max, .fill hash, .fill prevHash, [], Nat.mod_lt _ (by decide)⟩

/-! ## Fork choice keys (consensus.rs:19–36) -/

/-- Opaque, lexicographically ordered fork-choice score. -/
structure ForkChoiceKey where
  bytes : List UInt8
  deriving DecidableEq

namespace ForkChoiceKey

instance : LT ForkChoiceKey := ⟨fun a b => a.bytes < b.bytes⟩

instance (a b : ForkChoiceKey) : Decidable (a < b) :=
  inferInstanceAs (Decidable (a.bytes < b.bytes))

/-- `ForkChoiceKey::from_height`: the eight big-endian bytes of the height. -/
def fromHeight (height : ℕ) : ForkChoiceKey := ⟨beBytes 8 height⟩

/-- Height keys sort by height. -/
theorem fromHeight_lt_iff {a b : ℕ} (ha : a < 2 ^ 64) (hb : b < 2 ^ 64) :
    fromHeight a < fromHeight b ↔ a < b :=
  beBytes_lt_iff (w := 8) (by norm_num; exact ha) (by norm_num; exact hb)

end ForkChoiceKey

/-! ## Key-value data (iface/store.rs) -/

/-- A state or block database key. -/
abbrev Key : Type := List UInt8

/-- A stored value. -/
abbrev Val : Type := List UInt8

/-- `MemKV`: pending writes, a deletion is kept as a tombstone. -/
abbrev MemKV : Type := Overlay Key Val

/-- A key-value database, as its reads see it. -/
abbrev Disk : Type := Key → Option Val

/-- `DiskDB::try_write`: every entry of the batch at once. -/
def Disk.write (disk : Disk) (batch : MemKV) : Disk := batch.apply disk

/-- `_chain.root_hash`. -/
def persistKeyRootHash : Key :=
  [0x5f, 0x63, 0x68, 0x61, 0x69, 0x6e, 0x2e, 0x72, 0x6f, 0x6f, 0x74, 0x5f,
    0x68, 0x61, 0x73, 0x68]

/-- `_chain.root_height`. -/
def persistKeyRootHeight : Key :=
  [0x5f, 0x63, 0x68, 0x61, 0x69, 0x6e, 0x2e, 0x72, 0x6f, 0x6f, 0x74, 0x5f,
    0x68, 0x65, 0x69, 0x67, 0x68, 0x74]

/-- One of the two keys that record the durable root. -/
def IsRootMarker (k : Key) : Prop := k = persistKeyRootHash ∨ k = persistKeyRootHeight

instance (k : Key) : Decidable (IsRootMarker k) :=
  inferInstanceAs (Decidable (_ ∨ _))

end Hacash
