import Mathlib.Data.List.AList

/-!
# Finite maps

A `Table` is an `AList` without dependent values; the lemmas give its entries after an operation up
to order.
-/

namespace Hacash.Lib

open List AList

/-- A finite map. -/
abbrev Table (K V : Type) : Type := AList (fun _ : K => V)

namespace Table

variable {K V : Type} [DecidableEq K] {t : Table K V} {k : K} {v : V}

/-- The number of entries. -/
def size (t : Table K V) : ℕ := t.entries.length

/-- The values. -/
def values (t : Table K V) : List V := t.entries.map Sigma.snd

/-- The entries that satisfy a test. -/
def retain (t : Table K V) (p : K → V → Bool) : Table K V :=
  ⟨t.entries.filter fun e => p e.1 e.2, t.nodupKeys.sublist filter_sublist⟩

theorem lookup_eq_some_iff : t.lookup k = some v ↔ ⟨k, v⟩ ∈ t.entries :=
  mem_lookup_iff

/-- Removing an entry takes it out of the list. -/
theorem entries_perm_erase (h : t.lookup k = some v) :
    t.entries.Perm (⟨k, v⟩ :: (t.erase k).entries) := by
  have hmem : ⟨k, v⟩ ∈ t.entries := lookup_eq_some_iff.mp h
  obtain ⟨w, l₁, l₂, -, hl, herase⟩ :=
    exists_of_kerase (mem_keys_of_mem hmem)
  have hw : w = v := by
    have : (⟨k, w⟩ : Sigma fun _ : K => V) ∈ t.entries := by
      rw [hl]
      exact mem_append_right _ mem_cons_self
    exact t.nodupKeys.eq_of_mk_mem this hmem
  show t.entries.Perm (⟨k, v⟩ :: t.entries.kerase k)
  rw [herase, hl, hw]
  exact perm_middle

theorem size_erase (h : t.lookup k = some v) : size t = size (t.erase k) + 1 := by
  rw [size, (entries_perm_erase h).length_eq]
  rfl

theorem size_insert (h : k ∉ t) : size (t.insert k v) = size t + 1 := by
  rw [size, entries_insert_of_notMem h]
  rfl

theorem size_insert_le : size (t.insert k v) ≤ size t + 1 := by
  rw [size, entries_insert, length_cons]
  exact Nat.succ_le_succ (kerase_sublist k t.entries).length_le

omit [DecidableEq K] in
theorem retain_eq_empty {p : K → V → Bool} (h : ∀ e ∈ t.entries, p e.1 e.2 = false) :
    retain t p = ∅ := by
  refine AList.ext (filter_eq_nil_iff.mpr fun e he => ?_)
  rw [h e he]
  exact Bool.false_ne_true

theorem erase_insert (h : k ∉ t) : (t.insert k v).erase k = t := by
  refine AList.ext ?_
  show (t.insert k v).entries.kerase k = t.entries
  rw [entries_insert_of_notMem h]
  exact kerase_cons_eq rfl

omit [DecidableEq K] in
theorem eq_empty_of_size (h : size t = 0) : t = ∅ :=
  AList.ext (eq_nil_of_length_eq_zero h)

end Table

end Hacash.Lib
