import Hacash.Vm.Isolation

/-!
# Stored values (`vm::value::field`, `vm::state::status`)

A value within the caps is read back from its bytes, and so is a status written value by value.
-/

namespace Hacash

open Lib List Decoder Vm.ValueTy

namespace Vm

namespace Value

variable {v : Value}

end Value

open StatusSto

/-! ## Runs -/

/-- The status of a contract can be read from its bytes, and from the store. -/
structure Reloads (cap : SpaceCap) (addr : Address) (s : VMState) (m : StatusMap) : Prop where
  loaded : statusLoad cap addr s = .ok m
  supported : ∀ e ∈ m.entries, e.2.Supported
  stored : ∀ sto, s.ctrtstatus addr = some sto →
    sto.Perm (m.entries.map fun e => (e.1, e.2)) ∧
      ∃ bytes, encode sto = some bytes ∧ decode bytes = .ok (sto, bytes.length)

variable {cap : SpaceCap} {cadr addr : Address} {s s' : VMState} {m : StatusMap}

theorem Reloads.sput {k v : Value} (haddr : statusContractAddr cadr = .ok addr)
    (hv : v.Supported) (h : Vm.sput cap cadr k v s = .ok s') : ∃ m', Reloads cap addr s' m' := by
  obtain ⟨addr', key, m₀, m₁, sto, m', haddr', -, hm₀, hset, hsave, rfl, hm₁, hm', hperm⟩ :=
    sput_ok hv h
  rw [haddr] at haddr'
  cases haddr'
  refine ⟨m', hm', fun e he => hm₁ e (hperm.mem_iff.mp he), fun sto' hsto' => ?_⟩
  have hsaved : sto = some sto' := (Function.update_self addr sto s.ctrtstatus).symm.trans hsto'
  rw [hsaved] at hsave
  obtain ⟨rfl, hdecode⟩ := statusSave_decode hsave hm₁
  exact ⟨(m₁.items_perm.trans hperm.symm).map _, hdecode⟩

end Vm

end Hacash
