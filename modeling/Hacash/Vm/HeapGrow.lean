import Hacash.Vm.Gas

/-!
# Growth of the heap (`vm::space`, heap.rs:94–111; `vm::rt`, gas.rs:331–351)

A segment is priced by its place in the heap, so many small steps cost what one large step does.
**Key result**: `heap_growth_additive`.
-/

namespace Hacash

open List

namespace Vm

/-! ## The heap -/

structure Heap where
  limit : ℕ
  datas : List UInt8

/-- `Heap::SEGLEN`. -/
def segLen : ℕ := 256

def Heap.grow (g : RunGas) (seg : ℕ) (heap : Heap) : VmrtRes (Heap × ℤ) := do
  check (1 ≤ seg) .heapError "heap grow cannot be empty"
  check (seg ≤ 16) .heapError "heap grow cannot exceed 16"
  let gas ← g.heapGrowGas (heap.datas.length / segLen) seg heap.limit
  check (heap.datas.length + seg * segLen ≤ u64Max) .heapError "heap size overflow"
  return ({ heap with datas := heap.datas ++ replicate (seg * segLen) 0 }, gas)

/-- A run of `HGROW` instructions, with the gas of all of them. -/
def Heap.growAll (g : RunGas) : List ℕ → Heap → VmrtRes (Heap × ℤ)
  | [], heap => return (heap, 0)
  | seg :: rest, heap => do
    let (heap, gas) ← heap.grow g seg
    let (heap, more) ← Heap.growAll g rest heap
    return (heap, gas + more)

/-! ## Prices -/

namespace RunGas

variable (g : RunGas)

/-- The prices of the `n` segments from `a` on. -/
def segsGas (a n : ℕ) : ℕ := ((range' a n).map g.heapSegGas).sum

theorem segsGas_add (a m n : ℕ) : g.segsGas a (m + n) = g.segsGas a m + g.segsGas (a + m) n := by
  rw [segsGas, ← range'_append_1, map_append, sum_append, segsGas, segsGas]

variable {g}

theorem foldlM_segs : ∀ {n a acc gas : ℕ}, acc ≤ u64Max →
    ((range' a n).foldlM (fun gas s => do
      check (gas + g.heapSegGas s ≤ u64Max) .heapError "heap grow gas overflow"
      return gas + g.heapSegGas s) acc = .ok gas ↔
        acc + g.segsGas a n ≤ u64Max ∧ gas = acc + g.segsGas a n)
  | 0, a, acc, gas, h => by
    change Except.ok acc = .ok gas ↔ acc + 0 ≤ u64Max ∧ gas = acc + 0
    rw [Except.ok.injEq, add_zero, eq_comm]
    exact (and_iff_right h).symm
  | n + 1, a, acc, gas, h => by
    have hsum : g.segsGas a (n + 1) = g.heapSegGas a + g.segsGas (a + 1) n := by
      rw [segsGas, range'_succ, map_cons, sum_cons, segsGas]
    rw [range'_succ, foldlM_cons, bind_assoc, check_bind_iff, pure_bind, hsum, ← add_assoc]
    refine ⟨fun ⟨hle, hrest⟩ => (foldlM_segs hle).mp hrest, fun hrest => ?_⟩
    have hle : acc + g.heapSegGas a ≤ u64Max := (Nat.le_add_right _ _).trans hrest.1
    exact ⟨hle, (foldlM_segs hle).mpr hrest⟩

/-- **What growing by `n` segments costs**, if there is room for them. -/
theorem heapGrowGas_ok_iff {a n limit : ℕ} {gas : ℤ} : g.heapGrowGas a n limit = .ok gas ↔
      a + n ≤ u64Max ∧ a + n ≤ limit ∧ g.segsGas a n < 2 ^ 63 ∧ gas = g.segsGas a n := by
  have hmax : 2 ^ 63 ≤ u64Max := by decide
  rw [heapGrowGas, check_bind_iff, check_bind_iff]
  refine and_congr_right fun _ => and_congr_right fun _ => ⟨fun h => ?_, fun ⟨hlt, hgas⟩ => ?_⟩
  · obtain ⟨total, htotal, h⟩ := bind_eq_ok h
    obtain ⟨hlt, h⟩ := check_bind_iff.mp h
    obtain ⟨-, rfl⟩ := (foldlM_segs (Nat.zero_le _)).mp htotal
    rw [zero_add] at hlt h
    cases h
    exact ⟨hlt, rfl⟩
  · have hfold := (foldlM_segs (g := g) (a := a) (n := n) (Nat.zero_le _)).mpr
      ⟨by rw [zero_add]; exact (hlt.trans_le hmax).le, rfl⟩
    rw [zero_add] at hfold
    rw [hfold, ok_bind, check_of _ _ hlt, hgas]
    rfl

theorem heapSegGas_le (computeLimit resourceLimit storageLimit : ℤ) (s : ℕ) :
    (RunGas.new computeLimit resourceLimit storageLimit).heapSegGas s ≤ 256 := by
  rw [heapSegGas]
  split_ifs with hexp h64
  · exact (Nat.pow_le_pow_right (by norm_num) hexp : 2 ^ (s + 1) ≤ 2 ^ 8)
  · exact absurd (show s < 8 from hexp) (by omega)
  · exact le_rfl

end RunGas

open RunGas

/-! ## Runs -/

section

variable {g : RunGas} {heap heap' : Heap} {gas : ℤ}

theorem Heap.grow_ok {seg : ℕ} (h : heap.grow g seg = .ok (heap', gas)) :
    heap' = ⟨heap.limit, heap.datas ++ replicate (seg * segLen) 0⟩ ∧
      gas = g.segsGas (heap.datas.length / segLen) seg := by
  replace h := check_drop h
  replace h := check_drop h
  obtain ⟨price, hprice, h⟩ := bind_eq_ok h
  replace h := check_drop h
  cases h
  exact ⟨rfl, (heapGrowGas_ok_iff.mp hprice).2.2.2⟩

/-- **A run of steps** leaves the heap, and costs the gas, of one step of their sum. -/
theorem Heap.growAll_ok : ∀ {segs : List ℕ} {heap heap' : Heap} {gas : ℤ},
    heap.growAll g segs = .ok (heap', gas) →
    heap' = ⟨heap.limit, heap.datas ++ replicate (segs.sum * segLen) 0⟩ ∧
      gas = g.segsGas (heap.datas.length / segLen) segs.sum
  | [], heap, heap', gas, h => by
    cases h
    exact ⟨by simp, rfl⟩
  | seg :: rest, heap, heap', gas, h => by
    obtain ⟨⟨mid, first⟩, hmid, h⟩ := bind_eq_ok h
    obtain ⟨⟨last, more⟩, hlast, h⟩ := bind_eq_ok h
    cases h
    obtain ⟨rfl, rfl⟩ := Heap.grow_ok hmid
    obtain ⟨rfl, rfl⟩ := Heap.growAll_ok hlast
    have hplace : (heap.datas ++ replicate (seg * segLen) 0).length / segLen
        = heap.datas.length / segLen + seg := by
      rw [length_append, length_replicate, Nat.add_mul_div_right _ _ (by decide)]
    refine ⟨?_, ?_⟩
    · rw [sum_cons, add_mul, append_assoc, replicate_append_replicate]
    · rw [sum_cons, segsGas_add, hplace, Nat.cast_add]

end

/-- **Heap growth gas is additive**, under all prices and wherever the growth is split: the parts
cost what the whole does, unless that is no `i64`. It always is under the prices of the chain,
up to `2 ^ 54` segments. Runs of `HGROW` of the same sum return the same heap and charge the same
gas. -/
theorem heap_growth_additive (g : RunGas) (a m n limit : ℕ) :
    (∀ gas, g.heapGrowGas a (m + n) limit = .ok gas ↔
      ∃ x y, g.heapGrowGas a m limit = .ok x ∧ g.heapGrowGas (a + m) n limit = .ok y ∧
        gas = x + y ∧ x + y ≤ i64Max) ∧
    (∀ l₁ l₂ l₃, a + m ≤ limit → limit ≤ 2 ^ 54 →
      ∃ gas, (new l₁ l₂ l₃).heapGrowGas a m limit = .ok gas ∧ gas ≤ m * 256) ∧
    ∀ (heap heap' heap'' : Heap) (segs segs' : List ℕ) (gas gas' : ℤ),
      heap.growAll g segs = .ok (heap', gas) → heap.growAll g segs' = .ok (heap'', gas') →
      segs.sum = segs'.sum → heap' = heap'' ∧ gas = gas' := by
  refine ⟨fun gas => ?_, fun l₁ l₂ l₃ hm hlimit => ?_, ?_⟩
  · simp only [heapGrowGas_ok_iff]
    rw [segsGas_add, i64Max]
    constructor
    · rintro ⟨hmax, hlim, hlt, rfl⟩
      exact ⟨_, _, ⟨by omega, by omega, by omega, rfl⟩, ⟨by omega, by omega, by omega, rfl⟩,
        Nat.cast_add _ _, by omega⟩
    · rintro ⟨_, _, ⟨-, -, -, rfl⟩, ⟨hmax, hlim, -, rfl⟩, rfl, hle⟩
      exact ⟨by omega, by omega, by omega, by omega⟩
  · have hsum := sum_le_card_nsmul ((range' a m).map (new l₁ l₂ l₃).heapSegGas) 256
      (forall_mem_map.mpr fun s _ => heapSegGas_le l₁ l₂ l₃ s)
    rw [length_map, length_range', smul_eq_mul, ← segsGas] at hsum
    have hmax : 2 ^ 54 ≤ u64Max := by decide
    exact ⟨_, heapGrowGas_ok_iff.mpr ⟨by omega, by omega, by omega, rfl⟩, by omega⟩
  · intro heap heap' heap'' segs segs' gas gas' h h' hsum
    obtain ⟨rfl, rfl⟩ := Heap.growAll_ok h
    obtain ⟨rfl, rfl⟩ := Heap.growAll_ok h'
    rw [hsum]
    exact ⟨rfl, rfl⟩

end Vm

end Hacash
