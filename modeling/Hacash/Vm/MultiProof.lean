import Hacash.Lib.Blocks
import Hacash.Lib.HashTree
import Hacash.Vm.Value

/-!
# Merkle multi-proofs (crypto.rs)

Leaves, proof nodes and what was merged wait in a queue, which is a forest (`rootLoop_forest`).
**Key result**: `merkle_multi_root_sound`.
-/

namespace Hacash

open Lib List HashTree

namespace Vm

/-- The two hash functions to choose from. -/
structure MerkleHash where
  sha256 : List UInt8 → List UInt8
  keccak256 : List UInt8 → List UInt8

variable (hash : MerkleHash)

def hashPair (kind : UInt8) (a b : List UInt8) : List UInt8 :=
  let input := if a ≤ b then a ++ b else b ++ a
  if kind = 0 then hash.sha256 input else hash.keccak256 input

def nodes (bytes : List UInt8) (label : String) : VmrtRes (List (List UInt8)) := do
  check (bytes.length % 32 = 0) .nativeFuncError
    ("merkle_multi_root " ++ label ++ " length must be a multiple of 32")
  return (range (bytes.length / 32)).map (block 32 bytes)

/-- The flag of an operation. -/
def flagAt (flags : List UInt8) (op : ℕ) : Bool := (flags.getD (op / 8) 0).toNat.testBit (op % 8)

/-- The loop of `merkle_multi_root`: the queue and the proof nodes left. -/
def rootLoop (pair : List UInt8 → List UInt8 → List UInt8) (flags : List UInt8) :
    List ℕ → (queue proof : List (List UInt8)) →
      VmrtRes (List (List UInt8) × List (List UInt8))
  | [], queue, proof => .ok (queue, proof)
  | _ :: _, [], _ => .error ⟨.nativeFuncError, "merkle_multi_root queue exhausted at operation"⟩
  | op :: ops, a :: queue, proof =>
    if flagAt flags op then
      match queue with
      | [] => .error ⟨.nativeFuncError, "merkle_multi_root queue exhausted for flagged node"⟩
      | b :: queue => rootLoop pair flags ops (queue ++ [pair a b]) proof
    else
      match proof with
      | [] => .error ⟨.nativeFuncError, "merkle_multi_root proof exhausted"⟩
      | b :: proof => rootLoop pair flags ops (queue ++ [pair a b]) proof

/-- `merkle_multi_root` of its four arguments. -/
def merkleMultiRoot (hashKind : UInt8) (leavesBytes proofBytes flags : List UInt8) :
    VmrtRes (List UInt8) := do
  check (hashKind ≤ 1) .nativeFuncError "merkle_multi_root invalid hash_kind"
  let leaves ← nodes leavesBytes "leaves"
  let proof ← nodes proofBytes "proof"
  check (leaves ≠ []) .nativeFuncError "merkle_multi_root requires at least one leaf"
  let total := leaves.length + proof.length
  check (total ≤ 32) .nativeFuncError "merkle_multi_root leaves plus proof exceeds 32 nodes"
  let hashes := total - 1
  check (flags.length = (hashes + 7) / 8) .nativeFuncError
    "merkle_multi_root flags length must be"
  check (hashes % 8 = 0 ∨ ∀ last ∈ flags.getLast?, last.toNat >>> (hashes % 8) = 0)
    .nativeFuncError "merkle_multi_root flags has nonzero unused bits"
  let (queue, rest) ← rootLoop (hashPair hash hashKind) flags (range hashes) leaves proof
  check (rest = []) .nativeFuncError "merkle_multi_root proof nodes were not fully consumed"
  match queue with
  | [root] => return root
  | _ => .error ⟨.nativeFuncError, "merkle_multi_root expected one final node, got"⟩

variable {hash}

theorem hashPair_comm (kind : UInt8) (a b : List UInt8) :
    hashPair hash kind a b = hashPair hash kind b a := by
  have hinput : (if a ≤ b then a ++ b else b ++ a) = if b ≤ a then b ++ a else a ++ b := by
    split_ifs with hab hba hba
    · rw [List.le_antisymm hab hba]
    · rfl
    · rfl
    · exact absurd ((List.le_total a b).resolve_left hab) hba
  simp only [hashPair, hinput]

/-- The leaves of a forest. -/
def forestLeaves (ts : List (HashTree (List UInt8))) : List (List UInt8) :=
  ts.flatMap leaves

theorem rootLoop_forest {pair : List UInt8 → List UInt8 → List UInt8} {flags : List UInt8}
    {ops : List ℕ} (ts : List (HashTree (List UInt8))) {proof queue' proof' : List (List UInt8)}
    (h : rootLoop pair flags ops (ts.map (root pair)) proof = .ok (queue', proof')) :
    ∃ ts', queue' = ts'.map (root pair) ∧
      (forestLeaves ts' ++ proof').Perm (forestLeaves ts ++ proof) := by
  induction ops generalizing ts proof with
  | nil =>
    cases h
    exact ⟨ts, rfl, .refl _⟩
  | cons op ops ih =>
    -- the merged tree goes to the end of the queue
    have hpush : ∀ (a b : HashTree (List UInt8)) rest,
        (forestLeaves (rest ++ [.node a b])).Perm (forestLeaves (a :: b :: rest)) := by
      intro a b rest
      simp only [forestLeaves, flatMap_append, flatMap_cons, flatMap_nil,
        leaves, append_nil]
      rw [← append_assoc a.leaves]
      exact perm_append_comm
    cases ts with
    | nil => cases h
    | cons a ts =>
      by_cases hflag : flagAt flags op = true
      · cases ts with
        | nil =>
          simp only [map_cons, map_nil, rootLoop, hflag, if_true] at h
          cases h
        | cons b ts =>
          simp only [map_cons, rootLoop, hflag, if_true] at h
          obtain ⟨ts', hq, hperm⟩ := ih (ts ++ [.node a b]) (by rw [map_append]; exact h)
          exact ⟨ts', hq, hperm.trans ((hpush a b ts).append_right _)⟩
      · cases proof with
        | nil =>
          simp only [map_cons, rootLoop, hflag] at h
          cases h
        | cons b proof =>
          simp only [map_cons, rootLoop, hflag] at h
          obtain ⟨ts', hq, hperm⟩ :=
            ih (ts ++ [.node a (.leaf b)]) (by rw [map_append]; exact h)
          refine ⟨ts', hq, hperm.trans (((hpush a (.leaf b) ts).append_right _).trans ?_)⟩
          -- the proof node has moved into the forest
          simp only [forestLeaves, flatMap_cons, leaves, append_assoc,
            singleton_append]
          exact perm_middle.symm.append_left _

/-- A tree whose only node is the hash of two leaves: the leaves are not among its nodes. The hash
is the input itself, so different pairs of nodes differ. -/
theorem multi_root_below_leaf :
    let hash : MerkleHash := ⟨id, id⟩
    let a := replicate 32 1
    let b := replicate 32 2
    (∀ c d c' d' : List UInt8, c.length = 32 → d.length = 32 → c'.length = 32 → d'.length = 32 →
      hashPair hash 0 c d = hashPair hash 0 c' d' → (c, d) = (c', d') ∨ (c, d) = (d', c')) ∧
    ∃ t : HashTree (List UInt8),
      merkleMultiRoot hash 0 (a ++ b) [] [1] = .ok (t.root (hashPair hash 0)) ∧
      nodes (a ++ b) "leaves" = .ok [a, b] ∧ a ∉ t.values (hashPair hash 0) := by
  intro hash a b
  refine ⟨?_, .leaf (a ++ b), by decide +kernel, by decide +kernel, by decide +kernel⟩
  intro c d c' d' hc hd hc' hd' heq
  have heq : (if c ≤ d then c ++ d else d ++ c) = if c' ≤ d' then c' ++ d' else d' ++ c' := heq
  split_ifs at heq
  · exact Or.inl (Prod.ext_iff.mpr (append_inj heq (hc.trans hc'.symm)))
  · exact Or.inr (Prod.ext_iff.mpr (append_inj heq (hc.trans hd'.symm)))
  · exact Or.inr (Prod.ext_iff.mpr (append_inj heq (hd.trans hc'.symm)).symm)
  · exact Or.inl (Prod.ext_iff.mpr (append_inj heq (hd.trans hd'.symm)).symm)

/-- **Multi-proofs are sound.** A value that is returned is the root of a tree over exactly the
leaves and the proof nodes. A tree with that root has every leaf among its nodes, if no pairs of
the two collide and none of its own leaves is the hash of a pair. -/
theorem merkle_multi_root_sound (hash : MerkleHash) (hashKind : UInt8)
    (leavesBytes proofBytes flags root : List UInt8)
    (h : merkleMultiRoot hash hashKind leavesBytes proofBytes flags = .ok root) :
    (∀ a b, hashPair hash hashKind a b = hashPair hash hashKind b a) ∧
    ∃ leaves proof, ∃ t : HashTree (List UInt8), nodes leavesBytes "leaves" = .ok leaves ∧
      nodes proofBytes "proof" = .ok proof ∧ t.root (hashPair hash hashKind) = root ∧
      t.leaves.Perm (leaves ++ proof) ∧
      ∀ u : HashTree (List UInt8), t.Separate (hashPair hash hashKind) u →
        t.LeavesApart (hashPair hash hashKind) u → u.root (hashPair hash hashKind) = root →
        ∀ leaf ∈ leaves, leaf ∈ u.values (hashPair hash hashKind) := by
  refine ⟨hashPair_comm hashKind, ?_⟩
  replace h := check_drop h
  obtain ⟨leaves, hleaves, h⟩ := bind_eq_ok h
  obtain ⟨proof, hproof, h⟩ := bind_eq_ok h
  replace h := check_drop h
  replace h := check_drop h
  replace h := check_drop h
  replace h := check_drop h
  obtain ⟨⟨queue, rest⟩, hloop, h⟩ := bind_eq_ok h
  obtain ⟨hrest, h⟩ := check_bind_iff.mp h
  -- every leaf starts as a tree of its own
  have hstart :
      leaves = (leaves.map HashTree.leaf).map (HashTree.root (hashPair hash hashKind)) := by
    rw [map_map]
    exact (map_id leaves).symm
  have hsingle : forestLeaves (leaves.map HashTree.leaf) = leaves := by
    rw [forestLeaves, flatMap_map]
    exact flatMap_singleton' leaves
  rw [hstart] at hloop
  obtain ⟨ts, rfl, hperm⟩ := rootLoop_forest _ hloop
  rw [hrest, append_nil, hsingle] at hperm
  match ts, h with
  | [t], h =>
    cases h
    rw [forestLeaves, flatMap_singleton] at hperm
    refine ⟨leaves, proof, t, hleaves, hproof, rfl, hperm, ?_⟩
    intro u hsep hapart hroot leaf hleaf
    exact leaf_mem_values hsep hapart hroot.symm leaf
      (hperm.mem_iff.mpr (mem_append_left _ hleaf))

/-- A hash of 32 equal bytes, which tells the pairs of the sample apart. -/
def sampleMerkleHash : MerkleHash :=
  let sum (bytes : List UInt8) := replicate 32 (bytes.foldl (fun acc byte => 5 * acc + byte) 7)
  ⟨sum, sum⟩

theorem length_leaves_pos (t : HashTree (List UInt8)) : 0 < t.leaves.length := by
  induction t with
  | leaf a => exact Nat.one_pos
  | node l r ihl _ =>
    rw [leaves, length_append]
    omega

theorem exists_leaf {t : HashTree (List UInt8)} (h : t.leaves.length ≤ 1) : ∃ a, t = .leaf a := by
  cases t with
  | leaf a => exact ⟨a, rfl⟩
  | node l r =>
    have hl := length_leaves_pos l
    have hr := length_leaves_pos r
    rw [leaves, length_append] at h
    omega

/-- The trees over three leaves in this order. -/
def treesOver : List (List UInt8) → List (HashTree (List UInt8))
  | [x, y, z] => [.node (.node (.leaf x) (.leaf y)) (.leaf z),
      .node (.leaf x) (.node (.leaf y) (.leaf z))]
  | _ => []

theorem mem_treesOver {t : HashTree (List UInt8)} (h : t.leaves.length = 3) :
    t ∈ treesOver t.leaves := by
  match t, h with
  | .node (.node l m) r, h =>
    have hl := length_leaves_pos l
    have hm := length_leaves_pos m
    have hr := length_leaves_pos r
    simp only [leaves, length_append] at h
    obtain ⟨x, rfl⟩ := exists_leaf (t := l) (by omega)
    obtain ⟨y, rfl⟩ := exists_leaf (t := m) (by omega)
    obtain ⟨z, rfl⟩ := exists_leaf (t := r) (by omega)
    exact mem_cons_self
  | .node (.leaf x) (.node m r), h =>
    have hm := length_leaves_pos m
    have hr := length_leaves_pos r
    simp only [leaves, length_append, length_singleton] at h
    obtain ⟨y, rfl⟩ := exists_leaf (t := m) (by omega)
    obtain ⟨z, rfl⟩ := exists_leaf (t := r) (by omega)
    exact mem_cons_of_mem _ mem_cons_self

/-- Two leaves and one proof node: both leaves are in a tree with that root that another party
built. -/
theorem merkle_multi_root_sound_three :
    let pair := hashPair sampleMerkleHash 0
    let a := replicate 32 1
    let b := replicate 32 2
    let c := replicate 32 3
    let u : HashTree (List UInt8) := .node (.leaf c) (.node (.leaf b) (.leaf a))
    merkleMultiRoot sampleMerkleHash 0 (a ++ b) c [1] = .ok (u.root pair) ∧
      a ∈ u.values pair ∧ b ∈ u.values pair := by
  intro pair a b c u
  have hroot : merkleMultiRoot sampleMerkleHash 0 (a ++ b) c [1] = .ok (u.root pair) := by
    decide +kernel
  obtain ⟨-, ls, proof, t, hls, hproof, ht, hperm, hbinds⟩ :=
    merkle_multi_root_sound sampleMerkleHash 0 (a ++ b) c [1] (u.root pair) hroot
  obtain rfl : ls = [a, b] := Except.ok.inj (hls.symm.trans (by decide +kernel))
  obtain rfl : proof = [c] := Except.ok.inj (hproof.symm.trans (by decide +kernel))
  -- of the trees over the three nodes, those with this root have the pairs of the other tree
  have htrees : ∀ l ∈ permutations' [a, b, c], ∀ t ∈ treesOver l, t.root pair = u.root pair →
      t.Separate pair u ∧ t.LeavesApart pair u := by
    decide +kernel
  obtain ⟨hsep, hapart⟩ := htrees _ (mem_permutations'.mpr hperm) t
    (mem_treesOver hperm.length_eq) ht
  have hmem := hbinds u hsep hapart rfl
  exact ⟨hroot, hmem a (by simp), hmem b (by simp)⟩

end Vm

end Hacash
