import Hacash.Lib.PairTree
import Hacash.Codec.Signers

/-!
# The merkle root of a block (`protocol::codec::block`)

The last hash of an odd layer is hashed with itself. Every function is related to `Top` of its pair
hash.
-/

namespace Hacash

open Lib List

/-- The bytes under a node: two hashes, one after the other. -/
def pairBytes (lh rh : Hash) : List UInt8 := lh.bytes ++ rh.bytes

theorem pairBytes_length (lh rh : Hash) : (pairBytes lh rh).length = 64 := by
  rw [pairBytes, length_append, lh.size, rh.size]

theorem pairBytes_inj {p q : Hash × Hash} (h : pairBytes p.1 p.2 = pairBytes q.1 q.2) : p = q := by
  obtain ⟨hl, hr⟩ := append_inj h (by rw [p.1.size, q.1.size])
  exact Prod.ext (Hash.eq_of_bytes hl) (Hash.eq_of_bytes hr)

namespace Crypto

variable (cr : Crypto)

/-- `Hash::from(sys::calculate_hash(pair))`. -/
def mrklNode (lh rh : Hash) : Hash := cr.calculateHash (pairBytes lh rh)

/-- The loop of `mrkl_merge`, from index `i` on. -/
def mrklMergeLoop (list : List Hash) : ℕ → ℕ → List Hash → List Hash
  | 0, _, res => res
  | fuel + 1, i, res =>
    match list[i]? with
    | none => res
    | some lh =>
      let rh := (list[i + 1]?).getD lh
      mrklMergeLoop list fuel (i + 2) (res ++ [cr.mrklNode lh rh])

def mrklMerge (list : List Hash) : List Hash := cr.mrklMergeLoop list list.length 0 []

def calculateMrklroot (list : List Hash) : Hash :=
  if list = [] then .fill 0
  else (climb cr.mrklMerge list.length list).headD (.fill 0)

/-- The loop of `calculate_mrkl_prelude_modify`. -/
def mrklModifyLoop : ℕ → List Hash → List Hash → List Hash
  | 0, _, out => out
  | fuel + 1, layer, out =>
    match layer with
    | _ :: second :: _ => mrklModifyLoop fuel (cr.mrklMerge layer) (out ++ [second])
    | _ => out

/-- `calculate_mrkl_prelude_modify`; `none` if it panics. -/
def calculateMrklPreludeModify : List Hash → Option (List Hash)
  | [] => none
  | [_] => some []
  | [_, second] => some [second]
  | list => some (cr.mrklModifyLoop list.length list [])

def calculateMrklPreludeUpdate (cbhx : Hash) (list : List Hash) : Hash :=
  list.foldl cr.mrklNode cbhx

/-! ## What they compute -/

variable {list : List Hash}

/-- Merging from index `i` on adds the layer above the rest of the list. -/
theorem mrklMergeLoop_eq {fuel i : ℕ} (hfuel : list.length ≤ i + fuel) (res : List Hash) :
    cr.mrklMergeLoop list fuel i res = res ++ pairUp cr.mrklNode (list.drop i) := by
  induction fuel generalizing i res with
  | zero =>
    rw [drop_eq_nil_of_le (show list.length ≤ i from hfuel)]
    exact (append_nil res).symm
  | succ fuel ih =>
    rw [mrklMergeLoop]
    rcases Nat.lt_or_ge i list.length with hi | hi
    · rw [getElem?_eq_getElem hi, drop_eq_getElem_cons hi]
      show mrklMergeLoop cr list fuel (i + 2) _ = _
      rw [ih (by omega), append_assoc]
      congr 1
      rcases Nat.lt_or_ge (i + 1) list.length with hi' | hi'
      · rw [getElem?_eq_getElem hi', drop_eq_getElem_cons hi']
        rfl
      · -- the index is at the last hash of an odd list
        rw [getElem?_eq_none hi', drop_eq_nil_of_le hi',
          drop_eq_nil_of_le (by omega)]
        rfl
    · rw [getElem?_eq_none hi, drop_eq_nil_of_le hi]
      exact (append_nil res).symm

theorem mrklMerge_eq : cr.mrklMerge = pairUp cr.mrklNode := by
  funext list
  exact cr.mrklMergeLoop_eq (by omega) []

/-- The root is the top of the list. -/
theorem calculateMrklroot_eq {r : Hash} (htop : Top cr.mrklNode list r) :
    cr.calculateMrklroot list = r := by
  have hne : list ≠ [] := by
    rintro rfl
    cases htop with
    | up hlen _ => simp at hlen
  rw [calculateMrklroot, if_neg hne, mrklMerge_eq, climb_pairUp htop le_rfl]
  rfl

theorem calculateMrklroot_top (hne : list ≠ []) :
    Top cr.mrklNode list (cr.calculateMrklroot list) := by
  obtain ⟨r, hr⟩ := exists_top cr.mrklNode list hne
  rw [cr.calculateMrklroot_eq hr]
  exact hr

theorem mrklModifyLoop_eq (fuel : ℕ) (layer out : List Hash) :
    cr.mrklModifyLoop fuel layer out = out ++ siblings (pairUp cr.mrklNode) fuel layer := by
  induction fuel generalizing layer out with
  | zero => exact (append_nil out).symm
  | succ fuel ih =>
    match layer with
    | [] => exact (append_nil out).symm
    | [a] => exact (append_nil out).symm
    | a :: second :: rest =>
      rw [mrklModifyLoop, ih, mrklMerge_eq, append_assoc]
      rfl

theorem calculateMrklPreludeModify_eq (first : Hash) (rest : List Hash) :
    cr.calculateMrklPreludeModify (first :: rest) =
      some (siblings (pairUp cr.mrklNode) (first :: rest).length (first :: rest)) := by
  match rest with
  | [] => rfl
  | [second] => rfl
  | second :: third :: rest =>
    show some (cr.mrklModifyLoop _ _ _) = _
    rw [mrklModifyLoop_eq]
    rfl

theorem calculateMrklPreludeModify_top (first : Hash) (rest : List Hash) (c : Hash) :
    ∃ path, cr.calculateMrklPreludeModify (first :: rest) = some path ∧
      Top cr.mrklNode (c :: rest) (cr.calculateMrklPreludeUpdate c path) := by
  refine ⟨_, cr.calculateMrklPreludeModify_eq first rest, ?_⟩
  obtain ⟨r, hr⟩ := exists_top cr.mrklNode (first :: rest) (cons_ne_nil _ _)
  exact hr.replace rfl c le_rfl

/-! ## The bytes that are hashed -/

/-- Every input of the hash function while the root of the list is computed. -/
def mrklInputs (list : List Hash) : List (List UInt8) :=
  (layers cr.mrklMerge list.length list).flatMap fun layer =>
    (pairs layer).map fun p => pairBytes p.1 p.2

theorem length_of_mem_mrklInputs {bytes : List UInt8}
    (h : bytes ∈ cr.mrklInputs list) : bytes.length = 64 := by
  obtain ⟨layer, -, hlayer⟩ := mem_flatMap.mp h
  obtain ⟨p, -, rfl⟩ := mem_map.mp hlayer
  exact pairBytes_length p.1 p.2

theorem calculateMrklroot_inj {S : Set (List UInt8)} (hinj : Set.InjOn cr.calculateHash S)
    {l₁ l₂ : List Hash} (hlen : l₁.length = l₂.length) (hS₁ : ∀ x ∈ cr.mrklInputs l₁, x ∈ S)
    (hS₂ : ∀ x ∈ cr.mrklInputs l₂, x ∈ S)
    (hroot : cr.calculateMrklroot l₁ = cr.calculateMrklroot l₂) : l₁ = l₂ := by
  rcases eq_nil_or_concat l₁ with rfl | hne
  · exact (length_eq_zero_iff.mp hlen.symm).symm
  have hne₁ : l₁ ≠ [] := by
    obtain ⟨init, last, rfl⟩ := hne
    simp
  have hne₂ : l₂ ≠ [] := by
    rintro rfl
    exact hne₁ (length_eq_zero_iff.mp hlen)
  -- the pairs whose bytes are in `S`
  let T : Set (Hash × Hash) := {p | pairBytes p.1 p.2 ∈ S}
  have hnode : Set.InjOn (fun p : Hash × Hash => cr.mrklNode p.1 p.2) T :=
    fun p hp q hq h => pairBytes_inj (hinj hp hq h)
  have hin : ∀ l : List Hash, (∀ x ∈ cr.mrklInputs l, x ∈ S) →
      ∀ layer ∈ layers (pairUp cr.mrklNode) l.length l, ∀ p ∈ pairs layer, p ∈ T := by
    intro l hl layer hlayer p hp
    rw [← mrklMerge_eq] at hlayer
    exact hl _ (mem_flatMap.mpr ⟨layer, hlayer, mem_map_of_mem hp⟩)
  have htop₂ := cr.calculateMrklroot_top hne₂
  rw [← hroot] at htop₂
  exact (cr.calculateMrklroot_top hne₁).inj hnode htop₂ hlen le_rfl (hin l₁ hS₁)
    (by rw [hlen]; exact hin l₂ hS₂)

theorem calculateMrklroot_concat_last {last : Hash} (hne : list ≠ [])
    (hodd : (list ++ [last]).length % 2 = 1) :
    cr.calculateMrklroot (list ++ [last] ++ [last]) = cr.calculateMrklroot (list ++ [last]) :=
  cr.calculateMrklroot_eq ((cr.calculateMrklroot_top (by simp)).concat_last hodd hne)

end Crypto

end Hacash
