import Hacash.Vm.Value

/-!
# Equality of values (`vm::value`, item.rs, compo.rs and tuple.rs)

Contracts compare values by content: integers across widths, tuples and lists item by item, maps by
the keys of the left one. **Key result**: `content_eq_equivalence`.
-/

namespace Hacash

open List

namespace Vm

/-- A value, with what its references stand for. The entries of a map are in the order of the keys.
-/
inductive DeepValue where
  | nil
  | bool (b : Bool)
  | uint (ty : UintTy) (n : Fin (256 ^ ty.size))
  | bytes (b : List UInt8)
  | address (a : Address)
  | tuple (ref : ℕ) (items : List DeepValue)
  | list (ref : ℕ) (items : List DeepValue)
  | map (ref : ℕ) (keys : List (List UInt8)) (vals : List DeepValue)
  | handle (ref : ℕ)

open DeepValue

/-- The error of values that differ in type, without the values. -/
def differentTypes : VmrtRes Bool := .error ⟨.arithmetic, "cannot compare different types and"⟩

mutual

/-- `value_content_eq`, with the methods `content_eq` of tuples and of lists and maps. -/
def valueContentEq : DeepValue → DeepValue → VmrtRes Bool
  | .uint _ n, .uint _ m => .ok (decide (n.val = m.val))
  | .bytes l, .address r => if l.length = 21 then .ok (decide (l = r.bytes)) else differentTypes
  | .address r, .bytes l => if l.length = 21 then .ok (decide (l = r.bytes)) else differentTypes
  | .nil, .nil => .ok true
  | .bool l, .bool r => .ok (decide (l = r))
  | .bytes l, .bytes r => .ok (decide (l = r))
  | .address l, .address r => .ok (decide (l = r))
  | .tuple p l, .tuple q r =>
    if p = q then .ok true else if l.length ≠ r.length then .ok false else itemsEq l r
  | .list p l, .list q r =>
    if p = q then .ok true else if l.length ≠ r.length then .ok false else itemsEq l r
  | .list p _, .map q _ _ => .ok (decide (p = q))
  | .map p _ _, .list q _ => .ok (decide (p = q))
  | .map p keys l, .map q keys' r =>
    if p = q then .ok true else if keys.length ≠ keys'.length then .ok false
    else entriesEq keys l (keys'.zip r)
  | .handle _, .handle _ => .error ⟨.arithmetic, "cannot compare and"⟩
  | _, _ => differentTypes

/-- The loop over the items of two tuples or lists. -/
def itemsEq : List DeepValue → List DeepValue → VmrtRes Bool
  | l :: ls, r :: rs => do
    if ← valueContentEq l r then itemsEq ls rs else .ok false
  | _, _ => .ok true

/-- The loop over the entries of the left map. -/
def entriesEq : List (List UInt8) → List DeepValue → List (List UInt8 × DeepValue) → VmrtRes Bool
  | key :: keys, l :: ls, other =>
    match other.lookup key with
    | none => .ok false
    | some r => do
      if ← valueContentEq l r then entriesEq keys ls other else .ok false
  | _, _, _ => .ok true

end

/-! ## What is compared -/

mutual

/-- The content of a value, the same for all values of one content. -/
def DeepValue.canonical : DeepValue → DeepValue
  | .uint ty n => .uint .u128 ⟨n.val, ty.lt_u128 n⟩
  | .address a => .bytes a.bytes
  | .tuple _ items => .tuple 0 (canonicalAll items)
  | .list _ items => .list 0 (canonicalAll items)
  | .map _ keys vals => .map 0 keys (canonicalAll vals)
  | v => v

/-- The contents of a sequence. -/
def canonicalAll : List DeepValue → List DeepValue
  | [] => []
  | v :: vs => v.canonical :: canonicalAll vs

end

mutual

/-- A value of a state of the machine: a reference stands for one cell, and the keys of a map are
in order. -/
def DeepValue.Ok (heap : ℕ → DeepValue) : DeepValue → Prop
  | .tuple ref items => heap ref = .tuple ref items ∧ AllOk heap items
  | .list ref items => heap ref = .list ref items ∧ AllOk heap items
  | .map ref keys vals => heap ref = .map ref keys vals ∧ keys.Pairwise (· < ·) ∧
      keys.length = vals.length ∧ AllOk heap vals
  | _ => True

/-- Every value of a sequence is one. -/
def AllOk (heap : ℕ → DeepValue) : List DeepValue → Prop
  | [] => True
  | v :: vs => v.Ok heap ∧ AllOk heap vs

end

mutual

/-- Maps of one size that the comparison of two values reaches have the same keys. -/
def KeysAgree : DeepValue → DeepValue → Prop
  | .tuple _ l, .tuple _ r => l.length = r.length → AllKeysAgree l r
  | .list _ l, .list _ r => l.length = r.length → AllKeysAgree l r
  | .map _ keys l, .map _ keys' r =>
    keys.length = keys'.length → keys = keys' ∧ AllKeysAgree l r
  | _, _ => True

/-- The first items that differ, or cannot be compared, end the comparison. -/
def AllKeysAgree : List DeepValue → List DeepValue → Prop
  | l :: ls, r :: rs => KeysAgree l r ∧ (valueContentEq l r = .ok true → AllKeysAgree ls rs)
  | _, _ => True

end

/-! ## Maps of the same keys -/

variable {keys : List (List UInt8)} {ls rs : List DeepValue} {heap : ℕ → DeepValue}

theorem entriesEq_eq_itemsEq
    {other : List (List UInt8 × DeepValue)} (hlen : keys.length = ls.length)
    (hfound : List.Forall₂ (fun key r => other.lookup key = some r) keys rs) :
    entriesEq keys ls other = itemsEq ls rs := by
  induction hfound generalizing ls with
  | nil =>
    obtain rfl : ls = [] := eq_nil_of_length_eq_zero hlen.symm
    rfl
  | cons hkey _ ih =>
    cases ls with
    | nil => cases hlen
    | cons l ls =>
      rw [entriesEq, hkey, itemsEq]
      simp only [ih (Nat.succ.inj hlen)]

theorem lookup_zip {vals : List DeepValue} (hnodup : keys.Nodup)
    (hlen : keys.length = vals.length) :
    List.Forall₂ (fun key r => (keys.zip vals).lookup key = some r) keys vals := by
  induction keys generalizing vals with
  | nil =>
    obtain rfl : vals = [] := eq_nil_of_length_eq_zero hlen.symm
    exact .nil
  | cons key keys ih =>
    cases vals with
    | nil => cases hlen
    | cons val vals =>
      obtain ⟨hnew, hnodup⟩ := nodup_cons.mp hnodup
      refine .cons (by simp) ?_
      have hmem : ∀ k ∈ keys, (k == key) = false := by
        intro k hk
        exact beq_eq_false_iff_ne.mpr fun h => hnew (h ▸ hk)
      refine (forall₂_iff_get.mpr ⟨Nat.succ.inj hlen, fun i hi hi' => ?_⟩)
      have htail := (forall₂_iff_get.mp (ih hnodup (Nat.succ.inj hlen))).2 i hi hi'
      rw [zip_cons_cons, lookup_cons, hmem _ (get_mem _ _)]
      exact htail

/-- Two maps that are equal have the same keys. -/
theorem mem_of_entriesEq {other : List (List UInt8 × DeepValue)} (hlen : keys.length = ls.length)
    (h : entriesEq keys ls other = .ok true) : ∀ key ∈ keys, key ∈ other.map Prod.fst := by
  induction keys generalizing ls with
  | nil => exact nofun
  | cons key keys ih =>
    cases ls with
    | nil => cases hlen
    | cons l ls =>
      rw [entriesEq] at h
      cases hkey : other.lookup key with
      | none =>
        rw [hkey] at h
        cases h
      | some r =>
        rw [hkey] at h
        obtain ⟨same, -, h⟩ := bind_eq_ok h
        cases same with
        | false => cases h
        | true =>
          refine forall_mem_cons.mpr ⟨?_, ih (Nat.succ.inj hlen) h⟩
          obtain ⟨k, hk, hmem⟩ := lookup_eq_some_iff.mp hkey
          simp_all

theorem nodup_of_sorted (h : keys.Pairwise (· < ·)) : keys.Nodup := by
  refine h.imp ?_
  rintro key _ hlt rfl
  exact List.lt_irrefl _ hlt

section

variable {keys' : List (List UInt8)} (hsorted : keys.Pairwise (· < ·))
  (hsorted' : keys'.Pairwise (· < ·))
include hsorted hsorted'

theorem keys_eq_of_subset (hlen : keys.length = keys'.length)
    (hsub : ∀ key ∈ keys, key ∈ keys') : keys = keys' := by
  have hperm : keys.Perm keys' :=
    (List.subperm_of_subset (nodup_of_sorted hsorted) hsub).perm_of_length_le hlen.ge
  exact hperm.eq_of_pairwise (fun a b _ _ hab hba => absurd hba (List.lt_asymm hab)) hsorted
    hsorted'

theorem entriesEq_cases {res : Bool}
    (hls : keys.length = ls.length) (hrs : keys'.length = rs.length)
    (hlen : keys.length = keys'.length) (h : entriesEq keys ls (keys'.zip rs) = .ok res) :
    (keys = keys' ∧ itemsEq ls rs = .ok res) ∨ (keys ≠ keys' ∧ res = false) := by
  by_cases hkeys : keys = keys'
  · subst hkeys
    rw [entriesEq_eq_itemsEq hls (lookup_zip (nodup_of_sorted hsorted) hrs)] at h
    exact .inl ⟨rfl, h⟩
  · refine .inr ⟨hkeys, Bool.eq_false_iff.mpr fun hres => hkeys ?_⟩
    rw [hres] at h
    refine keys_eq_of_subset hsorted hsorted' hlen fun key hkey => ?_
    have hmem := mem_of_entriesEq hls h key hkey
    rwa [map_fst_zip hrs.le] at hmem

end

/-! ## A comparison that does not fail -/

theorem canonicalAll_length : ∀ vs : List DeepValue, (canonicalAll vs).length = vs.length
  | [] => rfl
  | _ :: vs => congrArg (· + 1) (canonicalAll_length vs)

/-- Equal references stand for one cell. -/
theorem cell_eq {p q : ℕ} {v w : DeepValue} (hpq : p = q)
    (hv : heap p = v) (hw : heap q = w) : v = w := by
  rw [← hv, hpq, hw]

/-- Two sequences, each behind a reference. -/
theorem sequencesEq_ok {p q : ℕ} {res : Bool} (hptr : p = q → ls = rs)
    (hitems : ls.length = rs.length → itemsEq ls rs = .ok res →
      (res = true ↔ canonicalAll ls = canonicalAll rs))
    (h : (if p = q then .ok true else if ls.length ≠ rs.length then .ok false
      else itemsEq ls rs) = .ok res) : res = true ↔ canonicalAll ls = canonicalAll rs := by
  split_ifs at h with hpq hlen
  · cases h
    rw [hptr hpq]
    exact ⟨fun _ => rfl, fun _ => rfl⟩
  · cases h
    refine ⟨nofun, fun hall => absurd ?_ hlen⟩
    rw [← canonicalAll_length ls, hall, canonicalAll_length]
  · exact hitems (not_not.mp hlen) h

mutual

/-- **What a comparison decides**: whether the contents are the same. -/
theorem valueContentEq_ok :
    ∀ {a b : DeepValue} {res : Bool}, a.Ok heap → b.Ok heap → valueContentEq a b = .ok res →
      (res = true ↔ a.canonical = b.canonical)
  | .nil, b, res, _, _, h => by
    cases b <;> simp_all [valueContentEq, canonical, differentTypes]
  | .bool x, b, res, _, _, h => by
    cases b <;> simp_all [valueContentEq, canonical, differentTypes]
    rw [← h, decide_eq_true_eq]
  | .uint ty n, b, res, _, _, h => by
    cases b <;> simp_all [valueContentEq, canonical, differentTypes]
    rw [← h, decide_eq_true_eq]
    exact (Fin.mk.injEq _ _ _ _).symm.to_iff
  | .bytes x, b, res, _, _, h => by
    cases b with
    | bytes y =>
      cases h
      simp [canonical]
    | address y =>
      rw [valueContentEq] at h
      split_ifs at h
      · cases h
        simp [canonical]
      · cases h
    | _ => cases h
  | .address x, b, res, _, _, h => by
    cases b with
    | address y =>
      cases h
      simp only [canonical, decide_eq_true_eq, bytes.injEq]
      exact ⟨congrArg _, Address.eq_of_bytes⟩
    | bytes y =>
      rw [valueContentEq] at h
      split_ifs at h
      · cases h
        simp only [canonical, decide_eq_true_eq, bytes.injEq]
        exact eq_comm
      · cases h
    | _ => cases h
  | .tuple p ls, b, res, ha, hb, h => by
    cases b with
    | tuple q rs =>
      have hptr : p = q → ls = rs := fun hpq => by
        cases cell_eq hpq ha.1 hb.1
        rfl
      rw [valueContentEq] at h
      simp only [canonical, tuple.injEq, true_and]
      exact sequencesEq_ok hptr (fun hlen => itemsEq_ok ha.2 hb.2 hlen) h
    | _ => cases h
  | .list p ls, b, res, ha, hb, h => by
    cases b with
    | list q rs =>
      have hptr : p = q → ls = rs := fun hpq => by
        cases cell_eq hpq ha.1 hb.1
        rfl
      rw [valueContentEq] at h
      simp only [canonical, list.injEq, true_and]
      exact sequencesEq_ok hptr (fun hlen => itemsEq_ok ha.2 hb.2 hlen) h
    | map q keys rs =>
      cases h
      have hpq : p ≠ q := fun hpq => by
        cases cell_eq hpq ha.1 hb.1
      simp [canonical, hpq]
    | _ => cases h
  | .map p keys ls, b, res, ha, hb, h => by
    cases b with
    | list q rs =>
      cases h
      have hpq : p ≠ q := fun hpq => by
        cases cell_eq hpq ha.1 hb.1
      simp [canonical, hpq]
    | map q keys' rs =>
      obtain ⟨hp, hsorted, hls, ha⟩ := ha
      obtain ⟨hq, hsorted', hrs, hb⟩ := hb
      rw [valueContentEq] at h
      simp only [canonical, DeepValue.map.injEq, true_and]
      split_ifs at h with hpq hlen
      · cases h
        cases cell_eq hpq hp hq
        exact ⟨fun _ => ⟨rfl, rfl⟩, fun _ => rfl⟩
      · cases h
        exact ⟨nofun, fun hall => absurd (congrArg length hall.1) hlen⟩
      · have hlen := not_not.mp hlen
        rcases entriesEq_cases hsorted hsorted' hls hrs hlen h with ⟨rfl, hitems⟩ | ⟨hne, rfl⟩
        · rw [itemsEq_ok ha hb (hls.symm.trans hrs) hitems]
          exact ⟨fun hall => ⟨rfl, hall⟩, fun hall => hall.2⟩
        · exact ⟨nofun, fun hall => absurd hall.1 hne⟩
    | _ => cases h
  | .handle _, b, res, _, _, h => by
    cases b <;> cases h

theorem itemsEq_ok : ∀ {ls rs : List DeepValue} {res : Bool}, AllOk heap ls → AllOk heap rs →
      ls.length = rs.length → itemsEq ls rs = .ok res →
        (res = true ↔ canonicalAll ls = canonicalAll rs)
  | [], [], res, _, _, _, h => by
    cases h
    exact ⟨fun _ => rfl, fun _ => rfl⟩
  | l :: ls, r :: rs, res, hl, hr, hlen, h => by
    rw [itemsEq] at h
    obtain ⟨same, hsame, h⟩ := bind_eq_ok h
    have hhead := valueContentEq_ok hl.1 hr.1 hsame
    simp only [canonicalAll, cons.injEq]
    cases same with
    | false =>
      cases h
      exact ⟨nofun, fun hall => hhead.mpr hall.1⟩
    | true =>
      rw [itemsEq_ok hl.2 hr.2 (Nat.succ.inj hlen) h]
      exact ⟨fun hall => ⟨hhead.mp rfl, hall⟩, fun hall => hall.2⟩

end

/-! ## The two directions -/

theorem guardedEq_comm {p q n m : ℕ} {x y : VmrtRes Bool} (h : n = m → x.toOption = y.toOption) :
    (if p = q then .ok true else if n ≠ m then .ok false else x : VmrtRes Bool).toOption =
      (if q = p then .ok true else if m ≠ n then .ok false else y : VmrtRes Bool).toOption := by
  have hptr : (q = p) = (p = q) := propext eq_comm
  have hlen : (m ≠ n) = (n ≠ m) := propext ne_comm
  simp only [hptr, hlen]
  split_ifs with hpq hne
  · rfl
  · rfl
  · exact h (not_not.mp hne)

theorem toOption_bind {x x' y y' : VmrtRes Bool} (hx : x.toOption = x'.toOption)
    (hy : x = .ok true → y.toOption = y'.toOption) :
    (do if ← x then y else .ok false : VmrtRes Bool).toOption =
      (do if ← x' then y' else .ok false : VmrtRes Bool).toOption := by
  cases x with
  | error e =>
    cases x' with
    | error e' => rfl
    | ok b => cases hx
  | ok b =>
    cases x' with
    | error e' => cases hx
    | ok b' =>
      cases hx
      cases b with
      | true => exact hy rfl
      | false => rfl

mutual

theorem valueContentEq_comm {heap : ℕ → DeepValue} :
    ∀ {a b : DeepValue}, a.Ok heap → b.Ok heap → KeysAgree a b →
      (valueContentEq a b).toOption = (valueContentEq b a).toOption
  | .nil, b, _, _, _ => by cases b <;> rfl
  | .bool x, b, _, _, _ => by
    cases b <;> simp [valueContentEq, eq_comm]
  | .uint ty n, b, _, _, _ => by
    cases b <;> simp [valueContentEq, eq_comm]
  | .bytes x, b, _, _, _ => by
    cases b <;> simp [valueContentEq, eq_comm]
  | .address x, b, _, _, _ => by
    cases b <;> simp [valueContentEq, eq_comm]
  | .tuple p ls, b, ha, hb, hkeys => by
    cases b with
    | tuple q rs =>
      rw [valueContentEq, valueContentEq]
      exact guardedEq_comm fun hlen => itemsEq_comm ha.2 hb.2 hlen (hkeys hlen)
    | _ => rfl
  | .list p ls, b, ha, hb, hkeys => by
    cases b with
    | list q rs =>
      rw [valueContentEq, valueContentEq]
      exact guardedEq_comm fun hlen => itemsEq_comm ha.2 hb.2 hlen (hkeys hlen)
    | map q keys rs => simp [valueContentEq, eq_comm]
    | _ => rfl
  | .map p keys ls, b, ha, hb, hkeys => by
    cases b with
    | list q rs => simp [valueContentEq, eq_comm]
    | map q keys' rs =>
      obtain ⟨-, hsorted, hls, ha⟩ := ha
      obtain ⟨-, -, hrs, hb⟩ := hb
      rw [valueContentEq, valueContentEq]
      refine guardedEq_comm fun hlen => ?_
      obtain ⟨rfl, hvals⟩ := hkeys hlen
      have hnodup := nodup_of_sorted hsorted
      rw [entriesEq_eq_itemsEq hls (lookup_zip hnodup hrs),
        entriesEq_eq_itemsEq hrs (lookup_zip hnodup hls)]
      exact itemsEq_comm ha hb (hls.symm.trans hrs) hvals
    | _ => rfl
  | .handle _, b, _, _, _ => by cases b <;> rfl

theorem itemsEq_comm {heap : ℕ → DeepValue} :
    ∀ {ls rs : List DeepValue}, AllOk heap ls → AllOk heap rs → ls.length = rs.length →
      AllKeysAgree ls rs → (itemsEq ls rs).toOption = (itemsEq rs ls).toOption
  | [], [], _, _, _, _ => rfl
  | l :: ls, r :: rs, hl, hr, hlen, hkeys => by
    rw [itemsEq, itemsEq]
    exact toOption_bind (valueContentEq_comm hl.1 hr.1 hkeys.1)
      fun heq => itemsEq_comm hl.2 hr.2 (Nat.succ.inj hlen) (hkeys.2 heq)

end

/-- An integer of one byte. -/
def DeepValue.one : DeepValue := .uint .u8 ⟨1, by decide⟩

/-- The maps `a: 1, b: 1` and `b: 0x, c: 1`. -/
def mapAB : DeepValue := .map 0 [[97], [98]] [.one, .one]

def mapBC : DeepValue := .map 1 [[98], [99]] [.bytes [], .one]

/-- **Maps with different keys.** In one direction a key is missing in the other map, in the other
its values cannot be compared. -/
theorem content_eq_one_sided :
    valueContentEq mapAB mapBC = .ok false ∧ valueContentEq mapBC mapAB = differentTypes :=
  ⟨rfl, rfl⟩

/-- **Comparisons do not contradict each other.** In one state of the machine two values have the
same outcome in both directions, if the maps of one size that are reached have the same keys; two
results agree in any case; a value that can be compared with itself is equal to itself; and
equality is transitive where the ends can be compared. -/
theorem content_eq_equivalence (heap : ℕ → DeepValue) (a b c : DeepValue) (ha : a.Ok heap)
    (hb : b.Ok heap) (hc : c.Ok heap) :
    (KeysAgree a b → (valueContentEq a b).toOption = (valueContentEq b a).toOption) ∧
    (∀ res res', valueContentEq a b = .ok res → valueContentEq b a = .ok res' → res = res') ∧
    (∀ res, valueContentEq a a = .ok res → res = true) ∧
    (valueContentEq a b = .ok true → valueContentEq b c = .ok true →
      ∀ res, valueContentEq a c = .ok res → res = true) := by
  refine ⟨valueContentEq_comm ha hb, fun res res' h h' => ?_, fun res h => ?_,
    fun hab hbc res h => ?_⟩
  · rw [Bool.eq_iff_iff, valueContentEq_ok ha hb h, valueContentEq_ok hb ha h']
    exact eq_comm
  · exact (valueContentEq_ok ha ha h).mpr rfl
  · have hab := (valueContentEq_ok ha hb hab).mp rfl
    have hbc := (valueContentEq_ok hb hc hbc).mp rfl
    exact (valueContentEq_ok ha hc h).mpr (hab.trans hbc)

/-- Two lists of one integer, in one and in two bytes. -/
theorem content_eq_equivalence_lists :
    let heap : ℕ → DeepValue :=
      fun ref => if ref = 0 then .list 0 [.uint .u8 1] else .list ref [.uint .u16 1]
    DeepValue.Ok heap (.list 0 [.uint .u8 1]) ∧ DeepValue.Ok heap (.list 1 [.uint .u16 1]) ∧
      KeysAgree (.list 0 [.uint .u8 1]) (.list 1 [.uint .u16 1]) ∧
      (valueContentEq (.list 0 [.uint .u8 1]) (.list 1 [.uint .u16 1])).toOption =
        (valueContentEq (.list 1 [.uint .u16 1]) (.list 0 [.uint .u8 1])).toOption := by
  intro heap
  have ha : DeepValue.Ok heap (.list 0 [.uint .u8 1]) := ⟨rfl, trivial, trivial⟩
  have hb : DeepValue.Ok heap (.list 1 [.uint .u16 1]) := ⟨rfl, trivial, trivial⟩
  have hkeys : KeysAgree (.list 0 [.uint .u8 1]) (.list 1 [.uint .u16 1]) :=
    fun _ => ⟨trivial, fun _ => trivial⟩
  exact ⟨ha, hb, hkeys, (content_eq_equivalence heap _ _ _ ha hb ha).1 hkeys⟩

end Vm

end Hacash
