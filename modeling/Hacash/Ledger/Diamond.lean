import Hacash.Ledger.Operate
import Hacash.Lib.Blocks

/-!
# Diamonds in the ledger (`base::ledger`, operate.rs; `field::types`, diamond_sto.rs)

The diamond record, the count in a balance, the buffer of names and the number of a name, with one
lemma for each operation.
-/

namespace Hacash

open List DiamondName Function

open CoreState Hacash.Lib

/-! ## Lists of names (diamond.rs) -/

def diamondListMax : ℕ := 200

/-- One turn of the loop of `check`. -/
def checkDiamondName (seen : List DiamondName) (name : DiamondName) : Ret (List DiamondName) := do
  ensure (name.isValid = true) (.fault "diamond name is not valid")
  ensure (name ∉ seen) (.fault "diamond name is duplicated")
  return seen ++ [name]

/-- `DiamondNameListMax200::check`: the number of names. -/
def checkDiamondNames (names : List DiamondName) : Ret ℕ := do
  ensure (names.length ≠ 0) (.fault "diamonds quantity cannot be zero")
  ensure (names.length ≤ diamondListMax) (.fault "diamonds quantity cannot exceed 200")
  let _ ← names.foldlM checkDiamondName []
  return names.length

theorem checkDiamondName_iff (seen : List DiamondName) (name : DiamondName)
    (out : List DiamondName) : checkDiamondName seen name = .ok out ↔
      name ∉ seen ∧ name.isValid = true ∧ out = seen ++ [name] := by
  rw [checkDiamondName, ensure_bind_iff, ensure_bind_iff]
  constructor
  · rintro ⟨hvalid, hnew, h⟩
    cases h
    exact ⟨hnew, hvalid, rfl⟩
  · rintro ⟨hnew, hvalid, rfl⟩
    exact ⟨hvalid, hnew, rfl⟩

theorem checkDiamondNames_ok {names : List DiamondName} {n : ℕ}
    (h : checkDiamondNames names = .ok n) :
    n = names.length ∧ names ≠ [] ∧ names.length ≤ diamondListMax ∧ names.Nodup := by
  obtain ⟨hne, h⟩ := ensure_bind_iff.mp h
  obtain ⟨hle, h⟩ := ensure_bind_iff.mp h
  obtain ⟨seen, hseen, h⟩ := bind_eq_ok h
  cases h
  have hscan : ∀ (present : List DiamondName) (x : DiamondName) (out : List DiamondName),
      checkDiamondName present x = .ok out ↔
        id x ∉ present ∧ x.isValid = true ∧ out = present ++ [id x] := checkDiamondName_iff
  obtain ⟨hnodup, -⟩ := (foldlM_scan hscan).mp hseen
  rw [map_id] at hnodup
  exact ⟨rfl, fun hnil => hne (by rw [hnil]; rfl), hle, hnodup⟩

/-! ## Buffers of names (diamond_sto.rs) -/

/-- `BytesW4::from`. -/
def bytesW4 (bytes : List UInt8) : Ret (List UInt8) := do
  ensure (bytes.length ≤ 2 ^ 32 - 1) (.fault "BytesW4 length overflow")
  return bytes

theorem bytesW4_ok {bytes out : List UInt8} (h : bytesW4 bytes = .ok out) : out = bytes := by
  replace h := ensure_drop h
  cases h
  rfl

namespace DiamondOwnedForm

def containsDiamond (form : DiamondOwnedForm) (name : DiamondName) : Bool :=
  form.names.length % 6 == 0 &&
    (List.range (form.names.length / 6)).any fun i => block 6 form.names i == name.bytes

/-- `push_one`: a name that is there already is not added again. -/
def pushOne (form : DiamondOwnedForm) (name : DiamondName) : Ret DiamondOwnedForm :=
  if form.containsDiamond name then .ok form
  else do
    let names ← bytesW4 (form.names ++ name.bytes)
    return ⟨names⟩

def push (form : DiamondOwnedForm) (names : List DiamondName) : Ret DiamondOwnedForm :=
  names.foldlM pushOne form

/-- The loop of `drop` at position `index`, with `left` names to come: the buffer, the number of
names that stay and the names not found. The last name moves into the gap of one that is removed.
-/
def dropLoop : (left index : ℕ) → (form : List UInt8) → (pending : List DiamondName) →
    List UInt8 × ℕ × List DiamondName
  | 0, index, form, pending => (form, index, pending)
  | left + 1, index, form, pending =>
    match pending.find? (fun name => name.bytes == block 6 form index) with
    | none => dropLoop left (index + 1) form pending
    | some name =>
      let length := index + left
      let form := if index < length then putBlock 6 form index (block 6 form length) else form
      if pending.erase name = [] then (form, length, [])
      else dropLoop left index form (pending.erase name)

def drop (form : DiamondOwnedForm) (names : List DiamondName) : Ret DiamondOwnedForm := do
  ensure (form.names.length % 6 = 0) (.fault "DiamondOwnedForm names length invalid")
  let (buf, length, pending) := dropLoop (form.names.length / 6) 0 form.names names.dedup
  ensure (pending = []) (.fault "diamond names not found in owned form")
  let names ← bytesW4 (buf.take (length * 6))
  return ⟨names⟩

/-- The names in a buffer, in order. -/
def Lists (form : DiamondOwnedForm) (names : List DiamondName) : Prop :=
  form.names = names.flatMap bytes

variable {form form' : DiamondOwnedForm} {names : List DiamondName}

theorem Lists.length (h : form.Lists names) : form.names.length = names.length * 6 := by
  rw [h, length_flatMap_block DiamondName.size]

theorem bytes_inj {a b : DiamondName} (h : a.bytes = b.bytes) : a = b := by
  cases a
  cases b
  cases h
  rfl

theorem Lists.containsDiamond_iff (h : form.Lists names) (name : DiamondName) :
    form.containsDiamond name = true ↔ name ∈ names := by
  have hlen := h.length
  have hmod : form.names.length % 6 = 0 := by omega
  have hdiv : form.names.length / 6 = names.length := by omega
  rw [containsDiamond, hmod, hdiv, h]
  simp only [beq_self_eq_true, Bool.true_and, any_eq_true, mem_range, beq_iff_eq]
  constructor
  · rintro ⟨i, hi, hblock⟩
    have hsplit : names.take i ++ names[i] :: names.drop (i + 1) = names := by
      rw [getElem_cons_drop, take_append_drop]
    have hpos : (names.take i).length = i := length_take_of_le hi.le
    have hread := block_flatMap DiamondName.size (names.take i) (names.drop (i + 1)) names[i]
    rw [hsplit, hpos, hblock] at hread
    rw [bytes_inj hread]
    exact getElem_mem hi
  · intro hname
    obtain ⟨pre, post, rfl⟩ := append_of_mem hname
    refine ⟨pre.length, by simp, ?_⟩
    exact block_flatMap DiamondName.size pre post name

/-- A push adds the name, once. -/
theorem Lists.pushOne {name : DiamondName} (hl : form.Lists names) (hnodup : names.Nodup)
    (h : form.pushOne name = .ok form') :
    ∃ names', form'.Lists names' ∧ names'.Nodup ∧ ∀ n, n ∈ names' ↔ n ∈ names ∨ n = name := by
  rw [DiamondOwnedForm.pushOne] at h
  split_ifs at h with hin
  · cases h
    rw [hl.containsDiamond_iff] at hin
    refine ⟨names, hl, hnodup, fun n => ⟨Or.inl, ?_⟩⟩
    rintro (hn | rfl)
    · exact hn
    · exact hin
  · obtain ⟨bytes, hbytes, h⟩ := bind_eq_ok h
    cases h
    rw [hl.containsDiamond_iff] at hin
    refine ⟨names ++ [name], ?_, ?_, fun n => by rw [mem_append, mem_singleton]⟩
    · rw [Lists, bytesW4_ok hbytes, hl, flatMap_append, flatMap_singleton]
    · refine nodup_append.mpr ⟨hnodup, nodup_singleton name, ?_⟩
      rintro a ha b hb rfl
      exact hin (mem_singleton.mp hb ▸ ha)

theorem Lists.push : ∀ {added : List DiamondName} {form : DiamondOwnedForm}
    {names : List DiamondName}, form.Lists names → names.Nodup →
    form.push added = .ok form' →
      ∃ names', form'.Lists names' ∧ names'.Nodup ∧ ∀ n, n ∈ names' ↔ n ∈ names ∨ n ∈ added
  | [], form, names, hl, hnodup, h => by
    cases h
    exact ⟨names, hl, hnodup, fun n => by simp⟩
  | name :: added, form, names, hl, hnodup, h => by
    rw [DiamondOwnedForm.push, foldlM_cons] at h
    obtain ⟨mid, hmid, h⟩ := bind_eq_ok h
    obtain ⟨names₁, hl₁, hnodup₁, hmem₁⟩ := hl.pushOne hnodup hmid
    obtain ⟨names₂, hl₂, hnodup₂, hmem₂⟩ := Lists.push hl₁ hnodup₁ h
    refine ⟨names₂, hl₂, hnodup₂, fun n => ?_⟩
    rw [hmem₂, hmem₁, mem_cons, or_assoc]

theorem putBlock_last (pre post : List DiamondName) (x z : DiamondName) (mid : List DiamondName) :
    putBlock 6 ((pre ++ x :: (mid ++ z :: post)).flatMap bytes) pre.length
        (block 6 ((pre ++ x :: (mid ++ z :: post)).flatMap bytes)
          (pre.length + (mid.length + 1))) = (pre ++ z :: (mid ++ z :: post)).flatMap bytes := by
  have hsplit : pre ++ x :: (mid ++ z :: post) = (pre ++ x :: mid) ++ z :: post := by simp
  have hlast : block 6 ((pre ++ x :: (mid ++ z :: post)).flatMap bytes)
      (pre.length + (mid.length + 1)) = z.bytes := by
    have hpos : pre.length + (mid.length + 1) = (pre ++ x :: mid).length := by simp
    rw [hsplit, hpos, block_flatMap DiamondName.size]
  rw [hlast, putBlock_flatMap DiamondName.size]

/-- After the removal of the name behind `pre` the same names are to come; the removed one is gone
unless it was the last. -/
theorem remove_last (pre junk : List DiamondName) (x : DiamondName) {tail : List DiamondName}
    {left : ℕ} (hlen : tail.length = left) :
    ∃ rest' junk', (if pre.length < pre.length + left then
        putBlock 6 ((pre ++ x :: (tail ++ junk)).flatMap bytes) pre.length
          (block 6 ((pre ++ x :: (tail ++ junk)).flatMap bytes) (pre.length + left))
      else (pre ++ x :: (tail ++ junk)).flatMap bytes)
        = (pre ++ (rest' ++ junk')).flatMap bytes ∧
      rest'.length = left ∧ junk'.length = junk.length + 1 ∧ tail.Perm rest' ∧
      (tail = [] ∧ rest' ++ junk' = x :: junk ∨ tail ≠ [] ∧ rest' ++ junk' ⊆ tail ++ junk) := by
  rcases eq_nil_or_concat tail with rfl | ⟨mid, z, rfl⟩
  · -- it was the last name: the buffer is cut in front of it
    obtain rfl : left = 0 := hlen.symm
    refine ⟨[], x :: junk, ?_, rfl, rfl, List.Perm.refl _, Or.inl ⟨rfl, rfl⟩⟩
    rw [if_neg (by omega)]
    simp
  · rw [concat_eq_append] at hlen ⊢
    obtain rfl : left = mid.length + 1 := by rw [← hlen]; simp
    refine ⟨z :: mid, z :: junk, ?_, rfl, rfl, perm_append_singleton z mid,
      Or.inr ⟨by simp, fun n hn => ?_⟩⟩
    · rw [if_pos (by omega), append_assoc, singleton_append, putBlock_last,
        cons_append]
    · -- the removed name is overwritten by the last one
      simp only [mem_append, mem_cons] at hn ⊢
      tauto

/-- **The loop removes names from the part of the buffer that stays.** The names that stay and the
names it took are a permutation of `pre ++ rest`, it took pending names only, and a name that
stays was not pending when it was passed. -/
theorem dropLoop_perm : ∀ (left : ℕ) {pre rest junk pending : List DiamondName}
    {out : List UInt8 × ℕ × List DiamondName}, rest.length = left →
    dropLoop left pre.length ((pre ++ (rest ++ junk)).flatMap bytes) pending = out →
    ∃ kept taken junk', out.1 = (kept ++ junk').flatMap bytes ∧
      out.2.1 = kept.length ∧ (pre ++ rest).Perm (taken ++ kept) ∧
      pending.Perm (taken ++ out.2.2) ∧
      ((∀ n ∈ pre, n ∉ pending) → ∀ n ∈ kept, n ∉ out.2.2)
  | 0, pre, rest, junk, pending, out, hlen, h => by
    obtain rfl := eq_nil_of_length_eq_zero hlen
    rw [nil_append, dropLoop] at h
    cases h
    exact ⟨pre, [], junk, rfl, rfl, by simp, List.Perm.refl _, id⟩
  | left + 1, pre, rest, junk, pending, out, hlen, h => by
    obtain ⟨x, tail, rfl⟩ := exists_cons_of_length_eq_add_one hlen
    rw [length_cons, Nat.add_right_cancel_iff] at hlen
    rw [cons_append, dropLoop, block_flatMap DiamondName.size] at h
    cases hfind : pending.find? (fun name => name.bytes == x.bytes) with
    | none =>
      -- the name stays, and has been passed
      rw [hfind] at h
      have hpos : pre.length + 1 = (pre ++ [x]).length := by simp
      rw [append_cons, hpos] at h
      obtain ⟨kept, taken, junk', hbuf, hcount, hperm, hpending, hkept⟩ :=
        dropLoop_perm left hlen h
      refine ⟨kept, taken, junk', hbuf, hcount, ?_, hpending, fun hpre => hkept ?_⟩
      · rwa [append_assoc, singleton_append] at hperm
      · intro n hn hpend
        rcases mem_append.mp hn with hn | hn
        · exact hpre n hn hpend
        · rw [mem_singleton.mp hn] at hpend
          exact List.find?_eq_none.mp hfind x hpend (beq_self_eq_true _)
    | some name =>
      rw [hfind] at h
      obtain rfl : name = x := bytes_inj (by simpa using List.find?_some hfind)
      have htake := perm_cons_erase (mem_of_find?_eq_some hfind)
      obtain ⟨rest', junk', hbuf, hlen', -, hrest, -⟩ := remove_last pre junk name hlen
      dsimp only at h
      rw [hbuf] at h
      have hall : (pre ++ name :: tail).Perm (name :: (pre ++ rest')) :=
        perm_middle.trans ((hrest.append_left pre).cons name)
      split_ifs at h with hdone
      · -- nothing is pending: the names to come stay where they are
        cases h
        refine ⟨pre ++ rest', [name], junk', by rw [append_assoc], ?_, hall, ?_,
          fun _ n _ => not_mem_nil⟩
        · rw [length_append, hlen']
        · rwa [hdone] at htake
      · obtain ⟨kept, taken, junk'', hbuf', hcount, hperm, hpending, hkept⟩ :=
          dropLoop_perm left hlen' h
        refine ⟨kept, name :: taken, junk'', hbuf', hcount, ?_, ?_, fun hpre => hkept ?_⟩
        · exact hall.trans (hperm.cons name)
        · exact htake.trans (hpending.cons name)
        · exact fun n hn hpend => hpre n hn (mem_of_mem_erase hpend)

theorem Lists.drop {dropped : List DiamondName} (hl : form.Lists names) (hnodup : names.Nodup)
    (h : form.drop dropped = .ok form') : ∃ names', form'.Lists names' ∧ names'.Nodup ∧
      ∀ n, n ∈ names' ↔ n ∈ names ∧ n ∉ dropped := by
  replace h := ensure_drop h
  have hdiv : form.names.length / 6 = names.length := by
    have := hl.length
    omega
  have hbuf : form.names = ([] ++ (names ++ [])).flatMap bytes := by
    rw [nil_append, append_nil]
    exact hl
  rw [hdiv, hbuf] at h
  generalize hrun : dropLoop names.length 0 (([] ++ (names ++ [])).flatMap bytes)
    dropped.dedup = out at h
  obtain ⟨kept, taken, junk, hout, hcount, hperm, hpending, -⟩ :=
    @dropLoop_perm names.length [] names [] dropped.dedup out rfl hrun
  obtain ⟨buf, length, pending⟩ := out
  obtain ⟨hnone, h⟩ := ensure_bind_iff.mp h
  obtain ⟨bytes, hbytes, h⟩ := bind_eq_ok h
  cases h
  dsimp only at hout hcount hpending hnone
  rw [hnone, append_nil] at hpending
  have hall : (taken ++ kept).Nodup := hperm.nodup_iff.mp hnodup
  refine ⟨kept, ?_, (nodup_append.mp hall).2.1, fun n => ?_⟩
  · rw [Lists, bytesW4_ok hbytes, hout, hcount, take_flatMap_block DiamondName.size,
      take_left]
  · have htaken : n ∈ taken ↔ n ∈ dropped := by rw [← hpending.mem_iff, mem_dedup]
    have hmem : n ∈ names ↔ n ∈ taken ∨ n ∈ kept := by
      rw [← mem_append]
      exact hperm.mem_iff
    rw [hmem, ← htaken]
    constructor
    · intro hn
      exact ⟨Or.inr hn, fun ht => (nodup_append.mp hall).2.2 n ht n hn rfl⟩
    · rintro ⟨ht | hn, hnot⟩
      · exact absurd ht hnot
      · exact hn

end DiamondOwnedForm

/-! ## Counts (operate.rs:402–448) -/

/-- `DiamondNumberAuto::from_diamond`. `DiamondNumber::from` panics beyond three bytes. -/
def Balance.setDiamond (b : Balance) (n : ℕ) : Ret Balance :=
  if h : n ≤ diamondNumberMax then .ok { b with diamond := n, diamond_le := h }
  else .error (.abort "DiamondNumber overflow")

/-- `hacd_add`, with the new count of the address. -/
def hacdAdd (s : CoreState) (addr : Address) (hacd : ℕ) : Ret (CoreState × ℕ) := do
  checkSupportedAddress addr
  let balance := s.balanceOf addr
  ensure (balance.diamond + hacd ≤ 2 ^ 32 - 1) (.fault "diamond add overflow")
  let balance' ← balance.setDiamond (balance.diamond + hacd)
  let s ← blackholeEngulf (s.balanceSet addr balance') addr totalRecordBlackholeHacd
  return (s, balance.diamond + hacd)

/-- `hacd_sub`, with the new count of the address. -/
def hacdSub (s : CoreState) (addr : Address) (hacd : ℕ) : Ret (CoreState × ℕ) := do
  checkSupportedAddress addr
  let balance := s.balanceOf addr
  ensure (hacd ≤ balance.diamond) (.revert "address diamond is insufficient")
  let balance' ← balance.setDiamond (balance.diamond - hacd)
  return (s.balanceSet addr balance', balance.diamond - hacd)

def hacdAdjustCount (s : CoreState) (src dst : Address) (hacd : ℕ) : Ret CoreState := do
  ensure (src ≠ dst) (.fault "cannot transfer to self")
  let (s, _) ← hacdSub s src hacd
  let (s, _) ← hacdAdd s dst hacd
  return s

/-! ## Records (operate.rs:470–565) -/

def checkDiamondStatus (s : CoreState) (addr : Address) (name : DiamondName) :
    Ret DiamondSto := do
  checkSupportedAddress addr
  let item ← okOr (s.diamond name) (.fault "diamond status not found")
  ensure (item.status = diamondStatusNormal)
    (.revert "diamond has been mortgaged and cannot be transferred")
  ensure (addr = item.address) (.revert "diamond does not belong to address")
  return item

def hacdMoveOneDiamond (src dst : Address) (s : CoreState) (name : DiamondName) :
    Ret CoreState := do
  checkSupportedAddress src
  checkSupportedAddress dst
  ensure (src ≠ dst) (.fault "cannot transfer to self")
  let item ← checkDiamondStatus s src name
  return s.diamondSet name { item with address := dst }

/-- `diamond_owned(addr)?.unwrap_or_default()`. -/
def CoreState.ownedForm (s : CoreState) (addr : Address) : DiamondOwnedForm :=
  (s.diamondOwned addr).getD ⟨[]⟩

def diamondOwnedPushOne (s : CoreState) (addr : Address) (name : DiamondName) :
    Ret CoreState := do
  checkSupportedAddress addr
  let owned ← (s.ownedForm addr).pushOne name
  return s.diamondOwnedSet addr owned

def diamondOwnedMove (s : CoreState) (src dst : Address) (names : List DiamondName) :
    Ret CoreState := do
  checkSupportedAddress src
  checkSupportedAddress dst
  ensure (src ≠ dst) (.fault "cannot transfer to self")
  let owned ← okOr (s.diamondOwned src) (.fault "diamond owner record not found")
  let owned ← owned.drop names
  let s := if 0 < owned.names.length then s.diamondOwnedSet src owned else s.diamondOwnedDel src
  let owned ← (s.ownedForm dst).push names
  return s.diamondOwnedSet dst owned

/-- The buffers are only kept where the diamond form is on. -/
def diamondFormMove (s : CoreState) (src dst : Address) (names : List DiamondName)
    (diamondForm : Bool) : Ret CoreState :=
  if diamondForm then diamondOwnedMove s src dst names else .ok s

def hacdTransfer (s : CoreState) (src dst : Address) (names : List DiamondName)
    (diamondForm : Bool) : Ret CoreState := do
  let dianum ← checkDiamondNames names
  let s ← names.foldlM (hacdMoveOneDiamond src dst) s
  let s ← diamondFormMove s src dst names diamondForm
  hacdAdjustCount s src dst dianum

/-! ## What a success did -/

variable {n : ℕ} {s s' : CoreState} {addr src dst : Address}

theorem setDiamond_ok {b c : Balance} (h : b.setDiamond n = .ok c) :
    c.diamond = n ∧ c.hacash = b.hacash ∧ c.satoshi = b.satoshi ∧ c.assets = b.assets := by
  rw [Balance.setDiamond] at h
  split_ifs at h
  cases h
  exact ⟨rfl, rfl, rfl, rfl⟩

theorem hacdAdd_ok {hacd : ℕ} (h : hacdAdd s addr hacd = .ok (s', n)) :
    (∃ b, (s.balanceOf addr).setDiamond ((s.balanceOf addr).diamond + hacd) = .ok b ∧
      Rebalanced s s' addr (engulfed addr b)) ∧
    (addr ≠ blackholeAddr → s'.diamondOwned = s.diamondOwned) := by
  obtain ⟨_, _, h⟩ := bind_eq_ok h
  obtain ⟨_, _, h⟩ := bind_eq_ok h
  obtain ⟨b, hb, h⟩ := bind_eq_ok h
  obtain ⟨s₁, hs₁, h⟩ := bind_eq_ok h
  cases h
  refine ⟨⟨b, hb, blackholeEngulf_ok totalRecordBlackholeHacd_ok hs₁⟩, fun hne => ?_⟩
  rw [blackholeEngulf, if_neg hne] at hs₁
  cases hs₁
  rfl

theorem hacdSub_ok {hacd : ℕ} (h : hacdSub s addr hacd = .ok (s', n)) :
    hacd ≤ (s.balanceOf addr).diamond ∧
    (∃ b, (s.balanceOf addr).setDiamond ((s.balanceOf addr).diamond - hacd) = .ok b ∧
      Rebalanced s s' addr b) ∧ s'.diamondOwned = s.diamondOwned := by
  obtain ⟨_, _, h⟩ := bind_eq_ok h
  obtain ⟨_, hle, h⟩ := bind_eq_ok h
  obtain ⟨b, hb, h⟩ := bind_eq_ok h
  cases h
  exact ⟨of_ensure hle, ⟨b, hb, rebalanced_balanceSet _ _ _⟩, rfl⟩

/-- `s'` is `s` with some diamonds of `src` given to `dst`, as far as the records go. -/
structure MovedDiamonds (s s' : CoreState) (src dst : Address) (names : List DiamondName) :
    Prop where
  moved : ∀ name ∈ names, ∃ d, s.diamond name = some d ∧ d.address = src ∧
    s'.diamond name = some { d with address := dst }
  kept : ∀ name ∉ names, s'.diamond name = s.diamond name

theorem hacdMoveOneDiamond_ok {name : DiamondName}
    (h : hacdMoveOneDiamond src dst s name = .ok s') :
    src ≠ dst ∧ ∃ d, s.diamond name = some d ∧ d.address = src ∧
      s' = s.diamondSet name { d with address := dst } := by
  obtain ⟨_, _, h⟩ := bind_eq_ok h
  obtain ⟨_, _, h⟩ := bind_eq_ok h
  obtain ⟨hne, h⟩ := ensure_bind_iff.mp h
  obtain ⟨d, hd, h⟩ := bind_eq_ok h
  cases h
  obtain ⟨_, _, hd⟩ := bind_eq_ok hd
  obtain ⟨item, hitem, hd⟩ := bind_eq_ok hd
  obtain ⟨_, hd⟩ := ensure_bind_iff.mp hd
  obtain ⟨haddr, hd⟩ := ensure_bind_iff.mp hd
  cases hd
  exact ⟨hne, d, okOr_eq_ok hitem, haddr.symm, rfl⟩

/-- The loop of `hacd_transfer` over the names. -/
theorem hacdMoveDiamonds_ok : ∀ {names : List DiamondName}
    {s s' : CoreState}, names.Nodup → names.foldlM (hacdMoveOneDiamond src dst) s = .ok s' →
      s' = { s with diamond := s'.diamond } ∧ MovedDiamonds s s' src dst names ∧
        (names ≠ [] → src ≠ dst)
  | [], s, s', _, h => by
    cases h
    exact ⟨rfl, ⟨nofun, fun _ _ => rfl⟩, fun h => absurd rfl h⟩
  | name :: names, s, s', hnodup, h => by
    rw [foldlM_cons] at h
    obtain ⟨mid, hmid, h⟩ := bind_eq_ok h
    obtain ⟨hne, d, hd, haddr, rfl⟩ := hacdMoveOneDiamond_ok hmid
    obtain ⟨hfresh, hnodup⟩ := nodup_cons.mp hnodup
    obtain ⟨hframe, hmoved, -⟩ := hacdMoveDiamonds_ok hnodup h
    have hother : ∀ n, n ≠ name →
        (s.diamondSet name { d with address := dst }).diamond n = s.diamond n := fun n hn =>
      update_of_ne hn _ _
    have hself : (s.diamondSet name { d with address := dst }).diamond name
        = some { d with address := dst } := update_self ..
    refine ⟨by rw [hframe]; rfl, ⟨?_, ?_⟩, fun _ => hne⟩
    · intro n hn
      rcases mem_cons.mp hn with rfl | hn
      · exact ⟨d, hd, haddr, by rw [hmoved.kept n hfresh, hself]⟩
      · obtain ⟨d', hd', haddr', hout⟩ := hmoved.moved n hn
        rw [hother n (fun h => hfresh (h ▸ hn))] at hd'
        exact ⟨d', hd', haddr', hout⟩
    · intro n hn
      rw [mem_cons, not_or] at hn
      rw [hmoved.kept n hn.2, hother n hn.1]

/-- What `hacd_adjust_count` did to the balances. -/
theorem hacdAdjustCount_ok (h : hacdAdjustCount s src dst n = .ok s') :
    src ≠ dst ∧ ∃ s₁ k k', hacdSub s src n = .ok (s₁, k) ∧ hacdAdd s₁ dst n = .ok (s', k') := by
  obtain ⟨hne, h⟩ := ensure_bind_iff.mp h
  obtain ⟨⟨s₁, k⟩, hsub, h⟩ := bind_eq_ok h
  obtain ⟨⟨s₂, k'⟩, hadd, h⟩ := bind_eq_ok h
  cases h
  exact ⟨hne, s₁, k, k', hsub, hadd⟩

/-- Setting the buffer of one address. -/
theorem ownedForm_diamondOwnedSet (s : CoreState) (addr : Address) (form : DiamondOwnedForm) :
    (s.diamondOwnedSet addr form).ownedForm = update s.ownedForm addr form := by
  funext a
  by_cases h : a = addr
  · simp [h, ownedForm, diamondOwnedSet]
  · simp [h, ownedForm, diamondOwnedSet]

theorem ownedForm_diamondOwnedDel (s : CoreState) (addr : Address) :
    (s.diamondOwnedDel addr).ownedForm = update s.ownedForm addr ⟨[]⟩ := by
  funext a
  by_cases h : a = addr
  · simp [h, ownedForm, diamondOwnedDel]
  · simp [h, ownedForm, diamondOwnedDel]

theorem diamondOwnedMove_ok {names : List DiamondName}
    (h : diamondOwnedMove s src dst names = .ok s') :
    src ≠ dst ∧ s' = { s with diamondOwned := s'.diamondOwned } ∧
      ∃ owned owned', (s.ownedForm src).drop names = .ok owned ∧
        (s.ownedForm dst).push names = .ok owned' ∧
        s'.ownedForm = update (update s.ownedForm src owned) dst owned' := by
  obtain ⟨_, _, h⟩ := bind_eq_ok h
  obtain ⟨_, _, h⟩ := bind_eq_ok h
  obtain ⟨hne, h⟩ := ensure_bind_iff.mp h
  obtain ⟨form, hform, h⟩ := bind_eq_ok h
  obtain ⟨owned, howned, h⟩ := bind_eq_ok h
  obtain ⟨owned', howned', h⟩ := bind_eq_ok h
  cases h
  have hsrc : s.ownedForm src = form := by rw [ownedForm, okOr_eq_ok hform]; rfl
  have hmid : CoreState.ownedForm (if 0 < owned.names.length then s.diamondOwnedSet src owned
      else s.diamondOwnedDel src) = update s.ownedForm src owned := by
    split_ifs with hlen
    · exact ownedForm_diamondOwnedSet s src owned
    · rw [ownedForm_diamondOwnedDel]
      obtain ⟨bytes⟩ := owned
      obtain rfl : bytes = [] := eq_nil_of_length_eq_zero (by simpa using hlen)
      rfl
  refine ⟨hne, ?_, owned, owned', by rw [hsrc]; exact howned, ?_, ?_⟩
  · split_ifs <;> rfl
  · rw [hmid, update_of_ne hne.symm] at howned'
    exact howned'
  · rw [ownedForm_diamondOwnedSet, hmid]

/-- **What a transfer of diamonds did**, if the recipient is not the blackhole. -/
structure HacdTransferred (s s' : CoreState) (src dst : Address) (names : List DiamondName)
    (diamondForm : Bool) : Prop where
  ne : src ≠ dst
  nonempty : names ≠ []
  nodup : names.Nodup
  moved : MovedDiamonds s s' src dst names
  diamondName : s'.diamondName = s.diamondName
  latestDiamond : s'.latestDiamond = s.latestDiamond
  owned : diamondForm = true → ∃ owned owned', (s.ownedForm src).drop names = .ok owned ∧
    (s.ownedForm dst).push names = .ok owned' ∧
    s'.ownedForm = update (update s.ownedForm src owned) dst owned'
  count_src : (s'.balanceOf src).diamond + names.length = (s.balanceOf src).diamond
  count_dst : (s'.balanceOf dst).diamond = (s.balanceOf dst).diamond + names.length
  count_other : ∀ a, a ≠ src → a ≠ dst → (s'.balanceOf a).diamond = (s.balanceOf a).diamond
  hacash : ∀ a, (s'.balanceOf a).hacash = (s.balanceOf a).hacash
  satoshi : ∀ a, (s'.balanceOf a).satoshi = (s.balanceOf a).satoshi
  assets : ∀ a, (s'.balanceOf a).assets = (s.balanceOf a).assets

theorem balanceOf_setDiamond {b : Balance}
    (hb : (s.balanceOf addr).setDiamond n = .ok b) (hre : Rebalanced s s' addr b) (a : Address) :
    (s'.balanceOf a).diamond = (if a = addr then n else (s.balanceOf a).diamond) ∧
      (s'.balanceOf a).hacash = (s.balanceOf a).hacash ∧
      (s'.balanceOf a).satoshi = (s.balanceOf a).satoshi ∧
      (s'.balanceOf a).assets = (s.balanceOf a).assets := by
  by_cases ha : a = addr
  · subst ha
    rw [hre.self, if_pos rfl]
    exact setDiamond_ok hb
  · rw [hre.of_ne ha, if_neg ha]
    exact ⟨rfl, rfl, rfl, rfl⟩

theorem hacdTransfer_ok {names : List DiamondName}
    {diamondForm : Bool} (h : hacdTransfer s src dst names diamondForm = .ok s')
    (hhole : dst ≠ blackholeAddr) : HacdTransferred s s' src dst names diamondForm := by
  obtain ⟨n, hn, h⟩ := bind_eq_ok h
  obtain ⟨s₁, hs₁, h⟩ := bind_eq_ok h
  obtain ⟨s₂, hs₂, h⟩ := bind_eq_ok h
  obtain ⟨rfl, hnonempty, -, hnodup⟩ := checkDiamondNames_ok hn
  obtain ⟨hframe₁, hmoved, -⟩ := hacdMoveDiamonds_ok hnodup hs₁
  obtain ⟨hne, s₃, k, k', hsub, hadd⟩ := hacdAdjustCount_ok h
  obtain ⟨hle, ⟨b, hb, hre⟩, hown₃⟩ := hacdSub_ok hsub
  obtain ⟨⟨b', hb', hre'⟩, hown⟩ := hacdAdd_ok hadd
  rw [engulfed, if_neg hhole] at hre'
  -- the buffers are the only thing the middle step writes
  have hmid : s₂ = { s₁ with diamondOwned := s₂.diamondOwned } ∧ (diamondForm = true →
      ∃ owned owned', (s₁.ownedForm src).drop names = .ok owned ∧
        (s₁.ownedForm dst).push names = .ok owned' ∧
        s₂.ownedForm = update (update s₁.ownedForm src owned) dst owned') := by
    cases diamondForm with
    | false => cases hs₂; exact ⟨rfl, fun h => absurd h Bool.false_ne_true⟩
    | true =>
      obtain ⟨-, hframe, hforms⟩ := diamondOwnedMove_ok hs₂
      exact ⟨hframe, fun _ => hforms⟩
  obtain ⟨hframe₂, hforms⟩ := hmid
  have hbal₂ : s₂.balanceOf = s.balanceOf := by rw [hframe₂, hframe₁]; rfl
  have hdiamond : s'.diamond = s₁.diamond := by rw [hre'.diamond, hre.diamond, hframe₂]
  have hforms' : s'.ownedForm = s₂.ownedForm := by
    funext a
    rw [ownedForm, ownedForm, hown hhole, hown₃]
  have hform₁ : s₁.ownedForm = s.ownedForm := by rw [hframe₁]; rfl
  have hstep₁ := balanceOf_setDiamond hb hre
  have hstep₂ := balanceOf_setDiamond hb' hre'
  rw [hbal₂] at hle
  simp only [hbal₂] at hstep₁
  have hsrc₃ := (hstep₁ src).1
  have hdst₃ := (hstep₁ dst).1
  rw [if_pos rfl] at hsrc₃
  rw [if_neg hne.symm] at hdst₃
  exact {
    ne := hne
    nonempty := hnonempty
    nodup := hnodup
    moved := ⟨by rw [hdiamond]; exact hmoved.moved, by rw [hdiamond]; exact hmoved.kept⟩
    diamondName := by rw [hre'.diamondName, hre.diamondName, hframe₂, hframe₁]
    latestDiamond := by rw [hre'.latestDiamond, hre.latestDiamond, hframe₂, hframe₁]
    owned := by rw [hforms', ← hform₁]; exact hforms
    count_src := by
      rw [(hstep₂ src).1, if_neg hne, hsrc₃]
      omega
    count_dst := by rw [(hstep₂ dst).1, if_pos rfl, hdst₃]
    count_other := fun a hsrc hdst => by
      rw [(hstep₂ a).1, if_neg hdst, (hstep₁ a).1, if_neg hsrc]
    hacash := fun a => by rw [(hstep₂ a).2.1, (hstep₁ a).2.1]
    satoshi := fun a => by rw [(hstep₂ a).2.2.1, (hstep₁ a).2.2.1]
    assets := fun a => by rw [(hstep₂ a).2.2.2, (hstep₁ a).2.2.2] }

end Hacash
