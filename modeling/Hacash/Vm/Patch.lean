import Hacash.Lib.Edits
import Hacash.Vm.Storage

/-!
# Patch sets (`vm::state::patch`)

Up to sixteen ranges of the original, each with the bytes that replace it. The source's loops work
with positions (`decodePatchSetAt`). **Key result**: `patch_sets_canonical`.
-/

namespace Hacash

open Lib List

namespace Vm

/-! ## Encoding -/

def patchCountMin : ℕ := 1

def patchCountMax : ℕ := 16

def patchHeaderLen : ℕ := 6

/-- A patch `(offset, delete_len, insert)`: the range that is replaced, and by what. -/
abbrev Patch : Type := ℕ × ℕ × List UInt8

/-- The bytes of a patch: three numbers of two bytes, and the inserted bytes. -/
def patchBytes (p : Patch) : List UInt8 :=
  beBytes 2 p.1 ++ (beBytes 2 p.2.1 ++ (beBytes 2 p.2.2.length ++ p.2.2))

/-- The loop of `encode_patch_set`. -/
def encodeLoop : List Patch → List UInt8 → VmrtRes (List UInt8)
  | [], out => .ok out
  | p :: ps, out => do
    check (p.2.2.length < 65536) .storagePatchInvalid "insert too long"
    encodeLoop ps (out ++ patchBytes p)

def encodePatchSet (patches : List Patch) : VmrtRes (List UInt8) := do
  check (patchCountMin ≤ patches.length ∧ patches.length ≤ patchCountMax) .storagePatchInvalid
  encodeLoop patches [UInt8.ofNat patches.length]

/-! ## The loops with positions -/

/-- A result, an error of the interpreter, or an index out of range (`none`). -/
abbrev Indexed (α : Type) : Type := Except (Option ItrErr) α

/-- A computation without an index. -/
def noIndex {α : Type} (x : VmrtRes α) : Indexed α := x.mapError some

/-- A test of the patch set. -/
def patchCheck (p : Prop) [Decidable p] : Indexed Unit := noIndex (check p .storagePatchInvalid)

/-- `bytes[i]`. -/
def indexAt (bytes : List UInt8) (i : ℕ) : Indexed UInt8 :=
  match bytes[i]? with
  | some b => .ok b
  | none => .error none

/-- `bytes[i..j]`. -/
def sliceAt (bytes : List UInt8) (i j : ℕ) : Indexed (List UInt8) :=
  if i ≤ j ∧ j ≤ bytes.length then .ok ((bytes.drop i).take (j - i)) else .error none

/-- `u16::from_be_bytes` of the two bytes at `i`. -/
def readU16 (bytes : List UInt8) (i : ℕ) : Indexed ℕ := do
  let hi ← indexAt bytes i
  let lo ← indexAt bytes (i + 1)
  return beValue [hi, lo]

/-- The loop of `decode_patch_set`, with the offset and the end of the patch before. Sums of
positions cannot overflow. -/
def decodeLoopAt (bytes : List UInt8) : ℕ → ℕ → Option (ℕ × ℕ) → Indexed (List Patch × ℕ)
  | 0, i, _ => .ok ([], i)
  | count + 1, i, prev => do
    let headerEnd := i + patchHeaderLen
    patchCheck (headerEnd ≤ bytes.length)
    let offset ← readU16 bytes i
    let deleteLen ← readU16 bytes (i + 2)
    let insertLen ← readU16 bytes (i + 4)
    let insertEnd := headerEnd + insertLen
    patchCheck (insertEnd ≤ bytes.length)
    let insert ← sliceAt bytes headerEnd insertEnd
    patchCheck (∀ p ∈ prev, ¬ (offset ≤ p.1 ∨ offset < p.2))
    let (patches, i) ← decodeLoopAt bytes count insertEnd (some (offset, offset + deleteLen))
    return ((offset, deleteLen, insert) :: patches, i)

/-- `decode_patch_set`. -/
def decodePatchSetAt (bytes : List UInt8) : Indexed (List Patch) := do
  patchCheck (bytes ≠ [])
  let count ← indexAt bytes 0
  patchCheck (patchCountMin ≤ count.toNat ∧ count.toNat ≤ patchCountMax)
  let (patches, i) ← decodeLoopAt bytes count.toNat 1 none
  patchCheck (i = bytes.length)
  return patches

/-- The loop of `decode_and_apply`: the cursor in the original, and what is out so far. -/
def applyLoopAt (original : List UInt8) : List Patch → ℕ → List UInt8 →
    Indexed (ℕ × List UInt8)
  | [], cursor, out => .ok (cursor, out)
  | p :: ps, cursor, out => do
    let piece ← sliceAt original cursor p.1
    applyLoopAt original ps (p.1 + p.2.1) (out ++ piece ++ p.2.2)

/-- `decode_and_apply`. -/
def decodeAndApplyAt (original patchSet : List UInt8) (cap : SpaceCap) :
    Indexed (List UInt8) := do
  let patches ← decodePatchSetAt patchSet
  let origLen := original.length % 2 ^ 32
  patchCheck (patches.all fun p => decide (p.1 + p.2.1 ≤ origLen))
  let (cursor, out) ← applyLoopAt original patches 0 []
  let tail ← sliceAt original cursor original.length
  patchCheck ((out ++ tail).length ≤ cap.valueSize)
  return out ++ tail

/-! ## What decoding accepts -/

/-- The range of `q` is behind that of `p`, at another offset. -/
def Patch.Before (p q : Patch) : Prop := p.1 < q.1 ∧ p.1 + p.2.1 ≤ q.1

/-- The three numbers of a patch have two bytes. -/
def Patch.Short (p : Patch) : Prop := p.1 < 65536 ∧ p.2.1 < 65536 ∧ p.2.2.length < 65536

/-- One to sixteen patches, their ranges in order, at different offsets and without overlap. -/
structure ValidPatchSet (patches : List Patch) : Prop where
  count : patchCountMin ≤ patches.length ∧ patches.length ≤ patchCountMax
  ordered : patches.IsChain Patch.Before
  short : ∀ p ∈ patches, p.Short

variable {bytes : List UInt8} {ps : List Patch}

/-- Two bytes are the number they write. -/
theorem beBytes_two (h : bytes.length = 2) : beBytes 2 (beValue bytes) = bytes := by
  have hbytes := beBytes_beValue bytes
  rwa [h] at hbytes

theorem beValue_two (h : bytes.length = 2) : beValue bytes < 65536 := by
  have hlt := beValue_lt bytes
  rwa [h] at hlt

/-- The numbers at the start of a byte string are those of a patch iff it starts with its bytes. -/
theorem patchBytes_iff {rest : List UInt8} {p : Patch} :
    (6 ≤ bytes.length ∧ beValue (bytes.take 2) = p.1 ∧ beValue ((bytes.drop 2).take 2) = p.2.1 ∧
      beValue ((bytes.drop 4).take 2) ≤ (bytes.drop 6).length ∧
      (bytes.drop 6).take (beValue ((bytes.drop 4).take 2)) = p.2.2 ∧
      (bytes.drop 6).drop (beValue ((bytes.drop 4).take 2)) = rest) ↔
      p.Short ∧ bytes = patchBytes p ++ rest := by
  obtain ⟨offset, deleteLen, insert⟩ := p
  constructor
  · rintro ⟨hlen, rfl, rfl, hins, rfl, rfl⟩
    have h₁ : (bytes.take 2).length = 2 := length_take_of_le (by omega)
    have h₂ : ((bytes.drop 2).take 2).length = 2 := by
      rw [length_take_of_le]
      rw [length_drop]
      omega
    have h₃ : ((bytes.drop 4).take 2).length = 2 := by
      rw [length_take_of_le]
      rw [length_drop]
      omega
    have hn := length_take_of_le hins
    refine ⟨⟨beValue_two h₁, beValue_two h₂, ?_⟩, ?_⟩
    · rw [hn]
      exact beValue_two h₃
    · rw [patchBytes, hn, beBytes_two h₁, beBytes_two h₂, beBytes_two h₃]
      have hcut : ∀ n, bytes.drop n = (bytes.drop n).take 2 ++ bytes.drop (n + 2) := by
        intro n
        rw [← drop_drop, take_append_drop]
      simp only [append_assoc, take_append_drop]
      exact (hcut 0).trans (congrArg _ ((hcut 2).trans (congrArg _ (hcut 4))))
  · rintro ⟨⟨h₁, h₂, h₃⟩, rfl⟩
    have hlen : ∀ n, (beBytes 2 n).length = 2 := beBytes_length 2
    have hbytes : patchBytes (offset, deleteLen, insert) ++ rest = beBytes 2 offset ++
        (beBytes 2 deleteLen ++ (beBytes 2 insert.length ++ (insert ++ rest))) := by
      simp only [patchBytes, append_assoc]
    have htwo : (patchBytes (offset, deleteLen, insert) ++ rest).drop 2 = beBytes 2 deleteLen ++
        (beBytes 2 insert.length ++ (insert ++ rest)) := by
      rw [hbytes, drop_left' (hlen _)]
    have hfour : (patchBytes (offset, deleteLen, insert) ++ rest).drop 4
        = beBytes 2 insert.length ++ (insert ++ rest) := by
      rw [← drop_drop (i := 2) (j := 2), htwo, drop_left' (hlen _)]
    have hsix : (patchBytes (offset, deleteLen, insert) ++ rest).drop 6 = insert ++ rest := by
      rw [← drop_drop (i := 2) (j := 4), hfour, drop_left' (hlen _)]
    have hn : beValue ((patchBytes (offset, deleteLen, insert) ++ rest).drop 4 |>.take 2)
        = insert.length := by
      rw [hfour, take_left' (hlen _), beValue_beBytes h₃]
    rw [hn, hsix, htwo, hbytes, take_left' (hlen _), take_left' (hlen _),
      take_left, drop_left, beValue_beBytes h₁, beValue_beBytes h₂]
    refine ⟨?_, rfl, rfl, ?_, rfl, rfl⟩
    · simp only [length_append, beBytes_length]
      omega
    · rw [length_append]
      exact Nat.le_add_right _ _

/-- The loop accepts exactly the bytes of as many patches as it is to read, in order. -/
theorem decodePatches_iff {count : ℕ} {prev : Option (ℕ × ℕ)} :
    decodePatches count prev bytes = .ok ps ↔
      ps.length = count ∧ (∀ p ∈ ps.head?, ∀ q ∈ prev, q.1 < p.1 ∧ q.2 ≤ p.1) ∧
        ps.IsChain Patch.Before ∧ (∀ p ∈ ps, p.Short) ∧ bytes = ps.flatMap patchBytes := by
  induction count generalizing prev bytes ps with
  | zero =>
    rw [decodePatches, check_bind_iff]
    constructor
    · rintro ⟨rfl, h⟩
      cases h
      exact ⟨rfl, nofun, .nil, nofun, rfl⟩
    · rintro ⟨hlen, -, -, -, rfl⟩
      obtain rfl := eq_nil_of_length_eq_zero hlen
      exact ⟨rfl, rfl⟩
  | succ count ih =>
    rw [decodePatches, check_bind_iff, check_bind_iff, check_bind_iff]
    constructor
    · rintro ⟨hsix, hins, hprev, h⟩
      obtain ⟨ps', hps', h⟩ := bind_eq_ok h
      cases h
      obtain ⟨rfl, hhead, hchain, hshort, hrest⟩ := ih.mp hps'
      obtain ⟨hshort₁, hbytes⟩ := (patchBytes_iff (p := (_, _, _))).mp
        ⟨hsix, rfl, rfl, hins, rfl, rfl⟩
      refine ⟨rfl, ?_, ?_, ?_, ?_⟩
      · rintro p hp q hq
        cases hp
        have := hprev q hq
        omega
      · refine isChain_cons.mpr ⟨fun p hp => ?_, hchain⟩
        exact hhead p hp _ rfl
      · exact forall_mem_cons.mpr ⟨hshort₁, hshort⟩
      · rw [flatMap_cons, ← hrest]
        exact hbytes
    · rintro ⟨hlen, hhead, hchain, hshort, rfl⟩
      obtain ⟨p, ps', rfl⟩ := exists_cons_of_length_eq_add_one hlen
      obtain ⟨hshort₁, hshort⟩ := forall_mem_cons.mp hshort
      obtain ⟨hnext, hchain⟩ := isChain_cons.mp hchain
      obtain ⟨hsix, hoff, hdel, hins, hinsert, hdrop⟩ :=
        patchBytes_iff.mpr ⟨hshort₁, flatMap_cons⟩
      have hrest : decodePatches count (some (p.1, p.1 + p.2.1)) (ps'.flatMap patchBytes)
          = .ok ps' := by
        refine ih.mpr ⟨Nat.succ.inj hlen, ?_, hchain, hshort, rfl⟩
        rintro q hq r hr
        cases hr
        exact hnext q hq
      rw [hoff, hdel, hdrop, hrest, hinsert]
      refine ⟨hsix, hins, fun q hq => ?_, rfl⟩
      have := hhead p rfl q hq
      omega

/-! ## Encoding and decoding -/

theorem encodeLoop_iff {out : List UInt8} : encodeLoop ps out = .ok bytes ↔
      (∀ p ∈ ps, p.2.2.length < 65536) ∧ bytes = out ++ ps.flatMap patchBytes := by
  induction ps generalizing out with
  | nil =>
    rw [encodeLoop, flatMap_nil, append_nil]
    constructor
    · intro h
      exact ⟨nofun, (Except.ok.inj h).symm⟩
    · rintro ⟨-, rfl⟩
      rfl
  | cons p ps ih =>
    rw [encodeLoop, check_bind_iff, ih, forall_mem_cons, flatMap_cons, and_assoc,
      append_assoc]

theorem encodePatchSet_iff : encodePatchSet ps = .ok bytes ↔
      (patchCountMin ≤ ps.length ∧ ps.length ≤ patchCountMax) ∧ (∀ p ∈ ps, p.2.2.length < 65536) ∧
        bytes = UInt8.ofNat ps.length :: ps.flatMap patchBytes := by
  rw [encodePatchSet, check_bind_iff, encodeLoop_iff]
  rfl

/-- `decode_patch_set` accepts exactly the encodings of valid sets. -/
theorem decodePatchSet_iff :
    decodePatchSet bytes = .ok ps ↔ ValidPatchSet ps ∧ encodePatchSet ps = .ok bytes := by
  rw [encodePatchSet_iff]
  constructor
  · intro h
    cases bytes with
    | nil => cases h
    | cons count rest =>
      rw [decodePatchSet, check_bind_iff, decodePatches_iff] at h
      obtain ⟨hcount, hlen, -, hchain, hshort, rfl⟩ := h
      rw [← hlen] at hcount
      refine ⟨⟨hcount, hchain, hshort⟩, hcount, fun p hp => (hshort p hp).2.2, ?_⟩
      rw [hlen, UInt8.ofNat_toNat]
  · rintro ⟨hvalid, hcount, -, rfl⟩
    have hsmall : ps.length < 256 := lt_of_le_of_lt hcount.2 (by decide)
    rw [decodePatchSet, check_bind_iff, UInt8.toNat_ofNat_of_lt' hsmall, decodePatches_iff]
    exact ⟨hcount, rfl, nofun, hvalid.ordered, hvalid.short, rfl⟩

/-! ## No index is out of range -/

section

variable {α β : Type} {bytes : List UInt8} {i : ℕ}

/-- A test passes or fails on both sides alike. -/
theorem patchCheck_bind {p q : Prop} [Decidable p] [Decidable q] (hpq : p ↔ q)
    {f : Unit → Indexed α} {g : Unit → VmrtRes α} (h : p → f () = noIndex (g ())) :
    (patchCheck p >>= f) = noIndex (check q .storagePatchInvalid >>= g) := by
  by_cases hp : p
  · rw [patchCheck, check_of _ _ hp, check_of _ _ (hpq.mp hp)]
    exact h hp
  · rw [patchCheck, check, if_neg hp, check, if_neg fun hq => hp (hpq.mpr hq)]
    rfl

theorem noIndex_bind_pure (x : VmrtRes α) (f : α → β) :
    (noIndex x >>= fun a => pure (f a)) = noIndex (x >>= fun a => pure (f a)) := by
  cases x <;> rfl

theorem indexAt_of_lt (h : i < bytes.length) : indexAt bytes i = .ok bytes[i] := by
  rw [indexAt, List.getElem?_eq_getElem h]

theorem readU16_of_lt (h : i + 1 < bytes.length) :
    readU16 bytes i = .ok (beValue ((bytes.drop i).take 2)) := by
  have hi : i < bytes.length := Nat.lt_of_succ_lt h
  rw [readU16, indexAt_of_lt hi, indexAt_of_lt h, drop_eq_getElem_cons hi,
    drop_eq_getElem_cons h]
  rfl

theorem sliceAt_of_le {j : ℕ} (hij : i ≤ j) (hj : j ≤ bytes.length) :
    sliceAt bytes i j = .ok ((bytes.drop i).take (j - i)) := if_pos ⟨hij, hj⟩

/-- The loop with positions, and the check of the end, is the loop on what is left of the bytes. -/
theorem decodeLoopAt_eq (count : ℕ) (prev : Option (ℕ × ℕ)) (hi : i ≤ bytes.length) :
    (do
      let (patches, j) ← decodeLoopAt bytes count i prev
      patchCheck (j = bytes.length)
      return patches) = noIndex (decodePatches count prev (bytes.drop i)) := by
  induction count generalizing i prev with
  | zero =>
    rw [decodeLoopAt, decodePatches, ok_bind]
    refine patchCheck_bind ?_ fun _ => rfl
    rw [drop_eq_nil_iff]
    omega
  | succ count ih =>
    rw [decodeLoopAt, decodePatches]
    simp only [bind_assoc]
    refine patchCheck_bind ?_ fun hsix => ?_
    · rw [length_drop, patchHeaderLen]
      omega
    rw [patchHeaderLen] at hsix
    rw [readU16_of_lt (by omega), readU16_of_lt (by omega), readU16_of_lt (by omega)]
    simp only [ok_bind, drop_drop, patchHeaderLen]
    refine patchCheck_bind ?_ fun hins => ?_
    · rw [length_drop]
      omega
    rw [sliceAt_of_le (Nat.le_add_right _ _) hins, Nat.add_sub_cancel_left, ok_bind]
    refine patchCheck_bind Iff.rfl fun _ => ?_
    -- the rest of the loop, with this patch in front of what it returns
    rw [← noIndex_bind_pure, ← ih _ hins, bind_assoc]
    refine bind_congr fun x => ?_
    rw [bind_assoc]
    rfl

/-- The reader of the source never indexes out of range, and it is `decodePatchSet`. -/
theorem decodePatchSetAt_eq (bytes : List UInt8) :
    decodePatchSetAt bytes = noIndex (decodePatchSet bytes) := by
  cases bytes with
  | nil => rfl
  | cons count rest =>
    rw [decodePatchSetAt, decodePatchSet, patchCheck, check_of _ _ (cons_ne_nil _ _)]
    show (patchCheck _ >>= _) = _
    refine patchCheck_bind Iff.rfl fun _ => ?_
    exact decodeLoopAt_eq (i := 1) count.toNat none (Nat.le_add_left _ _)

end

/-! ## Application -/

/-- The patch as an edit of the original. -/
def Patch.edit (p : Patch) : Edit UInt8 := ⟨p.1, p.2.1, p.2.2⟩

variable {ps : List Patch} {original : List UInt8}

theorem inOrder_of_chain {size start : ℕ} (hchain : ps.IsChain Patch.Before)
    (hin : ∀ p ∈ ps, p.1 + p.2.1 ≤ size) (hstart : ∀ p ∈ ps.head?, start ≤ p.1) :
    InOrder size start (ps.map Patch.edit) := by
  induction ps generalizing start with
  | nil => trivial
  | cons p ps ih =>
    obtain ⟨hnext, hchain⟩ := isChain_cons.mp hchain
    obtain ⟨hp, hin⟩ := forall_mem_cons.mp hin
    exact ⟨hstart p rfl, hp, ih hchain hin fun q hq => (hnext q hq).2⟩

theorem applyPatches_eq (original : List UInt8) (cursor : ℕ) (ps : List Patch) :
    applyPatches original cursor ps = copyEdits original cursor (ps.map Patch.edit) := by
  induction ps generalizing cursor with
  | nil => rfl
  | cons p ps ih => exact congrArg _ (ih _)

/-- On patches in order no slice is out of range, and the output is that of one pass. -/
theorem applyLoopAt_eq {cursor : ℕ} (out : List UInt8) (hcursor : cursor ≤ original.length)
    (h : InOrder original.length cursor (ps.map Patch.edit)) :
    ∃ stop out', applyLoopAt original ps cursor out = .ok (stop, out') ∧
      stop ≤ original.length ∧
      out' ++ original.drop stop = out ++ copyEdits original cursor (ps.map Patch.edit) := by
  induction ps generalizing cursor out with
  | nil => exact ⟨cursor, out, rfl, hcursor, rfl⟩
  | cons p ps ih =>
    obtain ⟨hfrom, hstop, hrest⟩ := h
    replace hfrom : cursor ≤ p.1 := hfrom
    obtain ⟨stop, out', hloop, hle, hout⟩ := ih
      (out ++ (original.drop cursor).take (p.1 - cursor) ++ p.2.2) hstop hrest
    have hoff : p.1 ≤ original.length := Nat.le_trans (Nat.le_add_right _ _) hstop
    refine ⟨stop, out', ?_, hle, ?_⟩
    · rw [applyLoopAt, sliceAt_of_le hfrom hoff]
      exact hloop
    · rw [hout]
      simp only [map_cons, copyEdits, append_assoc]
      rfl

theorem inOrder_of_decode {patchSet : List UInt8} (hdec : decodePatchSet patchSet = .ok ps)
    (hin : ps.all fun p => decide (p.1 + p.2.1 ≤ original.length % 2 ^ 32)) :
    InOrder original.length 0 (ps.map Patch.edit) := by
  obtain ⟨hvalid, -⟩ := decodePatchSet_iff.mp hdec
  refine inOrder_of_chain hvalid.ordered (fun p hp => ?_) fun p _ => Nat.zero_le _
  have hend := of_decide_eq_true (all_eq_true.mp hin p hp)
  exact Nat.le_trans hend (Nat.mod_le _ _)

/-- The application of the source never indexes out of range, and it is `decodeAndApply`. -/
theorem decodeAndApplyAt_eq (original patchSet : List UInt8) (cap : SpaceCap) :
    decodeAndApplyAt original patchSet cap = noIndex (decodeAndApply original patchSet cap) := by
  rw [decodeAndApplyAt, decodeAndApply, decodePatchSetAt_eq]
  cases hdec : decodePatchSet patchSet with
  | error e => rfl
  | ok ps =>
    rw [ok_bind]
    refine patchCheck_bind Iff.rfl fun hin => ?_
    obtain ⟨stop, out, hloop, hle, hout⟩ :=
      applyLoopAt_eq [] (Nat.zero_le _) (inOrder_of_decode hdec hin)
    have htail : (original.drop stop).take (original.length - stop) = original.drop stop :=
      take_of_length_le (length_drop ▸ Nat.le_refl _)
    rw [hloop, ok_bind]
    simp only [sliceAt_of_le hle (Nat.le_refl _), htail, ok_bind, hout, applyPatches_eq]
    exact patchCheck_bind Iff.rfl fun _ => rfl

theorem decodeAndApply_iff {patchSet out : List UInt8} {cap : SpaceCap} :
    decodeAndApply original patchSet cap = .ok out ↔
      ∃ ps, decodePatchSet patchSet = .ok ps ∧
        (∀ p ∈ ps, p.1 + p.2.1 ≤ original.length % 2 ^ 32) ∧
        out = copyEdits original 0 (ps.map Patch.edit) ∧ out.length ≤ cap.valueSize := by
  rw [decodeAndApply]
  cases hdec : decodePatchSet patchSet with
  | error e =>
    constructor
    · nofun
    · rintro ⟨ps, hps, -⟩
      cases hps
  | ok ps =>
    rw [ok_bind, check_bind_iff, check_bind_iff, applyPatches_eq, all_eq_true]
    simp only [decide_eq_true_eq]
    constructor
    · rintro ⟨hin, hlen, h⟩
      cases h
      exact ⟨ps, rfl, hin, rfl, hlen⟩
    · rintro ⟨ps', hps, hin, rfl, hlen⟩
      cases hps
      exact ⟨hin, hlen, rfl⟩

theorem noIndex_ok {α : Type} {x : VmrtRes α} {a : α} : noIndex x = .ok a ↔ x = .ok a := by
  cases x <;> simp [noIndex, Except.mapError]

theorem noIndex_ne_none {α : Type} (x : VmrtRes α) : noIndex x ≠ .error none := by
  cases x <;> simp [noIndex, Except.mapError]

/-- **Patch sets are canonical.** The bytes `decode_patch_set` accepts are exactly the encodings of
valid sets. `decode_and_apply` never indexes outside the base; what it returns is the base with
the listed ranges replaced, one edit at a time from the last range to the first.
`apply_patch_checked` is that for a base equal to the bytes expected. -/
theorem patch_sets_canonical :
    (∀ bytes ps, decodePatchSetAt bytes = .ok ps ↔
      ValidPatchSet ps ∧ encodePatchSet ps = .ok bytes) ∧
    (∀ ps, ValidPatchSet ps →
      ∃ bytes, encodePatchSet ps = .ok bytes ∧ decodePatchSetAt bytes = .ok ps) ∧
    (∀ bytes, decodePatchSetAt bytes ≠ .error none) ∧
    (∀ base patchSet cap, decodeAndApplyAt base patchSet cap ≠ .error none) ∧
    (∀ base patchSet cap out, decodeAndApplyAt base patchSet cap = .ok out →
      ∃ ps, decodePatchSetAt patchSet = .ok ps ∧
        InOrder base.length 0 (ps.map Patch.edit) ∧
        out = copyEdits base 0 (ps.map Patch.edit) ∧
        out = applyLast base (ps.map Patch.edit) ∧ out.length ≤ cap.valueSize) ∧
    (∀ hash base expected patchSet cap r,
      applyPatchChecked hash base expected patchSet cap = .ok r ↔
        ∃ bytes out, expected = .bytes base ∧ patchSet = .bytes bytes ∧
          decodeAndApplyAt base bytes cap = .ok out ∧ r = (out, hash.sha256 out)) := by
  refine ⟨fun bytes ps => ?_, fun ps hvalid => ?_, fun bytes => ?_, fun base patchSet cap => ?_,
    fun base patchSet cap out h => ?_, fun hash base expected patchSet cap r => ?_⟩
  · rw [decodePatchSetAt_eq, noIndex_ok, decodePatchSet_iff]
  · refine ⟨_, encodePatchSet_iff.mpr ⟨hvalid.count, fun p hp => (hvalid.short p hp).2.2, rfl⟩, ?_⟩
    rw [decodePatchSetAt_eq, noIndex_ok, decodePatchSet_iff, encodePatchSet_iff]
    exact ⟨hvalid, hvalid.count, fun p hp => (hvalid.short p hp).2.2, rfl⟩
  · rw [decodePatchSetAt_eq]
    exact noIndex_ne_none _
  · rw [decodeAndApplyAt_eq]
    exact noIndex_ne_none _
  · rw [decodeAndApplyAt_eq, noIndex_ok, decodeAndApply_iff] at h
    obtain ⟨ps, hdec, hin, rfl, hlen⟩ := h
    have horder : InOrder base.length 0 (ps.map Patch.edit) :=
      inOrder_of_decode hdec (all_eq_true.mpr fun p hp => decide_eq_true (hin p hp))
    refine ⟨ps, ?_, horder, rfl, ?_, hlen⟩
    · rw [decodePatchSetAt_eq, noIndex_ok]
      exact hdec
    · rw [applyLast_eq base _ (Nat.zero_le _) horder]
      rfl
  · simp only [decodeAndApplyAt_eq, noIndex_ok]
    constructor
    · intro h
      unfold applyPatchChecked at h
      split at h
      · rw [check_bind_iff] at h
        obtain ⟨rfl, h⟩ := h
        obtain ⟨out, hout, h⟩ := bind_eq_ok h
        cases h
        exact ⟨_, out, rfl, rfl, hout, rfl⟩
      · cases h
    · rintro ⟨bytes, out, rfl, rfl, hout, rfl⟩
      rw [applyPatchChecked, check_of _ _ rfl, ok_bind, hout]
      rfl

end Vm

end Hacash
