import Hacash.Ledger.Diamond

/-!
# What `DiamondOwnedForm::drop` leaves behind (diamond_sto.rs)

`drop` edits the buffer in place, and puts it back also when a name was not found. **Key result**:
`drop_exact_iff`.
-/

namespace Hacash

open Lib List DiamondName

namespace DiamondOwnedForm

/-- A list in which no name stands twice. -/
structure DiamondNameListMax200 where
  names : List DiamondName
  length_le : names.length ≤ 200
  nodup : names.Nodup

/-- The buffer put back into the form. `mem::take` has left an empty one. -/
def putBack {α : Type} (buf : List UInt8) (res : Ret α) : DiamondOwnedForm × Ret α :=
  match bytesW4 buf with
  | .ok names => (⟨names⟩, res)
  | .error e => (⟨[]⟩, .error e)

/-- `drop`: the form it leaves, and the number of names removed or the error. -/
def dropInPlace (form : DiamondOwnedForm) (listed : DiamondNameListMax200) :
    DiamondOwnedForm × Ret ℕ :=
  if form.names.length % 6 ≠ 0 then
    putBack form.names (errf "DiamondOwnedForm names length invalid")
  else
    let (buf, length, pending) := dropLoop (form.names.length / 6) 0 form.names
      listed.names.dedup
    if pending ≠ [] then putBack buf (errf "diamond names not found in owned form")
    else putBack (buf.take (length * 6)) (.ok (form.names.length / 6 - length))

variable {form form' : DiamondOwnedForm} {names : List DiamondName}
  {listed : DiamondNameListMax200}

theorem putBack_fits {α : Type} {buf : List UInt8} (hfit : buf.length ≤ 2 ^ 32 - 1)
    (res : Ret α) : putBack buf res = (⟨buf⟩, res) := by
  rw [putBack, bytesW4, ensure, if_pos hfit]
  rfl

/-- `drop` of the ledger is the in-place routine with the form of an error thrown away. -/
theorem drop_eq_ok_iff :
    form.drop listed.names = .ok form' ↔ ∃ n, form.dropInPlace listed = (form', .ok n) := by
  rw [drop, dropInPlace]
  by_cases hmod : form.names.length % 6 = 0
  · rw [ensure, if_pos hmod, if_neg (not_not.mpr hmod)]
    generalize dropLoop (form.names.length / 6) 0 form.names listed.names.dedup = out
    obtain ⟨buf, length, pending⟩ := out
    by_cases hnone : pending = []
    · simp only [ensure, hnone, if_true, putBack, ne_eq, not_true_eq_false, if_false]
      cases bytesW4 (buf.take (length * 6)) with
      | error e => exact ⟨(by intro h; cases h), by rintro ⟨n, h⟩; cases h⟩
      | ok bytes =>
        constructor
        · intro h
          cases h
          exact ⟨_, rfl⟩
        · rintro ⟨n, h⟩
          cases h
          rfl
    · simp only [ensure, hnone, if_false, putBack, ne_eq, not_false_eq_true, if_true]
      cases bytesW4 buf with
      | error e | ok bytes => exact ⟨(by intro h; cases h), by rintro ⟨n, h⟩; cases h⟩
  · rw [ensure, if_neg hmod, if_pos hmod, putBack]
    cases bytesW4 form.names with
    | error e | ok bytes => exact ⟨(by intro h; cases h), by rintro ⟨n, h⟩; cases h⟩

/-! ## The buffer after the loop -/

theorem find_pending (pending : List DiamondName) (x : DiamondName) :
    (pending.find? (fun name => name.bytes == x.bytes) = none ∧ x ∉ pending) ∨
      (pending.find? (fun name => name.bytes == x.bytes) = some x ∧ x ∈ pending) := by
  cases hfind : pending.find? (fun name => name.bytes == x.bytes) with
  | none =>
    rw [List.find?_eq_none] at hfind
    exact Or.inl ⟨rfl, fun hx => hfind x hx (by simp)⟩
  | some name =>
    obtain rfl : name = x := bytes_inj (by simpa using List.find?_some hfind)
    exact Or.inr ⟨rfl, mem_of_find?_eq_some hfind⟩

theorem dropLoop_unchanged : ∀ (left : ℕ) {pre rest pending : List DiamondName},
    rest.length = left → (∀ n ∈ rest.dropLast, n ∉ pending) →
    (dropLoop left pre.length ((pre ++ rest).flatMap bytes) pending).1
      = (pre ++ rest).flatMap bytes
  | 0, pre, rest, pending, hlen, _ => rfl
  | left + 1, pre, rest, pending, hlen, hlast => by
    obtain ⟨x, tail, rfl⟩ := exists_cons_of_length_eq_add_one hlen
    rw [length_cons, Nat.add_right_cancel_iff] at hlen
    rw [dropLoop, block_flatMap DiamondName.size]
    rcases find_pending pending x with ⟨hfind, -⟩ | ⟨hfind, hx⟩
    · rw [hfind]
      have hpos : pre.length + 1 = (pre ++ [x]).length := by simp
      rw [append_cons, hpos]
      refine dropLoop_unchanged left hlen fun n hn => hlast n ?_
      cases tail with
      | nil => cases hn
      | cons y tail =>
        rw [dropLast_cons_cons]
        exact mem_cons_of_mem _ hn
    · -- a pending name that is not in front of the last one is the last one
      obtain rfl : tail = [] := by
        cases tail with
        | nil => rfl
        | cons y tail =>
          rw [dropLast_cons_cons] at hlast
          exact absurd hx (hlast x mem_cons_self)
      obtain rfl : left = 0 := hlen.symm
      rw [hfind]
      dsimp only
      rw [Nat.add_zero, if_neg (lt_irrefl _)]
      split_ifs
      · rfl
      · rfl

theorem dropLoop_subset : ∀ (left : ℕ) (pre rest junk pending : List DiamondName),
    rest.length = left →
    ∃ after : List DiamondName, (dropLoop left pre.length ((pre ++ (rest ++ junk)).flatMap bytes)
        pending).1 = after.flatMap bytes ∧
      after.length = (pre ++ (rest ++ junk)).length ∧ ∀ n ∈ after, n ∈ pre ++ (rest ++ junk)
  | 0, pre, rest, junk, pending, hlen => ⟨_, rfl, rfl, fun _ hn => hn⟩
  | left + 1, pre, rest, junk, pending, hlen => by
    obtain ⟨x, tail, rfl⟩ := exists_cons_of_length_eq_add_one hlen
    rw [length_cons, Nat.add_right_cancel_iff] at hlen
    rw [cons_append, dropLoop, block_flatMap DiamondName.size]
    rcases find_pending pending x with ⟨hfind, -⟩ | ⟨hfind, -⟩
    · rw [hfind]
      have hpos : pre.length + 1 = (pre ++ [x]).length := by simp
      rw [append_cons, hpos]
      exact dropLoop_subset left _ _ _ _ hlen
    · rw [hfind]
      obtain ⟨rest', junk', hbuf, hlen', hjunk, -, hmem⟩ := remove_last pre junk x hlen
      have hsize : (pre ++ (rest' ++ junk')).length = (pre ++ x :: (tail ++ junk)).length := by
        simp only [length_append, length_cons, hlen', hjunk, hlen]
        omega
      have hsub : ∀ n ∈ pre ++ (rest' ++ junk'), n ∈ pre ++ x :: (tail ++ junk) := by
        intro n hn
        rcases mem_append.mp hn with hn | hn
        · exact mem_append_left _ hn
        · refine mem_append_right _ ?_
          rcases hmem with ⟨rfl, hmem⟩ | ⟨-, hmem⟩
          · rwa [hmem] at hn
          · exact mem_cons_of_mem _ (hmem hn)
      dsimp only
      rw [hbuf]
      split_ifs with hdone
      · exact ⟨_, rfl, hsize, hsub⟩
      · obtain ⟨after, hafter, hcount, hin⟩ := dropLoop_subset left pre rest' junk'
          (pending.erase x) hlen'
        exact ⟨after, hafter, hcount.trans hsize, fun n hn => hsub n (hin n hn)⟩

theorem dropLoop_loses : ∀ (left : ℕ) {pre rest pending : List DiamondName},
    rest.length = left → (pre ++ rest).Nodup → (∃ n ∈ rest.dropLast, n ∈ pending) →
    ∃ x ∈ pre ++ rest, ∃ after : List DiamondName,
      (dropLoop left pre.length ((pre ++ rest).flatMap bytes) pending).1
        = after.flatMap bytes ∧ x ∉ after
  | 0, pre, rest, pending, hlen, _, hex => by
    obtain rfl := eq_nil_of_length_eq_zero hlen
    obtain ⟨n, hn, -⟩ := hex
    cases hn
  | left + 1, pre, rest, pending, hlen, hnodup, hex => by
    obtain ⟨x, tail, rfl⟩ := exists_cons_of_length_eq_add_one hlen
    rw [length_cons, Nat.add_right_cancel_iff] at hlen
    rw [dropLoop, block_flatMap DiamondName.size]
    obtain ⟨n, hn, hpend⟩ := hex
    have htail : tail ≠ [] := by
      rintro rfl
      cases hn
    rcases find_pending pending x with ⟨hfind, hx⟩ | ⟨hfind, -⟩
    · rw [hfind]
      have hpos : pre.length + 1 = (pre ++ [x]).length := by simp
      rw [append_cons] at hnodup ⊢
      rw [hpos]
      refine dropLoop_loses left hlen hnodup ⟨n, ?_, hpend⟩
      rw [dropLast_cons_of_ne_nil htail] at hn
      rcases mem_cons.mp hn with rfl | hn
      · exact absurd hpend hx
      · exact hn
    · -- the first removal: `x` stands nowhere else
      rw [hfind]
      have hnew : x ∉ pre ++ tail := (nodup_cons.mp (nodup_middle.mp hnodup)).1
      obtain ⟨rest', junk', hbuf, hlen', -, -, hmem⟩ := remove_last pre [] x hlen
      rw [append_nil] at hbuf
      have hsub : ∀ n ∈ pre ++ (rest' ++ junk'), n ∈ pre ++ tail := by
        intro n hn
        rcases mem_append.mp hn with hn | hn
        · exact mem_append_left _ hn
        · refine mem_append_right _ ?_
          rcases hmem with ⟨h, -⟩ | ⟨-, hmem⟩
          · exact absurd h htail
          · rw [append_nil] at hmem
            exact hmem hn
      refine ⟨x, by simp, ?_⟩
      dsimp only
      rw [hbuf]
      split_ifs with hdone
      · exact ⟨_, rfl, fun h => hnew (hsub x h)⟩
      · obtain ⟨after, hafter, -, hin⟩ := dropLoop_subset left pre rest' junk'
          (pending.erase x) hlen'
        exact ⟨after, hafter, fun h => hnew (hsub x (hin x h))⟩

/-! ## Exact removal -/

/-- What a removal of `listed` from a form that holds `names` should do. -/
structure DropExact (form : DiamondOwnedForm) (names : List DiamondName)
    (listed : DiamondNameListMax200) : Prop where
  /-- It succeeds on lists of names that are held, and on no other list. -/
  ok_iff : (form.dropInPlace listed).2.isOk = true ↔ ∀ n ∈ listed.names, n ∈ names
  /-- A success removes the listed names and keeps every other name once. -/
  removes : (form.dropInPlace listed).2.isOk = true →
    ∃ names', (form.dropInPlace listed).1.Lists names' ∧ names'.Nodup ∧
      ∀ n, n ∈ names' ↔ n ∈ names ∧ n ∉ listed.names
  /-- A failure leaves the form alone. -/
  unchanged : (form.dropInPlace listed).2.isOk = false → (form.dropInPlace listed).1 = form

/-- All names are held, or at most the last name of the form is. -/
def DropSafe (names : List DiamondName) (listed : DiamondNameListMax200) : Prop :=
  (∃ n ∈ listed.names, n ∉ names) → ∀ n ∈ names.dropLast, n ∉ listed.names

/-- The run of the loop on a whole form. -/
theorem Lists.dropInPlace_eq (hl : form.Lists names) (hfit : form.names.length ≤ 2 ^ 32 - 1) :
    form.dropInPlace listed =
      let out := dropLoop names.length 0 (names.flatMap bytes) listed.names.dedup
      if out.2.2 ≠ [] then (⟨out.1⟩, errf "diamond names not found in owned form")
      else (⟨out.1.take (out.2.1 * 6)⟩, .ok (names.length - out.2.1)) := by
  have hlen := hl.length
  have hmod : form.names.length % 6 = 0 := by omega
  have hdiv : form.names.length / 6 = names.length := by omega
  rw [dropInPlace, if_neg (not_not.mpr hmod), hdiv, hl]
  -- the buffer put back is no longer than the one taken out
  obtain ⟨after, hafter, hcount, -⟩ := dropLoop_subset names.length [] names [] listed.names.dedup
    rfl
  rw [nil_append, append_nil] at hafter hcount
  rw [length_nil] at hafter
  generalize dropLoop names.length 0 (names.flatMap bytes) listed.names.dedup = out
    at hafter ⊢
  obtain ⟨buf, length, pending⟩ := out
  have hbuf : buf.length ≤ 2 ^ 32 - 1 := by
    rw [show buf = _ from hafter, length_flatMap_block DiamondName.size, hcount]
    omega
  dsimp only
  split_ifs with hnone
  · exact putBack_fits hbuf _
  · refine putBack_fits (le_trans ?_ hbuf) _
    exact length_take_le' _ _

theorem dropLoop_pending (names listed : List DiamondName) :
    (dropLoop names.length 0 (names.flatMap bytes) listed.dedup).2.2 = [] ↔
      ∀ n ∈ listed, n ∈ names := by
  obtain ⟨kept, taken, junk, -, -, hperm, hpending, hkept⟩ :=
    @dropLoop_perm names.length [] names [] listed.dedup _ rfl rfl
  rw [nil_append, append_nil, length_nil] at hpending hkept
  rw [nil_append] at hperm
  have hkept := hkept fun n hn => absurd hn not_mem_nil
  constructor
  · intro hnone n hn
    rw [hnone, append_nil] at hpending
    exact hperm.mem_iff.mpr (mem_append_left _ (hpending.mem_iff.mp (mem_dedup.mpr hn)))
  · intro hall
    rw [eq_nil_iff_forall_not_mem]
    intro n hn
    have hlisted : n ∈ listed :=
      mem_dedup.mp (hpending.mem_iff.mpr (mem_append_right _ hn))
    rcases mem_append.mp (hperm.mem_iff.mp (hall n hlisted)) with ht | hk
    · -- a name taken is not pending any more: the list has no duplicates
      have hdup := hpending.nodup_iff.mp (nodup_dedup listed)
      exact (nodup_append.mp hdup).2.2 n ht n hn rfl
    · exact hkept n hk hn

theorem Lists.dropInPlace_isOk (hl : form.Lists names) (hfit : form.names.length ≤ 2 ^ 32 - 1) :
    (form.dropInPlace listed).2.isOk = true ↔ ∀ n ∈ listed.names, n ∈ names := by
  rw [hl.dropInPlace_eq hfit, ← dropLoop_pending]
  dsimp only
  split_ifs with hnone
  · exact ⟨nofun, fun h => absurd h hnone⟩
  · exact ⟨fun _ => not_not.mp hnone, fun _ => rfl⟩

theorem Lists.dropInPlace_failed (hl : form.Lists names) (hnodup : names.Nodup)
    (hfit : form.names.length ≤ 2 ^ 32 - 1) (hmiss : ∃ n ∈ listed.names, n ∉ names) :
    (form.dropInPlace listed).1 = form ↔ ∀ n ∈ names.dropLast, n ∉ listed.names := by
  have hpending : (dropLoop names.length 0 (names.flatMap bytes) listed.names.dedup).2.2
      ≠ [] := by
    rw [ne_eq, dropLoop_pending]
    obtain ⟨n, hn, hnot⟩ := hmiss
    exact fun h => hnot (h n hn)
  rw [hl.dropInPlace_eq hfit]
  dsimp only
  rw [if_pos hpending]
  constructor
  · intro heq n hn hlisted
    -- a name overwritten by the loop would still be in the buffer
    obtain ⟨x, hx, after, hafter, hgone⟩ := @dropLoop_loses names.length [] names
      listed.names.dedup rfl (by rwa [nil_append]) ⟨n, hn, mem_dedup.mpr hlisted⟩
    rw [nil_append, length_nil] at hafter
    rw [nil_append] at hx
    have hbuf : form.names = after.flatMap bytes := by
      rw [← hafter]
      exact congrArg DiamondOwnedForm.names heq.symm
    have hsame : names = after :=
      flatMap_block_inj DiamondName.size (by decide) (fun _ _ => bytes_inj) (hl.symm.trans hbuf)
    exact hgone (hsame ▸ hx)
  · intro hlast
    have hsame := @dropLoop_unchanged names.length [] names listed.names.dedup rfl
      fun n hn hd => hlast n hn (mem_dedup.mp hd)
    rw [nil_append, length_nil] at hsame
    rw [hsame, ← hl]

/-- **When a removal is exact**: if and only if the list is safe, without names in front of the last
name of the form where `drop` fails. -/
theorem drop_exact_iff (hl : form.Lists names) (hnodup : names.Nodup)
    (hfit : form.names.length ≤ 2 ^ 32 - 1) :
    form.DropExact names listed ↔ DropSafe names listed := by
  have hok : (form.dropInPlace listed).2.isOk = true ↔ ∀ n ∈ listed.names, n ∈ names :=
    hl.dropInPlace_isOk hfit
  constructor
  · intro exact' hmiss
    refine (hl.dropInPlace_failed hnodup hfit hmiss).mp (exact'.unchanged ?_)
    rw [← Bool.not_eq_true, hok]
    obtain ⟨n, hn, hnot⟩ := hmiss
    exact fun h => hnot (h n hn)
  · intro hlast
    refine ⟨hok, fun hisOk => ?_, fun hfail => ?_⟩
    · obtain ⟨n, hn⟩ := exists_of_isOk hisOk
      exact hl.drop hnodup (drop_eq_ok_iff.mpr ⟨n, Prod.ext rfl hn⟩)
    · rw [← Bool.not_eq_true, hok] at hfail
      obtain ⟨n, hn, hnot⟩ : ∃ n ∈ listed.names, n ∉ names := by simpa using hfail
      exact (hl.dropInPlace_failed hnodup hfit ⟨n, hn, hnot⟩).mpr (hlast ⟨n, hn, hnot⟩)

/-- A name of one letter. -/
def sampleName (letter : UInt8) : DiamondName := ⟨List.replicate 6 letter, rfl⟩

/-- A form with the names of `W`, `T` and `Y`. -/
def sampleForm : DiamondOwnedForm :=
  ⟨[sampleName 87, sampleName 84, sampleName 89].flatMap bytes⟩

/-- Two names of the form are removed, and the third stays. -/
theorem drop_exact_sample :
    sampleForm.DropExact [sampleName 87, sampleName 84, sampleName 89]
      ⟨[sampleName 89, sampleName 87], by decide, by decide⟩ :=
  (drop_exact_iff rfl (by decide) (by decide)).mpr fun h => by revert h; decide

/-- A name of the form and one that is not held. -/
def oneMissing : DiamondNameListMax200 := ⟨[sampleName 87, sampleName 75], by decide, by decide⟩

/-- The second name is not found and the call fails, but the first has been overwritten by the last
name of the form. -/
theorem drop_failed_changes_form :
    (sampleForm.dropInPlace oneMissing).2.isOk = false ∧
      (sampleForm.dropInPlace oneMissing).1
        = ⟨[sampleName 89, sampleName 84, sampleName 89].flatMap bytes⟩ ∧
      ¬ sampleForm.DropExact [sampleName 87, sampleName 84, sampleName 89] oneMissing := by
  have hfail : (sampleForm.dropInPlace oneMissing).2.isOk = false := by
    decide +kernel
  have hleft : (sampleForm.dropInPlace oneMissing).1
      = ⟨[sampleName 89, sampleName 84, sampleName 89].flatMap bytes⟩ := by
    decide +kernel
  refine ⟨hfail, hleft, fun exact' => ?_⟩
  have hsame := exact'.unchanged hfail
  rw [hleft] at hsame
  revert hsame
  decide +kernel

end DiamondOwnedForm

end Hacash
