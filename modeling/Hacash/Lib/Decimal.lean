import Mathlib

/-!
# Decimal text

Numbers as strings of ASCII digits, most significant first (`decValue`).
-/

namespace Hacash.Lib

open List

/-- The number a string of digits stands for. -/
def decValue (ds : List Char) : ℕ := ds.foldl (fun n c => n * 10 + (c.toNat - 48)) 0

@[simp] theorem decValue_nil : decValue [] = 0 := rfl

theorem decValue_concat (ds : List Char) (c : Char) :
    decValue (ds ++ [c]) = decValue ds * 10 + (c.toNat - 48) := by
  rw [decValue, foldl_append]
  rfl

theorem decValue_append (a b : List Char) :
    decValue (a ++ b) = decValue a * 10 ^ b.length + decValue b := by
  induction b using reverseRecOn with
  | nil => simp
  | append_singleton b c ih =>
    rw [← append_assoc, decValue_concat, decValue_concat, ih, length_append,
      length_singleton, pow_succ]
    ring

theorem decValue_cons (c : Char) (ds : List Char) :
    decValue (c :: ds) = (c.toNat - 48) * 10 ^ ds.length + decValue ds := by
  have h := decValue_append [c] ds
  rw [singleton_append] at h
  rw [h]
  simp [decValue]

/-- Only digits. -/
def AllDigits (ds : List Char) : Prop := ds.all Char.isDigit = true

instance (ds : List Char) : Decidable (AllDigits ds) := inferInstanceAs (Decidable (_ = true))

variable {c : Char} {ds : List Char}

theorem allDigits_cons : AllDigits (c :: ds) ↔ c.isDigit = true ∧ AllDigits ds := by
  rw [AllDigits, AllDigits, all_cons, Bool.and_eq_true]

theorem allDigits_append {a b : List Char} : AllDigits (a ++ b) ↔ AllDigits a ∧ AllDigits b := by
  rw [AllDigits, AllDigits, AllDigits, all_append, Bool.and_eq_true]

theorem AllDigits.mem (h : AllDigits ds) (hc : c ∈ ds) :
    c.isDigit = true := all_eq_true.mp h c hc

theorem AllDigits.sublist {a b : List Char} (h : AllDigits b) (hab : a.Sublist b) :
    AllDigits a := all_eq_true.mpr fun _ hc => h.mem (hab.subset hc)

/-- A digit is none of the other characters. -/
theorem AllDigits.ne (h : AllDigits ds) (hc : c ∈ ds) {d : Char}
    (hd : d.isDigit = false) : c ≠ d := by
  rintro rfl
  rw [h.mem hc] at hd
  cases hd

/-! ## Writing numbers -/

/-- A text of digits that stands for a number. -/
structure Writes (text : List Char) (n : ℕ) : Prop where
  ne_nil : text ≠ []
  digits : AllDigits text
  value : decValue text = n

/-- The digit of a number below ten. -/
def decDigit (d : ℕ) : Char := Char.ofNat (48 + d)

theorem decDigit_spec {d : ℕ} (h : d < 10) :
    (decDigit d).toNat - 48 = d ∧ (decDigit d).isDigit = true := by
  interval_cases d <;> decide

/-- The digits of a number in front of a text; none for zero. -/
def pushDigits : (fuel n : ℕ) → List Char → List Char
  | 0, _, text => text
  | fuel + 1, n, text =>
    if n = 0 then text else pushDigits fuel (n / 10) (decDigit (n % 10) :: text)

theorem pushDigits_append : ∀ (fuel n : ℕ) (text : List Char),
    pushDigits fuel n text = pushDigits fuel n [] ++ text
  | 0, _, _ => rfl
  | fuel + 1, n, text => by
    rw [pushDigits, pushDigits]
    split_ifs
    · rfl
    · rw [pushDigits_append fuel _ (_ :: text), pushDigits_append fuel _ [_], append_assoc]
      rfl

theorem div_lt_pow {fuel n : ℕ} (h : n < 10 ^ (fuel + 1)) : n / 10 < 10 ^ fuel := by
  rw [Nat.div_lt_iff_lt_mul (by norm_num), ← pow_succ]
  exact h

/-- **What is written is the number.** -/
theorem decValue_pushDigits : ∀ {fuel n : ℕ}, n < 10 ^ fuel →
    decValue (pushDigits fuel n []) = n
  | 0, n, h => by
    rw [Nat.lt_one_iff.mp h]
    rfl
  | fuel + 1, n, h => by
    rw [pushDigits]
    split_ifs with hn
    · rw [hn]
      rfl
    · rw [pushDigits_append, decValue_concat, decValue_pushDigits (div_lt_pow h),
        (decDigit_spec (Nat.mod_lt n (by norm_num))).1]
      omega

theorem allDigits_pushDigits : ∀ fuel n : ℕ, AllDigits (pushDigits fuel n [])
  | 0, _ => rfl
  | fuel + 1, n => by
    rw [pushDigits]
    split_ifs
    · rfl
    · rw [pushDigits_append, allDigits_append, allDigits_cons]
      exact ⟨allDigits_pushDigits fuel _, (decDigit_spec (Nat.mod_lt n (by norm_num))).2, rfl⟩

/-- **The digits of a positive number write it.** -/
theorem pushDigits_writes {fuel n : ℕ} (hn : 0 < n) (h : n < 10 ^ fuel) :
    Writes (pushDigits fuel n []) n where
  ne_nil hnil := by
    have := decValue_pushDigits h
    rw [hnil] at this
    exact absurd this hn.ne
  digits := allDigits_pushDigits fuel n
  value := decValue_pushDigits h

/-- The digits of a number by a loop that writes one before it looks whether there are more. -/
def writeDigits : (fuel n : ℕ) → List Char → List Char
  | 0, _, text => text
  | fuel + 1, n, text =>
    if n / 10 = 0 then decDigit (n % 10) :: text
    else writeDigits fuel (n / 10) (decDigit (n % 10) :: text)

theorem writeDigits_writes : ∀ {fuel n : ℕ} (text : List Char), n < 10 ^ fuel → 0 < fuel →
    ∃ ds, writeDigits fuel n text = ds ++ text ∧ Writes ds n
  | fuel + 1, n, text, h, _ => by
    obtain ⟨hdigit, hisDigit⟩ := decDigit_spec (Nat.mod_lt n (show 0 < 10 by norm_num))
    rw [writeDigits]
    split_ifs with hn
    · refine ⟨[decDigit (n % 10)], rfl, cons_ne_nil _ _, allDigits_cons.mpr ⟨hisDigit, rfl⟩, ?_⟩
      rw [decValue_cons, hdigit]
      simp
      omega
    · have hmore := div_lt_pow h
      have hpos : 0 < fuel := by
        refine Nat.pos_of_ne_zero fun h0 => hn ?_
        rw [h0, pow_zero] at hmore
        omega
      obtain ⟨ds, hds, hwrites⟩ := writeDigits_writes (decDigit (n % 10) :: text) hmore hpos
      refine ⟨ds ++ [decDigit (n % 10)], ?_, ?_, ?_, ?_⟩
      · rw [hds, append_assoc, singleton_append]
      · exact append_ne_nil_of_left_ne_nil hwrites.ne_nil _
      · exact allDigits_append.mpr ⟨hwrites.digits, allDigits_cons.mpr ⟨hisDigit, rfl⟩⟩
      · rw [decValue_concat, hwrites.value, hdigit]
        omega

/-- The loop writes the digits of the library. -/
theorem writeDigits_eq : ∀ {fuel n : ℕ} (text : List Char), n < 10 ^ fuel → 0 < fuel →
    writeDigits fuel n text = Nat.toDigits 10 n ++ text
  | fuel + 1, n, text, h, _ => by
    have hdigit : decDigit (n % 10) = Nat.digitChar (n % 10) := by
      have hlt := Nat.mod_lt n (show 0 < 10 by norm_num)
      generalize n % 10 = d at hlt
      interval_cases d <;> rfl
    rw [writeDigits, hdigit]
    split_ifs with hn
    · rw [Nat.toDigits_of_lt_base (by omega), Nat.mod_eq_of_lt (by omega)]
      rfl
    · have hmore := div_lt_pow h
      have hpos : 0 < fuel := by
        refine Nat.pos_of_ne_zero fun h0 => hn ?_
        rw [h0, pow_zero] at hmore
        omega
      rw [writeDigits_eq _ hmore hpos, Nat.toDigits_of_base_le (by norm_num) (n := n) (by omega),
        append_assoc, singleton_append]

theorem zero_writes : Writes ['0'] 0 := ⟨cons_ne_nil _ _, rfl, rfl⟩

/-! ## Zeros -/

/-- A text without its leading zeros. -/
def trimZeros (ds : List Char) : List Char := ds.dropWhile (· == '0')

theorem decValue_trimZeros : ∀ ds : List Char, decValue (trimZeros ds) = decValue ds
  | [] => rfl
  | c :: ds => by
    rw [trimZeros, dropWhile_cons]
    split_ifs with hc
    · have hc' : c = '0' := by simpa using hc
      rw [hc', decValue_cons]
      have ih := decValue_trimZeros ds
      rw [trimZeros] at ih
      rw [ih]
      simp
    · rfl

theorem trimZeros_sublist (ds : List Char) : (trimZeros ds).Sublist ds :=
  dropWhile_sublist _

theorem head_trimZeros (ds : List Char) : (trimZeros ds).head? ≠ some '0' := by
  intro h
  have hd := head?_dropWhile_not (· == '0') ds
  rw [show ds.dropWhile (· == '0') = trimZeros ds from rfl, h] at hd
  simp at hd

theorem decValue_pos (hdigits : AllDigits ds) (hne : ds ≠ [])
    (hhead : ds.head? ≠ some '0') : 0 < decValue ds := by
  cases ds with
  | nil => exact absurd rfl hne
  | cons c ds =>
    rw [allDigits_cons] at hdigits
    have hpos : 0 < c.toNat - 48 := by
      have hc := hdigits.1
      rw [Char.isDigit, Bool.and_eq_true, decide_eq_true_iff, decide_eq_true_iff] at hc
      have hne : c.toNat ≠ 48 := by
        intro h
        exact hhead (congrArg some (Char.toNat_inj.mp h))
      have : 48 ≤ c.toNat := hc.1
      omega
    rw [decValue_cons]
    have : 0 < (c.toNat - 48) * 10 ^ ds.length := Nat.mul_pos hpos (by positivity)
    omega

/-- Zeros at the end, at most `steps` of them, moved into an exponent. -/
def trimTail : (steps : ℕ) → List Char → ℕ → List Char × ℕ
  | 0, ds, u => (ds, u)
  | steps + 1, ds, u =>
    if ds.getLast? = some '0' then trimTail steps ds.dropLast (u + 1) else (ds, u)

theorem decValue_trimTail : ∀ (steps : ℕ) (ds : List Char) (u : ℕ),
    decValue (trimTail steps ds u).1 * 10 ^ (trimTail steps ds u).2 = decValue ds * 10 ^ u
  | 0, _, _ => rfl
  | steps + 1, ds, u => by
    rw [trimTail]
    split_ifs with h
    · have hds : ds = ds.dropLast ++ ['0'] := (dropLast_append_getLast? _ h).symm
      rw [decValue_trimTail steps]
      conv_rhs => rw [hds, decValue_concat]
      rw [pow_succ]
      simp
      ring
    · rfl

theorem trimTail_unit : ∀ (steps : ℕ) (ds : List Char) (u : ℕ),
    u ≤ (trimTail steps ds u).2 ∧ (trimTail steps ds u).2 ≤ u + steps
  | 0, _, _ => ⟨le_rfl, le_rfl⟩
  | steps + 1, ds, u => by
    rw [trimTail]
    split_ifs
    · have h := trimTail_unit steps ds.dropLast (u + 1)
      exact ⟨by omega, by omega⟩
    · exact ⟨le_rfl, by omega⟩

/-- What is left are digits of the text. -/
theorem trimTail_sublist : ∀ (steps : ℕ) (ds : List Char) (u : ℕ),
    (trimTail steps ds u).1.Sublist ds
  | 0, ds, _ => List.Sublist.refl ds
  | steps + 1, ds, u => by
    rw [trimTail]
    split_ifs
    · exact (trimTail_sublist steps ds.dropLast (u + 1)).trans (dropLast_sublist ds)
    · exact List.Sublist.refl ds

theorem rdropWhile_sublist (p : Char → Bool) (ds : List Char) : (ds.rdropWhile p).Sublist ds := by
  have h := rdropWhile_prefix p ds
  exact h.sublist

theorem trimTail_stops : ∀ (steps : ℕ) (ds : List Char) (u : ℕ),
    (trimTail steps ds u).1.getLast? ≠ some '0' ∨ (trimTail steps ds u).2 = u + steps
  | 0, _, _ => .inr rfl
  | steps + 1, ds, u => by
    rw [trimTail]
    split_ifs with h
    · rcases trimTail_stops steps ds.dropLast (u + 1) with hlast | hunit
      · exact .inl hlast
      · exact .inr (by rw [hunit]; omega)
    · exact .inl h

theorem decValue_mod_ten (hdigits : AllDigits ds) (hpos : 0 < decValue ds)
    (hlast : ds.getLast? ≠ some '0') : decValue ds % 10 ≠ 0 := by
  induction ds using reverseRecOn with
  | nil => exact absurd hpos (lt_irrefl 0)
  | append_singleton ds c _ =>
    rw [allDigits_append, allDigits_cons] at hdigits
    have hc := hdigits.2.1
    rw [Char.isDigit, Bool.and_eq_true, decide_eq_true_iff, decide_eq_true_iff] at hc
    have hne : c.toNat ≠ 48 := by
      intro h
      refine hlast ?_
      rw [getLast?_concat]
      exact congrArg some (Char.toNat_inj.mp h)
    have hlow : 48 ≤ c.toNat := hc.1
    have hhigh : c.toNat ≤ 57 := hc.2
    rw [decValue_concat]
    omega

theorem decValue_rdropWhile (pre ds : List Char) :
    decValue (pre ++ ds) = decValue (pre ++ ds.rdropWhile (· == '0'))
      * 10 ^ (ds.length - (ds.rdropWhile (· == '0')).length) := by
  induction ds using reverseRecOn with
  | nil => simp
  | append_singleton ds c ih =>
    by_cases hc : (c == '0') = true
    · have hle : (ds.rdropWhile (· == '0')).length ≤ ds.length :=
        (rdropWhile_sublist _ ds).length_le
      have hc' : c = '0' := by simpa using hc
      rw [rdropWhile_concat_pos (· == '0') ds c hc, ← append_assoc, decValue_concat, ih, hc',
        length_append, length_singleton, Nat.succ_sub hle, pow_succ]
      simp
      ring
    · rw [rdropWhile_concat_neg (· == '0') ds c hc, Nat.sub_self, pow_zero, mul_one]

/-! ## Reading numbers -/

/-- An unsigned number up to `max`: an optional plus sign and digits. -/
def parseUint (max : ℕ) (text : List Char) : Option ℕ :=
  let ds := if text.head? = some '+' then text.tail else text
  if ds ≠ [] ∧ AllDigits ds ∧ decValue ds ≤ max then some (decValue ds) else none

theorem parseUint_digits {max : ℕ} (hne : ds ≠ []) (hdigits : AllDigits ds) :
    parseUint max ds = if decValue ds ≤ max then some (decValue ds) else none := by
  have hplus : ds.head? ≠ some '+' := by
    intro h
    have := hdigits.mem (mem_of_head? h)
    revert this
    decide
  rw [parseUint, if_neg hplus]
  by_cases hle : decValue ds ≤ max
  · rw [if_pos ⟨hne, hdigits, hle⟩, if_pos hle]
  · rw [if_neg (fun h => hle h.2.2), if_neg hle]

end Hacash.Lib
