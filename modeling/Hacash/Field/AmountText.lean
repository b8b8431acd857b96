import Hacash.Field.AmountArith

/-!
# Amounts as text (`field::types::amount`)

The parser and the two renderings, against a grammar of their own (`Literal`). **Key result**:
`amount_text_round_trip`.
-/

namespace Hacash

open Lib List

/-! ## Characters -/

/-- `char::is_whitespace`: the Unicode property `White_Space`. -/
def isWhitespace (c : Char) : Bool :=
  let n := c.toNat
  (9 ≤ n && n ≤ 13) || n == 32 || n == 0x85 || n == 0xA0 || n == 0x1680
    || (0x2000 ≤ n && n ≤ 0x200A) || n == 0x2028 || n == 0x2029 || n == 0x202F || n == 0x205F
    || n == 0x3000

def trim (text : List Char) : List Char := (text.dropWhile isWhitespace).rdropWhile isWhitespace

/-- Every character but the point and the colon, at which a number ends. -/
def inNumber (c : Char) : Bool := c != '.' && c != ':'

theorem inNumber_of_isDigit {c : Char} (h : c.isDigit = true) : inNumber c = true := by
  rw [inNumber, Bool.and_eq_true, bne_iff_ne, bne_iff_ne]
  constructor <;> rintro rfl <;> revert h <;> decide

theorem eq_of_not_inNumber {c : Char} (h : inNumber c = false) : c = '.' ∨ c = ':' := by
  rw [inNumber, Bool.and_eq_false_iff, bne_eq_false_iff_eq, bne_eq_false_iff_eq] at h
  exact h

/-! ## The parser (amount.rs:152–228, 778–807) -/

namespace Amount

def unitMei : ℕ := 248

def splitSign : List Char → Bool × List Char
  | '-' :: digits => (true, digits)
  | value => (false, value)

/-- `valid_first` and `valid_rest`: groups of three digits, the first of one to three. -/
def Grouped : List (List Char) → Prop
  | [] => False
  | first :: rest => (first ≠ [] ∧ first.length ≤ 3 ∧ AllDigits first) ∧
      ∀ group ∈ rest, group.length = 3 ∧ AllDigits group

instance (groups : List (List Char)) : Decidable (Grouped groups) :=
  match groups with
  | [] => inferInstanceAs (Decidable False)
  | _ :: _ => inferInstanceAs (Decidable (_ ∧ _))

theorem Grouped.digits {groups : List (List Char)} (h : Grouped groups) :
    ∀ group ∈ groups, AllDigits group := by
  cases groups with
  | nil => exact h.elim
  | cons first rest =>
    intro group hmem
    rcases mem_cons.mp hmem with rfl | hmem
    · exact h.1.2.2
    · exact (h.2 group hmem).2

def normalizeGrouping (value : List Char) : Ret (List Char) :=
  if ',' ∉ value then .ok value
  else do
    let number := value.takeWhile inNumber
    let suffix := value.dropWhile inNumber
    ensure (',' ∉ suffix) (.fault "amount comma grouping invalid")
    let groups := (splitSign number).2.splitOn ','
    ensure (2 ≤ groups.length ∧ Grouped groups) (.fault "amount comma grouping invalid")
    return value.filter (· != ',')

def fromDecimalDigits (negative : Bool) (digits : List Char) (unit : ℕ) : Ret Amount :=
  if trimZeros digits = [] then .ok zero
  else
    let (digits, unit) := trimTail (255 - unit) (trimZeros digits) unit
    match parseUint u128Max digits with
    | some magnitude => .ok (ofMantissa negative unit (dropLeftZero (beBytes 16 magnitude)))
    | none => do
      let byte ← fromDecimalB256 digits
      ensure (byte.length ≤ 127) (.fault "Amount is too wide.")
      return ofMantissa negative unit byte

def fromFin (v : List Char) : Ret Amount :=
  match v.dropWhile (· != ':') with
  | [] => errf "amount format invalid"
  | _ :: unit => do
    ensure (':' ∉ unit) (.fault "amount format invalid")
    match parseUint 255 unit with
    | none => errf "amount unit invalid"
    | some unit => do
      let (negative, digits) := splitSign (v.takeWhile (· != ':'))
      ensure (digits ≠ [] ∧ AllDigits digits) (.fault "amount value invalid")
      fromDecimalDigits negative digits unit

def fromMei (v : List Char) : Ret Amount := do
  let (negative, digits) := splitSign v
  let parts := digits.splitOn '.'
  ensure (parts.length ≤ 2) (.fault "amount value invalid")
  let intPart := parts.headD []
  let fracPart := (parts.tail).headD []
  ensure (¬ (intPart = [] ∧ fracPart = []) ∧ AllDigits intPart ∧ AllDigits fracPart)
    (.fault "amount value invalid")
  let fracTrimmed := fracPart.rdropWhile (· == '0')
  ensure (fracTrimmed.length ≤ unitMei) (.fault "amount value invalid")
  fromDecimalDigits negative (intPart ++ fracTrimmed) (unitMei - fracTrimmed.length)

/-- `Amount::from`. -/
def fromStr (text : List Char) : Ret Amount := do
  let v ← normalizeGrouping (trim text)
  if ':' ∈ v then fromFin v else fromMei v

/-! ## The renderings (amount.rs:247–320, 809–836) -/

def u128ToDecimal (value : ℕ) : List Char := if value = 0 then ['0'] else pushDigits 39 value []

def mantissaString (bytes : List UInt8) : List Char :=
  if bytes.length ≤ 16 then u128ToDecimal (beValue bytes) else toDecimalB256 bytes

/-- The sign in front of a number. -/
def signText (negative : Bool) : List Char := if negative then ['-'] else []

def toFinString (a : Amount) : List Char :=
  if a.isZero then ['0', ':', '0']
  else signText a.isNegative ++ mantissaString a.byte ++ ':' :: writeDigits 3 a.unit []

/-- The digits of `to_unit_decimal_string`: the point is put in, zeros and the point are taken off
the end. -/
def unitDecimalDigits (digits : List Char) (unit baseUnit : ℕ) : List Char :=
  if baseUnit ≤ unit then digits ++ replicate (unit - baseUnit) '0'
  else
    let places := baseUnit - unit
    let digits :=
      if digits.length ≤ places then
        '0' :: '.' :: (replicate (places - digits.length) '0' ++ digits)
      else digits.take (digits.length - places) ++ '.' :: digits.drop (digits.length - places)
    let digits := digits.rdropWhile (· == '0')
    if digits.getLast? = some '.' then digits.dropLast else digits

def toUnitDecimalString (a : Amount) (baseUnit : ℕ) : List Char :=
  if a.isZero then ['0']
  else signText a.isNegative ++ unitDecimalDigits (mantissaString a.byte) a.unit baseUnit

/-! ## The number that digits and a unit make -/

theorem mantissaString_writes (a : Amount) (hz : a.isZero = false) :
    Writes (mantissaString a.byte) (beValue a.byte) := by
  have hpos : 0 < beValue a.byte := (not_isZero_iff a).mp hz
  rw [mantissaString]
  split_ifs with hlen
  · rw [u128ToDecimal, if_neg hpos.ne']
    refine pushDigits_writes hpos ((beValue_lt a.byte).trans_le ?_)
    calc 256 ^ a.byte.length ≤ 256 ^ 16 := Nat.pow_le_pow_right (by norm_num) hlen
      _ ≤ 10 ^ 39 := by norm_num
  · exact toDecimalB256_writes a.byte

theorem trimmed_spec {digits : List Char} {unit : ℕ} (hdigits : AllDigits digits)
    (hunit : unit ≤ 255) (hne : trimZeros digits ≠ []) :
    let r := trimTail (255 - unit) (trimZeros digits) unit
    decValue r.1 * 10 ^ r.2 = decValue digits * 10 ^ unit ∧ r.2 ≤ 255 ∧ AllDigits r.1 ∧
      r.1 ≠ [] ∧ 0 < decValue r.1 := by
  intro r
  have hvalue : decValue r.1 * 10 ^ r.2 = decValue digits * 10 ^ unit := by
    rw [decValue_trimTail, decValue_trimZeros]
  have htrim := hdigits.sublist (trimZeros_sublist digits)
  have hpos : 0 < decValue r.1 := by
    have h := decValue_pos htrim hne (head_trimZeros digits)
    rw [decValue_trimZeros] at h
    refine Nat.pos_of_ne_zero fun hzero => ?_
    rw [hzero, zero_mul] at hvalue
    exact absurd hvalue.symm (Nat.mul_pos h (by positivity)).ne'
  have hr : unit ≤ r.2 ∧ r.2 ≤ unit + (255 - unit) := trimTail_unit _ _ _
  refine ⟨hvalue, by omega, htrim.sublist (trimTail_sublist _ _ _), ?_, hpos⟩
  intro hnil
  rw [hnil] at hpos
  exact absurd hpos (lt_irrefl 0)

/-- **What is read is the number.** -/
theorem fromDecimalDigits_value {negative : Bool} {digits : List Char} {unit : ℕ} {a : Amount}
    (hdigits : AllDigits digits) (hunit : unit ≤ 255)
    (h : fromDecimalDigits negative digits unit = .ok a) :
    a.value = (if negative then -1 else 1) * (decValue digits * 10 ^ unit : ℕ) := by
  rw [fromDecimalDigits] at h
  split_ifs at h with hnil
  · cases h
    rw [← decValue_trimZeros, hnil]
    simp
  · obtain ⟨hvalue, hu, hall, hne, hpos⟩ := trimmed_spec hdigits hunit hnil
    dsimp only at h
    rw [← hvalue]
    generalize trimTail (255 - unit) (trimZeros digits) unit = r at *
    rw [parseUint_digits hne hall] at h
    split_ifs at h with hle
    · cases h
      obtain ⟨hm, hlen, hhead, hm0⟩ := u128_mantissa hpos hle
      rw [ofMantissa_value ⟨by omega, by omega, hhead, hm0⟩, hm]
    · obtain ⟨byte, hbyte, h⟩ := bind_eq_ok h
      obtain ⟨_, _, h⟩ := bind_eq_ok h
      cases h
      obtain ⟨hm, hhead, hlen⟩ := fromDecimalB256_ok hbyte
      have hm0 : byte ≠ [] := by
        rintro rfl
        rw [beValue_nil] at hm
        omega
      rw [ofMantissa_value ⟨by omega, hlen, hhead, hm0⟩, hm]

/-- A number that some amount holds is read. -/
theorem fromDecimalDigits_isOk {negative : Bool} {digits : List Char} {unit : ℕ} {m u : ℕ}
    (hdigits : AllDigits digits) (hunit : unit ≤ 255) (hm : m < 256 ^ 127) (hu : u ≤ 255)
    (heq : decValue digits * 10 ^ unit = m * 10 ^ u) :
    ∃ a, fromDecimalDigits negative digits unit = .ok a := by
  rw [fromDecimalDigits]
  split_ifs with hnil
  · exact ⟨zero, rfl⟩
  obtain ⟨hvalue, hr, hall, hne, hpos⟩ := trimmed_spec hdigits hunit hnil
  have hstops := trimTail_stops (255 - unit) (trimZeros digits) unit
  dsimp only
  generalize trimTail (255 - unit) (trimZeros digits) unit = r at *
  rw [heq] at hvalue
  -- the unit after trimming is at least that of the amount, so the digits are no more than `m`
  have hge : u ≤ r.2 := by
    by_contra hlt
    rcases hstops with hlast | hlast
    · refine decValue_mod_ten hall hpos hlast ?_
      obtain ⟨k, hk⟩ : ∃ k, u = r.2 + (k + 1) := ⟨u - r.2 - 1, by omega⟩
      rw [hk, pow_add, pow_succ, mul_comm (10 ^ r.2), ← mul_assoc] at hvalue
      rw [Nat.eq_of_mul_eq_mul_right (by positivity) hvalue, ← mul_assoc]
      exact Nat.mul_mod_left _ _
    · omega
  have hle : decValue r.1 ≤ m := by
    obtain ⟨k, hk⟩ : ∃ k, r.2 = u + k := ⟨r.2 - u, by omega⟩
    rw [hk, pow_add, mul_comm (10 ^ u), ← mul_assoc] at hvalue
    rw [← Nat.eq_of_mul_eq_mul_right (by positivity) hvalue]
    exact Nat.le_mul_of_pos_right _ (by positivity)
  rw [parseUint_digits hne hall]
  split_ifs
  · exact ⟨_, rfl⟩
  · obtain ⟨byte, hbyte⟩ := fromDecimalB256_isOk (hle.trans_lt hm)
    obtain ⟨-, -, hlen⟩ := fromDecimalB256_ok hbyte
    exact ⟨_, by dsimp only; rw [hbyte, ok_bind, ensure_of _ hlen]; rfl⟩

end Amount

/-! ## The grammar -/

/-- Nothing, a point and digits, or a colon and a unit, which may have a plus sign. -/
inductive LiteralTail where
  | whole
  | point (frac : List Char)
  | unit (plus : Bool) (digits : List Char)

/-- An amount as it is written: a sign, groups of digits with commas between them, and what
follows. -/
structure Literal where
  negative : Bool
  groups : List (List Char)
  tail : LiteralTail

open Literal

/-- The plus sign in front of a unit. -/
def plusText (plus : Bool) : List Char := if plus then ['+'] else []

/-- The text after the integer digits. -/
def LiteralTail.text : LiteralTail → List Char
  | whole => []
  | point frac => '.' :: frac
  | unit plus digits => ':' :: (plusText plus ++ digits)

namespace Literal

/-- The text of a literal. -/
def text (lit : Literal) : List Char :=
  Amount.signText lit.negative ++ [','].intercalate lit.groups ++ lit.tail.text

/-- The digits before the point or the colon. -/
def digits (lit : Literal) : List Char := lit.groups.flatten

/-- One group of digits, or several as `Grouped` wants them; some digits; and a unit that is a
byte. -/
structure Valid (lit : Literal) : Prop where
  grouped : (∃ group, lit.groups = [group] ∧ AllDigits group) ∨
    2 ≤ lit.groups.length ∧ Amount.Grouped lit.groups
  tail : match lit.tail with
    | .whole => lit.digits ≠ []
    | .point frac => AllDigits frac ∧ ¬ (lit.digits = [] ∧ frac = [])
    | .unit _ unit => lit.digits ≠ [] ∧ unit ≠ [] ∧ AllDigits unit ∧ decValue unit ≤ 255

/-- The number it stands for, as amounts are counted; without a unit, in mei. -/
def value (lit : Literal) : ℚ :=
  (if lit.negative then -1 else 1) * match lit.tail with
    | .whole => decValue lit.digits * 10 ^ 248
    | .point frac => (decValue lit.digits + decValue frac / 10 ^ frac.length) * 10 ^ 248
    | .unit _ unit => decValue lit.digits * 10 ^ decValue unit

theorem Valid.group_digits {lit : Literal} (h : lit.Valid) :
    ∀ group ∈ lit.groups, AllDigits group := by
  rcases h.grouped with ⟨group, hgroup, hall⟩ | ⟨-, hgrouped⟩
  · rw [hgroup]
    simpa using hall
  · exact hgrouped.digits

theorem Valid.all_digits {lit : Literal} (h : lit.Valid) : AllDigits lit.digits := by
  refine all_eq_true.mpr fun c hc => ?_
  obtain ⟨group, hgroup, hc⟩ := mem_flatten.mp hc
  exact (h.group_digits group hgroup).mem hc

end Literal

/-! ## Lists of groups -/

theorem mem_intercalate {α : Type} {sep c : α} : ∀ {groups : List (List α)},
    c ∈ [sep].intercalate groups → c = sep ∨ ∃ group ∈ groups, c ∈ group
  | [], h => by simp [intercalate] at h
  | [g], h => .inr ⟨g, by simp, by simpa [intercalate] using h⟩
  | g :: g' :: rest, h => by
    rw [intercalate_cons_cons, mem_append, mem_append] at h
    rcases h with (h | h) | h
    · exact .inr ⟨g, mem_cons_self, h⟩
    · exact .inl (mem_singleton.mp h)
    · rcases mem_intercalate h with rfl | ⟨group, hgroup, hc⟩
      · exact .inl rfl
      · exact .inr ⟨group, mem_cons_of_mem _ hgroup, hc⟩

theorem filter_intercalate {groups : List (List Char)} {p : Char → Bool} (hsep : p ',' = false)
    (h : ∀ group ∈ groups, ∀ c ∈ group, p c = true) :
    ([','].intercalate groups).filter p = groups.flatten := by
  match groups, h with
  | [], _ => rfl
  | [g], h =>
    simpa [intercalate] using h g (by simp)
  | g :: g' :: rest, h =>
    rw [intercalate_cons_cons, filter_append, filter_append,
      filter_intercalate hsep fun group hgroup => h group (mem_cons_of_mem _ hgroup),
      filter_eq_self.mpr (h g mem_cons_self)]
    simp [hsep]

theorem filter_ne_comma {ds : List Char} (hds : ',' ∉ ds) : ds.filter (· != ',') = ds := by
  refine filter_eq_self.mpr fun c hc => ?_
  rw [bne_iff_ne]
  rintro rfl
  exact hds hc

/-! ## The parser on a literal -/

namespace Amount

theorem splitSign_signText (negative : Bool) {digits : List Char}
    (h : negative = false → digits.head? ≠ some '-') :
    splitSign (signText negative ++ digits) = (negative, digits) := by
  cases negative with
  | true => rfl
  | false =>
    show splitSign digits = _
    match digits, h with
    | [], _ => rfl
    | c :: digits, h =>
      rw [splitSign]
      rintro _ ⟨⟩
      exact h rfl rfl

theorem head_ne_minus {digits : List Char} (h : AllDigits digits) (tail : List Char)
    (htail : tail.head? ≠ some '-') : (digits ++ tail).head? ≠ some '-' := by
  cases digits with
  | nil => exact htail
  | cons c digits =>
    intro hc
    cases hc
    revert h
    rw [allDigits_cons]
    rintro ⟨h, -⟩
    revert h
    decide

theorem inNumber_signText (negative : Bool) : ∀ c ∈ signText negative, inNumber c = true := by
  intro c hc
  cases negative with
  | true =>
    rw [mem_singleton.mp hc]
    rfl
  | false => exact absurd hc not_mem_nil

theorem signText_ne {negative : Bool} {d : Char} (hd : d ≠ '-') : d ∉ signText negative := by
  cases negative with
  | true => simpa [signText] using hd
  | false => exact not_mem_nil

end Amount

theorem LiteralTail.text_cases (tail : LiteralTail) :
    tail.text = [] ∨ ∃ c rest, tail.text = c :: rest ∧ inNumber c = false := by
  cases tail with
  | whole => exact .inl rfl
  | point frac => exact .inr ⟨'.', frac, rfl, rfl⟩
  | unit plus digits => exact .inr ⟨':', _, rfl, rfl⟩

namespace Literal

open Amount

variable {lit : Literal}

theorem Valid.notMem_tail (h : lit.Valid) {c : Char} (hdigit : c.isDigit = false)
    (hc : c ≠ '.' ∧ c ≠ ':' ∧ c ≠ '+') : c ∉ lit.tail.text := by
  have hnot : ∀ {ds : List Char}, AllDigits ds → c ∉ ds := fun hds hmem => hds.ne hmem hdigit rfl
  have htail := h.tail
  rcases hlit : lit.tail with _ | frac | ⟨plus, unit⟩ <;> rw [hlit] at htail
  · exact not_mem_nil
  · rw [LiteralTail.text, mem_cons, not_or]
    exact ⟨hc.1, hnot htail.1⟩
  · rw [LiteralTail.text, mem_cons, not_or, mem_append, not_or]
    refine ⟨hc.2.1, ?_, hnot htail.2.2.1⟩
    cases plus with
    | true => simpa [plusText] using hc.2.2
    | false => exact not_mem_nil

theorem Valid.notMem_groups (h : lit.Valid) {c : Char} (hdigit : c.isDigit = false) :
    ∀ group ∈ lit.groups, c ∉ group :=
  fun group hgroup hmem => (h.group_digits group hgroup).ne hmem hdigit rfl

theorem Valid.normalizeGrouping (h : lit.Valid) :
    normalizeGrouping lit.text = .ok (signText lit.negative ++ lit.digits ++ lit.tail.text) := by
  have htail : ',' ∉ lit.tail.text := h.notMem_tail (by decide) (by decide)
  have hsign : ',' ∉ signText lit.negative := signText_ne (by decide)
  have hgroups : ∀ group ∈ lit.groups, ',' ∉ group := h.notMem_groups (by decide)
  rw [Amount.normalizeGrouping]
  rcases h.grouped with ⟨group, hgroup, -⟩ | ⟨hlen, hgrouped⟩
  · -- one group: no comma at all
    have hgroup' : ',' ∉ group := hgroups group (by rw [hgroup]; exact mem_singleton_self _)
    have htext : lit.text = signText lit.negative ++ lit.digits ++ lit.tail.text := by
      rw [text, digits, hgroup]
      simp [intercalate]
    have hnot : ',' ∉ lit.text := by
      rw [htext, digits, hgroup]
      simp only [flatten_cons, flatten_nil, append_nil, mem_append, not_or]
      exact ⟨⟨hsign, hgroup'⟩, htail⟩
    rw [if_pos hnot, htext]
  · have hne : lit.groups ≠ [] := by
      intro hnil
      rw [hnil] at hlen
      simp at hlen
    have hsplit : ([','].intercalate lit.groups).splitOn ',' = lit.groups :=
      splitOn_intercalate ',' hgroups hne
    have hcomma : ¬ ',' ∉ lit.text := by
      intro hnot
      -- without a comma there would be one group
      have hone : ',' ∉ [','].intercalate lit.groups := by
        rw [text, mem_append, mem_append, not_or, not_or] at hnot
        exact hnot.1.2
      rw [splitOn_eq_singleton hone] at hsplit
      rw [← hsplit] at hlen
      simp at hlen
    have hnumber : ∀ c ∈ signText lit.negative ++ [','].intercalate lit.groups,
        inNumber c = true := by
      intro c hc
      rcases mem_append.mp hc with hc | hc
      · exact inNumber_signText _ c hc
      · rcases mem_intercalate hc with rfl | ⟨group, hgroup, hc⟩
        · rfl
        · exact inNumber_of_isDigit ((h.group_digits group hgroup).mem hc)
    have hstop : lit.tail.text.takeWhile inNumber = [] ∧
        lit.tail.text.dropWhile inNumber = lit.tail.text := by
      rcases lit.tail.text_cases with hnil | ⟨c, rest, hcons, hc⟩
      · rw [hnil]
        exact ⟨rfl, rfl⟩
      · rw [hcons, takeWhile_cons, dropWhile_cons, if_neg (by simp [hc]),
          if_neg (by simp [hc])]
        exact ⟨rfl, rfl⟩
    have htake : lit.text.takeWhile inNumber
        = signText lit.negative ++ [','].intercalate lit.groups := by
      rw [text, takeWhile_append_of_pos hnumber, hstop.1, append_nil]
    have hdrop : lit.text.dropWhile inNumber = lit.tail.text := by
      rw [text, dropWhile_append_of_pos hnumber, hstop.2]
    have hhead : ([','].intercalate lit.groups).head? ≠ some '-' := by
      intro hhead
      rcases mem_intercalate (mem_of_head? hhead) with hc | ⟨group, hgroup, hc⟩
      · revert hc
        decide
      · exact h.notMem_groups (by decide) group hgroup hc
    rw [if_neg hcomma]
    simp only [htake, hdrop, splitSign_signText _ fun _ => hhead, hsplit]
    rw [ensure_of _ htail, ok_bind, ensure_of _ ⟨hlen, hgrouped⟩, ok_bind, text,
      filter_append, filter_append]
    rw [filter_ne_comma hsign, filter_ne_comma htail,
      filter_intercalate rfl fun group hgroup c hc => ?_]
    · rfl
    · rw [bne_iff_ne]
      rintro rfl
      exact hgroups group hgroup hc

/-- What the parser does with a literal: it reads the digits at the unit that the tail says. -/
def parsed (lit : Literal) : Ret Amount :=
  match lit.tail with
  | .whole => fromDecimalDigits lit.negative lit.digits unitMei
  | .point frac => do
    let fracTrimmed := frac.rdropWhile (· == '0')
    ensure (fracTrimmed.length ≤ unitMei) (.fault "amount value invalid")
    fromDecimalDigits lit.negative (lit.digits ++ fracTrimmed) (unitMei - fracTrimmed.length)
  | .unit _ unit => fromDecimalDigits lit.negative lit.digits (decValue unit)

end Literal

/-! ## What is accepted -/

namespace Literal

open Amount

variable {lit : Literal}

theorem parseUint_plus {plus : Bool} {unit : List Char} {max : ℕ} (hne : unit ≠ [])
    (hall : AllDigits unit) (hmax : decValue unit ≤ max) :
    parseUint max (plusText plus ++ unit) = some (decValue unit) := by
  cases plus with
  | true =>
    show (if unit ≠ [] ∧ AllDigits unit ∧ decValue unit ≤ max then some (decValue unit) else none)
      = some (decValue unit)
    exact if_pos ⟨hne, hall, hmax⟩
  | false =>
    rw [plusText, if_neg Bool.false_ne_true, nil_append, parseUint_digits hne hall,
      if_pos hmax]

/-- **The parser on a literal**: it reads the digits at the unit that the tail says. -/
theorem Valid.fromStr {text : List Char} (h : lit.Valid) (htrim : trim text = lit.text) :
    fromStr text = lit.parsed := by
  have hdigits := h.all_digits
  have hnot : ∀ {c : Char}, c.isDigit = false → c ∉ lit.digits :=
    fun hc hmem => hdigits.ne hmem hc rfl
  rw [Amount.fromStr, htrim, h.normalizeGrouping, ok_bind, parsed]
  have htail := h.tail
  rcases hlit : lit.tail with _ | frac | ⟨plus, unit⟩ <;> rw [hlit] at htail <;> dsimp only
  · -- no point: all digits are the integer part
    have hcolon : ':' ∉ signText lit.negative ++ lit.digits ++ LiteralTail.text .whole := by
      rw [LiteralTail.text, append_nil, mem_append, not_or]
      exact ⟨signText_ne (by decide), hnot (by decide)⟩
    rw [if_neg hcolon, LiteralTail.text, append_nil, fromMei,
      splitSign_signText _ fun _ => by simpa using head_ne_minus hdigits [] (by simp)]
    dsimp only
    rw [splitOn_eq_singleton (hnot (by decide))]
    have hfrac : ([lit.digits].tail.headD []).rdropWhile (· == '0') = [] := rfl
    rw [ensure_of _ (by simp), ok_bind, ensure_of _ ⟨fun hnil => htail hnil.1, hdigits, rfl⟩,
      ok_bind, hfrac, length_nil, ensure_of _ (Nat.zero_le _), ok_bind, append_nil]
    rfl
  · -- a point: the zeros at the end of the fraction do not count
    have hfrac : ∀ {c : Char}, c.isDigit = false → c ∉ frac :=
      fun hc hmem => htail.1.ne hmem hc rfl
    have hcolon : ':' ∉ signText lit.negative ++ lit.digits ++ LiteralTail.text (.point frac) := by
      rw [LiteralTail.text, mem_append, mem_append, mem_cons, not_or, not_or, not_or]
      exact ⟨⟨signText_ne (by decide), hnot (by decide)⟩, by decide, hfrac (by decide)⟩
    rw [if_neg hcolon, LiteralTail.text, append_assoc, fromMei,
      splitSign_signText _ fun _ => head_ne_minus hdigits _ (by simp)]
    dsimp only
    rw [splitOn_append_cons_self_of_not_mem (hnot (by decide)),
      splitOn_eq_singleton (hfrac (by decide))]
    rw [ensure_of _ (by simp), ok_bind, ensure_of _ ⟨htail.2, hdigits, htail.1⟩, ok_bind]
    rfl
  · -- a unit
    have hcolon : ':' ∈ signText lit.negative ++ lit.digits ++ LiteralTail.text (.unit plus unit) :=
      mem_append_right _ mem_cons_self
    have hunit : ':' ∉ plusText plus ++ unit := by
      rw [mem_append, not_or]
      refine ⟨?_, fun hmem => htail.2.2.1.ne hmem (by decide) rfl⟩
      cases plus with
      | true => simp [plusText]
      | false => exact not_mem_nil
    have hbefore : ∀ c ∈ signText lit.negative ++ lit.digits, (c != ':') = true := by
      intro c hc
      rw [bne_iff_ne]
      rintro rfl
      rcases mem_append.mp hc with hc | hc
      · exact signText_ne (by decide) hc
      · exact hnot (by decide) hc
    rw [if_pos hcolon, LiteralTail.text, fromFin, takeWhile_append_of_pos hbefore,
      dropWhile_append_of_pos hbefore]
    have hdrop : (':' :: (plusText plus ++ unit)).dropWhile (· != ':')
        = ':' :: (plusText plus ++ unit) := rfl
    have htake : (':' :: (plusText plus ++ unit)).takeWhile (· != ':') = [] := rfl
    rw [hdrop, htake, append_nil]
    dsimp only
    rw [ensure_of _ hunit, ok_bind, parseUint_plus htail.2.1 htail.2.2.1 htail.2.2.2,
      splitSign_signText _ fun _ => by simpa using head_ne_minus hdigits [] (by simp)]
    dsimp only
    rw [ensure_of _ ⟨htail.1, hdigits⟩, ok_bind]

theorem cast_signed (negative : Bool) (n : ℕ) :
    (((if negative then -1 else 1) * (n : ℤ) : ℤ) : ℚ) =
      (if negative then -1 else 1) * (n : ℚ) := by
  cases negative <;> simp

/-- **A literal that is accepted gives its value.** -/
theorem Valid.value_of_parsed {a : Amount} (h : lit.Valid) (hok : lit.parsed = .ok a) :
    (a.value : ℚ) = lit.value := by
  have hdigits := h.all_digits
  have htail := h.tail
  rw [parsed] at hok
  rw [value]
  rcases hlit : lit.tail with _ | frac | ⟨plus, unit⟩ <;> rw [hlit] at htail hok <;>
    dsimp only at hok ⊢
  · rw [fromDecimalDigits_value hdigits (by decide) hok, cast_signed, unitMei, Nat.cast_mul,
      Nat.cast_pow, Nat.cast_ofNat]
  · obtain ⟨_, hlen, hok⟩ := bind_eq_ok hok
    have hlen := of_ensure hlen
    have hle : (frac.rdropWhile (· == '0')).length ≤ frac.length :=
      (rdropWhile_sublist _ frac).length_le
    have hall : AllDigits (lit.digits ++ frac.rdropWhile (· == '0')) :=
      allDigits_append.mpr ⟨hdigits, htail.1.sublist (rdropWhile_sublist _ frac)⟩
    rw [fromDecimalDigits_value hall (by rw [unitMei]; omega) hok, cast_signed, Nat.cast_mul,
      Nat.cast_pow, Nat.cast_ofNat]
    -- both sides times the power of ten of the fraction
    have hvalue := decValue_rdropWhile lit.digits frac
    rw [decValue_append] at hvalue
    generalize hn : decValue (lit.digits ++ frac.rdropWhile (· == '0')) = n at hvalue ⊢
    generalize (frac.rdropWhile (· == '0')).length = k at *
    have hq : (decValue lit.digits : ℚ) * 10 ^ frac.length + decValue frac
        = n * 10 ^ (frac.length - k) := by exact_mod_cast hvalue
    have hpow : (10 : ℚ) ^ (unitMei - k) * 10 ^ frac.length
        = 10 ^ (frac.length - k) * 10 ^ 248 := by
      rw [← pow_add, ← pow_add]
      congr 1
      rw [unitMei] at hlen ⊢
      omega
    congr 1
    have hne : (10 : ℚ) ^ frac.length ≠ 0 := by positivity
    rw [← mul_left_inj' hne, mul_assoc, hpow, ← mul_assoc, ← hq, mul_right_comm,
      add_mul (decValue lit.digits : ℚ), div_mul_cancel₀ _ hne]
  · rw [fromDecimalDigits_value hdigits htail.2.2.2 hok, cast_signed, Nat.cast_mul,
      Nat.cast_pow, Nat.cast_ofNat]

end Literal

/-! ## Every accepted text is a literal -/

namespace Amount

/-- The text of a number before normalisation, its groups, and what follows them. -/
structure Split (value v : List Char) (negative : Bool) (groups : List (List Char))
    (suffix : List Char) : Prop where
  value_eq : value = signText negative ++ [','].intercalate groups ++ suffix
  normal_eq : v = signText negative ++ groups.flatten ++ suffix
  grouped : (∃ group, groups = [group]) ∨ 2 ≤ groups.length ∧ Grouped groups
  number : ∀ c ∈ groups.flatten, inNumber c = true
  head : negative = false → groups.flatten.head? ≠ some '-'
  stops : suffix = [] ∨ ∃ c rest, suffix = c :: rest ∧ inNumber c = false

theorem splitSign_spec (number : List Char) :
    number = signText (splitSign number).1 ++ (splitSign number).2 ∧
      ((splitSign number).1 = false → (splitSign number).2.head? ≠ some '-') := by
  match number with
  | [] => exact ⟨rfl, fun _ => nofun⟩
  | c :: rest =>
    by_cases hc : c = '-'
    · subst hc
      exact ⟨rfl, nofun⟩
    · have hsplit : splitSign (c :: rest) = (false, c :: rest) := by
        rw [splitSign]
        rintro _ ⟨⟩
        exact hc rfl
      rw [hsplit]
      refine ⟨rfl, fun _ hhead => hc ?_⟩
      exact Option.some.inj hhead

theorem stops_dropWhile (value : List Char) : value.dropWhile inNumber = [] ∨
    ∃ c rest, value.dropWhile inNumber = c :: rest ∧ inNumber c = false := by
  cases hdrop : value.dropWhile inNumber with
  | nil => exact .inl rfl
  | cons c rest =>
    refine .inr ⟨c, rest, rfl, ?_⟩
    have h := head?_dropWhile_not inNumber value
    rw [hdrop] at h
    simpa using h

/-- A text that passes the comma check splits. -/
theorem split_of_normalizeGrouping {value v : List Char} (h : normalizeGrouping value = .ok v) :
    ∃ negative groups suffix, Split value v negative groups suffix := by
  obtain ⟨hsign, hhead⟩ := splitSign_spec (value.takeWhile inNumber)
  have hvalue : value = value.takeWhile inNumber ++ value.dropWhile inNumber :=
    takeWhile_append_dropWhile.symm
  have hnumber : ∀ c ∈ value.takeWhile inNumber, inNumber c = true :=
    fun c hc => mem_takeWhile_imp hc
  rw [normalizeGrouping] at h
  by_cases hcomma : ',' ∉ value
  · -- no comma: the number is one group
    rw [if_pos hcomma] at h
    cases h
    refine ⟨(splitSign (value.takeWhile inNumber)).1,
      [(splitSign (value.takeWhile inNumber)).2], _, ?_, ?_, .inl ⟨_, rfl⟩, ?_, ?_,
      stops_dropWhile value⟩
    · simp only [intercalate_singleton]
      rw [← hsign]
      exact hvalue
    · simp only [flatten_singleton]
      rw [← hsign]
      exact hvalue
    · intro c hc
      rw [flatten_singleton] at hc
      refine hnumber c ?_
      rw [hsign]
      exact mem_append_right _ hc
    · rw [flatten_singleton]
      exact hhead
  · rw [if_neg hcomma] at h
    obtain ⟨_, hsuffix, h⟩ := bind_eq_ok h
    obtain ⟨_, hgroups, h⟩ := bind_eq_ok h
    cases h
    obtain ⟨hlen, hgrouped⟩ := of_ensure hgroups
    have hsuffix := of_ensure hsuffix
    generalize hg : (splitSign (value.takeWhile inNumber)).2.splitOn ',' = groups at *
    have hjoin : [','].intercalate groups = (splitSign (value.takeWhile inNumber)).2 := by
      rw [← hg, intercalate_splitOn]
    have hdigits : ∀ group ∈ groups, AllDigits group := hgrouped.digits
    have hflat : ∀ c ∈ groups.flatten, c.isDigit = true := by
      intro c hc
      obtain ⟨group, hgroup, hc⟩ := mem_flatten.mp hc
      exact (hdigits group hgroup).mem hc
    have heq : value = signText (splitSign (value.takeWhile inNumber)).1
        ++ [','].intercalate groups ++ value.dropWhile inNumber := by
      rw [hjoin, ← hsign]
      exact hvalue
    refine ⟨_, groups, _, heq, ?_, .inr ⟨hlen, hgrouped⟩,
      fun c hc => inNumber_of_isDigit (hflat c hc), ?_, stops_dropWhile value⟩
    · conv_lhs => rw [heq]
      rw [filter_append, filter_append, filter_ne_comma (signText_ne (by decide)),
        filter_ne_comma hsuffix, filter_intercalate rfl fun group hgroup c hc => ?_]
      rw [bne_iff_ne]
      exact (hdigits group hgroup).ne hc (by decide)
    · intro _ hminus
      have := hflat _ (mem_of_head? hminus)
      revert this
      decide

theorem parseUint_eq_some {max n : ℕ} {text : List Char} (h : parseUint max text = some n) :
    ∃ plus ds, text = plusText plus ++ ds ∧ ds ≠ [] ∧ AllDigits ds ∧ decValue ds ≤ max := by
  rw [parseUint] at h
  by_cases hplus : text.head? = some '+'
  · simp only [if_pos hplus] at h
    split_ifs at h with hds
    refine ⟨true, text.tail, ?_, hds⟩
    cases text with
    | nil => cases hplus
    | cons c rest =>
      cases hplus
      rfl
  · simp only [if_neg hplus] at h
    split_ifs at h with hds
    exact ⟨false, text, rfl, hds⟩

end Amount

namespace Literal

open Amount

/-- **Every text that is accepted is a literal.** -/
theorem of_fromStr {text : List Char} {a : Amount} (h : Amount.fromStr text = .ok a) :
    ∃ lit : Literal, lit.Valid ∧ trim text = lit.text := by
  obtain ⟨v, hnorm, h⟩ := bind_eq_ok h
  obtain ⟨negative, groups, suffix, hsplit⟩ := split_of_normalizeGrouping hnorm
  have hgrouped : AllDigits groups.flatten →
      (∃ group, groups = [group] ∧ AllDigits group) ∨ 2 ≤ groups.length ∧ Grouped groups := by
    intro hall
    rcases hsplit.grouped with ⟨group, rfl⟩ | hgrouped
    · rw [flatten_singleton] at hall
      exact .inl ⟨group, rfl, hall⟩
    · exact .inr hgrouped
  have hother : ∀ {c : Char}, inNumber c = false → c ∉ groups.flatten := fun hc hmem =>
    Bool.false_ne_true (hc.symm.trans (hsplit.number _ hmem))
  have hcolon : ':' ∉ signText negative ++ groups.flatten := by
    rw [mem_append, not_or]
    exact ⟨signText_ne (by decide), hother rfl⟩
  have hpoint : '.' ∉ groups.flatten := hother rfl
  -- the sign is read off again, whatever follows the digits but a minus
  have hsign : ∀ tail : List Char, tail.head? ≠ some '-' →
      splitSign (signText negative ++ (groups.flatten ++ tail)) =
        (negative, groups.flatten ++ tail) := by
    intro tail htail
    refine splitSign_signText negative fun hneg => ?_
    cases hflat : groups.flatten with
    | nil => exact htail
    | cons c rest =>
      have := hsplit.head hneg
      rw [hflat] at this
      exact this
  by_cases hfin : ':' ∈ v
  · rw [if_pos hfin, fromFin] at h
    split at h
    · cases h
    next mark unit hdrop =>
    obtain ⟨_, -, hread⟩ := bind_eq_ok h
    split at hread
    · cases hread
    next n hparse =>
    obtain ⟨plus, ds, rfl, hds⟩ := parseUint_eq_some hparse
    obtain ⟨_, hdigits, -⟩ := bind_eq_ok hread
    have hcheck : (splitSign (v.takeWhile (· != ':'))).2 ≠ [] ∧
        AllDigits (splitSign (v.takeWhile (· != ':'))).2 := of_ensure hdigits
    obtain ⟨hne, hall⟩ := hcheck
    have hbefore : ∀ c ∈ signText negative ++ groups.flatten, (c != ':') = true := by
      intro c hc
      rw [bne_iff_ne]
      rintro rfl
      exact hcolon hc
    rw [hsplit.normal_eq, takeWhile_append_of_pos hbefore] at hne hall
    rw [hsplit.normal_eq, dropWhile_append_of_pos hbefore] at hdrop
    rcases hsplit.stops with rfl | ⟨c, rest, rfl, hc⟩
    · cases hdrop
    rcases eq_of_not_inNumber hc with rfl | rfl
    · -- a point before the colon is among the digits
      have htake : ('.' :: rest).takeWhile (· != ':') = '.' :: rest.takeWhile (· != ':') := rfl
      rw [htake, append_assoc, hsign _ (by simp)] at hall
      have hmem : '.' ∈ groups.flatten ++ '.' :: rest.takeWhile (· != ':') := by simp
      exact absurd (hall.mem hmem) (by decide)
    · have htake : (':' :: rest).takeWhile (· != ':') = [] := rfl
      rw [htake, append_assoc, hsign _ (by simp), append_nil] at hne hall
      have hrest : ':' :: rest = mark :: (plusText plus ++ ds) := hdrop
      cases hrest
      refine ⟨⟨negative, groups, .unit plus ds⟩, ⟨hgrouped hall, hne, hds⟩, ?_⟩
      rw [hsplit.value_eq]
      rfl
  · rw [if_neg hfin, fromMei, hsplit.normal_eq] at h
    rcases hsplit.stops with rfl | ⟨c, rest, rfl, hc⟩
    · rw [append_assoc, hsign [] (by simp)] at h
      dsimp only at h
      rw [append_nil, splitOn_eq_singleton hpoint] at h
      obtain ⟨_, -, h⟩ := bind_eq_ok h
      obtain ⟨_, hcheck, -⟩ := bind_eq_ok h
      obtain ⟨hne, hall, -⟩ := of_ensure hcheck
      refine ⟨⟨negative, groups, .whole⟩, ⟨hgrouped hall, fun hnil => hne ⟨hnil, rfl⟩⟩, ?_⟩
      rw [hsplit.value_eq]
      rfl
    · rcases eq_of_not_inNumber hc with rfl | rfl
      · rw [append_assoc, hsign _ (by simp)] at h
        dsimp only at h
        rw [splitOn_append_cons_self_of_not_mem hpoint] at h
        obtain ⟨_, hlen, h⟩ := bind_eq_ok h
        obtain ⟨_, hcheck, -⟩ := bind_eq_ok h
        -- the digits after the point have no other point
        obtain ⟨frac, hfrac⟩ : ∃ frac, rest.splitOn '.' = [frac] := by
          have hlen := of_ensure hlen
          refine length_eq_one_iff.mp (le_antisymm ?_ ?_)
          · simpa using hlen
          · exact length_pos_of_ne_nil (splitOn_ne_nil _ _)
        rw [hfrac] at hcheck
        obtain ⟨hne, hall, hallf⟩ := of_ensure hcheck
        have hrest : rest = frac := by
          have h := @List.intercalate_splitOn _ rest _ _ '.'
          rw [hfrac, intercalate_singleton] at h
          exact h.symm
        subst hrest
        refine ⟨⟨negative, groups, .point rest⟩, ⟨hgrouped hall, hallf, hne⟩, ?_⟩
        rw [hsplit.value_eq]
        rfl
      · refine absurd ?_ hfin
        rw [hsplit.normal_eq]
        exact mem_append_right _ mem_cons_self

end Literal

/-! ## The renderings are literals -/

theorem trim_eq_self {text : List Char} (h : ∀ c ∈ text, isWhitespace c = false) :
    trim text = text := by
  have hdrop : text.dropWhile isWhitespace = text := by
    rw [dropWhile_eq_self_iff]
    intro hl
    rw [h _ (getElem_mem hl)]
    exact Bool.false_ne_true
  rw [trim, hdrop, rdropWhile_eq_self_iff]
  intro hl
  rw [h _ (getLast_mem hl)]
  exact Bool.false_ne_true

theorem isWhitespace_of_isDigit {c : Char} (h : c.isDigit = true) : isWhitespace c = false := by
  rw [Char.isDigit, Bool.and_eq_true, decide_eq_true_iff, decide_eq_true_iff] at h
  have hlow : 48 ≤ c.toNat := h.1
  have hhigh : c.toNat ≤ 57 := h.2
  simp only [isWhitespace, Bool.or_eq_false_iff, Bool.and_eq_false_iff, decide_eq_false_iff_not,
    beq_eq_false_iff_ne]
  omega

namespace Literal

open Amount

variable {lit : Literal}

theorem Valid.trim_text (h : lit.Valid) : trim lit.text = lit.text := by
  refine trim_eq_self fun c hc => ?_
  have hnot : ∀ {ds : List Char}, AllDigits ds → c ∈ ds → isWhitespace c = false :=
    fun hds hmem => isWhitespace_of_isDigit (hds.mem hmem)
  rcases mem_append.mp hc with hc | hc
  · rcases mem_append.mp hc with hc | hc
    · cases hneg : lit.negative with
      | true =>
        rw [hneg] at hc
        rw [mem_singleton.mp hc]
        rfl
      | false =>
        rw [hneg] at hc
        exact absurd hc not_mem_nil
    · rcases mem_intercalate hc with rfl | ⟨group, hgroup, hc⟩
      · rfl
      · exact hnot (h.group_digits group hgroup) hc
  · have htail := h.tail
    rcases hlit : lit.tail with _ | frac | ⟨plus, unit⟩ <;> rw [hlit] at htail hc
    · exact absurd hc not_mem_nil
    · rcases mem_cons.mp hc with rfl | hc
      · rfl
      · exact hnot htail.1 hc
    · rcases mem_cons.mp hc with rfl | hc
      · rfl
      rcases mem_append.mp hc with hc | hc
      · cases plus with
        | true =>
          rw [mem_singleton.mp hc]
          rfl
        | false => exact absurd hc not_mem_nil
      · exact hnot htail.2.2.1 hc

end Literal

namespace Amount

theorem value_eq_signed (a : Amount) :
    a.value = (if a.isNegative then -1 else 1) * (beValue a.byte * 10 ^ a.unit : ℕ) := by
  cases hneg : a.isNegative with
  | true =>
    rw [value_of_isNegative hneg, if_pos rfl, neg_one_mul]
    rfl
  | false =>
    rw [value_of_not_isNegative hneg, if_neg Bool.false_ne_true, one_mul]
    rfl

theorem fromStr_render {a : Amount} {lit : Literal} {digits : List Char} {unit : ℕ}
    (hlit : lit.Valid) (hparsed : lit.parsed = fromDecimalDigits a.isNegative digits unit)
    (hdigits : AllDigits digits) (hunit : unit ≤ 255)
    (heq : decValue digits * 10 ^ unit = beValue a.byte * 10 ^ a.unit) :
    ∃ b, fromStr lit.text = .ok b ∧ b.value = a.value := by
  have hm : beValue a.byte < 256 ^ 127 :=
    (beValue_lt a.byte).trans_le (Nat.pow_le_pow_right (by norm_num) a.byte_le)
  obtain ⟨b, hb⟩ := @fromDecimalDigits_isOk a.isNegative _ _ _ a.unit hdigits hunit hm
    (by have := a.unit_lt; omega) heq
  refine ⟨b, ?_, ?_⟩
  · rw [hlit.fromStr hlit.trim_text, hparsed, hb]
  · rw [fromDecimalDigits_value hdigits hunit hb, heq, ← value_eq_signed]

theorem fromStr_whole {a : Amount} {digits : List Char} (hdigits : AllDigits digits)
    (hne : digits ≠ []) (heq : decValue digits * 10 ^ unitMei = beValue a.byte * 10 ^ a.unit) :
    ∃ b, fromStr (signText a.isNegative ++ digits) = .ok b ∧ b.value = a.value := by
  have hlit : Literal.Valid ⟨a.isNegative, [digits], .whole⟩ := by
    refine ⟨.inl ⟨_, rfl, hdigits⟩, ?_⟩
    show flatten _ ≠ []
    rwa [flatten_singleton]
  have htext : signText a.isNegative ++ digits = text ⟨a.isNegative, [digits], .whole⟩ := by
    rw [text, intercalate_singleton]
    exact (append_nil _).symm
  rw [htext]
  refine fromStr_render hlit ?_ hdigits (by decide : unitMei ≤ 255) heq
  rw [Literal.parsed, Literal.digits, flatten_singleton]

/-- **The rendering with a unit is read back.** -/
theorem fromStr_toFinString (a : Amount) :
    ∃ b, fromStr a.toFinString = .ok b ∧ b.value = a.value := by
  rw [toFinString]
  split_ifs with hz
  · refine ⟨zero, rfl, ?_⟩
    rw [value_of_isZero hz, zero_value]
  have hwrites := mantissaString_writes a (by simpa using hz)
  obtain ⟨ds, hds, hunit⟩ := writeDigits_writes [] (a.unit_lt.trans (by norm_num : 256 < 10 ^ 3))
    (by norm_num)
  rw [append_nil] at hds
  have hlt := a.unit_lt
  have hlit : Literal.Valid ⟨a.isNegative, [mantissaString a.byte], .unit false ds⟩ := by
    refine ⟨.inl ⟨_, rfl, hwrites.digits⟩, ?_, hunit.ne_nil, hunit.digits, ?_⟩
    · rw [digits, flatten_singleton]
      exact hwrites.ne_nil
    · rw [hunit.value]
      omega
  have htext : signText a.isNegative ++ mantissaString a.byte ++ ':' :: writeDigits 3 a.unit []
      = text ⟨a.isNegative, [mantissaString a.byte], .unit false ds⟩ := by
    rw [hds, text, intercalate_singleton]
    rfl
  rw [htext]
  refine @fromStr_render a _ (mantissaString a.byte) a.unit hlit ?_ hwrites.digits (by omega)
    (by rw [hwrites.value])
  rw [parsed, digits, flatten_singleton]
  dsimp only
  rw [hunit.value]

theorem decValue_replicate (n : ℕ) : decValue (replicate n '0') = 0 := by
  induction n with
  | zero => rfl
  | succ n ih =>
    rw [replicate_succ, decValue_cons, ih]
    simp

theorem allDigits_replicate (n : ℕ) : AllDigits (replicate n '0') :=
  all_eq_true.mpr fun c hc => by
    rw [eq_of_mem_replicate hc]
    rfl

theorem rdropWhile_point (pre w : List Char) :
    (pre ++ '.' :: w).rdropWhile (· == '0') = pre ++ '.' :: w.rdropWhile (· == '0') := by
  induction w using reverseRecOn with
  | nil => exact rdropWhile_concat_neg _ pre '.' (by decide)
  | append_singleton w c ih =>
    rw [← cons_append, ← append_assoc]
    by_cases hc : (c == '0') = true
    · rw [rdropWhile_concat_pos (· == '0') _ c hc, ih,
        rdropWhile_concat_pos (· == '0') w c hc]
    · rw [rdropWhile_concat_neg (· == '0') _ c hc,
        rdropWhile_concat_neg (· == '0') w c hc]
      simp

theorem point_split {digits : List Char} {m places : ℕ} (h : Writes digits m) :
    ∃ pre w, (if digits.length ≤ places then
        '0' :: '.' :: (replicate (places - digits.length) '0' ++ digits)
        else digits.take (digits.length - places) ++ '.' :: digits.drop (digits.length - places))
          = pre ++ '.' :: w ∧ w.length = places ∧ pre ≠ [] ∧ AllDigits (pre ++ w) ∧
        decValue (pre ++ w) = m := by
  split_ifs with hlen
  · refine ⟨['0'], replicate (places - digits.length) '0' ++ digits, rfl, ?_,
      cons_ne_nil _ _, ?_, ?_⟩
    · rw [length_append, length_replicate]
      omega
    · exact allDigits_append.mpr ⟨rfl, allDigits_append.mpr ⟨allDigits_replicate _, h.digits⟩⟩
    · rw [decValue_append, decValue_append, decValue_replicate, h.value]
      simp [decValue]
  · refine ⟨_, _, rfl, ?_, ?_, ?_, ?_⟩
    · rw [length_drop]
      omega
    · intro hnil
      have := congrArg length hnil
      rw [length_take, length_nil] at this
      omega
    · rw [take_append_drop]
      exact h.digits
    · rw [take_append_drop]
      exact h.value

/-- **The rendering in mei is read back.** -/
theorem fromStr_toUnitDecimalString (a : Amount) :
    ∃ b, fromStr (a.toUnitDecimalString unitMei) = .ok b ∧ b.value = a.value := by
  rw [toUnitDecimalString]
  split_ifs with hz
  · refine ⟨zero, rfl, ?_⟩
    rw [value_of_isZero hz, zero_value]
  have hwrites := mantissaString_writes a (by simpa using hz)
  rw [unitDecimalDigits]
  split_ifs with hunit
  · -- no point: zeros are written up to the unit
    have hall : AllDigits (mantissaString a.byte ++ replicate (a.unit - unitMei) '0') :=
      allDigits_append.mpr ⟨hwrites.digits, allDigits_replicate _⟩
    refine fromStr_whole hall (append_ne_nil_of_left_ne_nil hwrites.ne_nil _) ?_
    rw [decValue_append, decValue_replicate, hwrites.value, length_replicate, add_zero,
      mul_assoc, ← pow_add]
    congr 2
    omega
  · obtain ⟨pre, w, hpoint, hlen, hpre, hall, hvalue⟩ :=
      @point_split _ _ (unitMei - a.unit) hwrites
    dsimp only
    rw [hpoint, rdropWhile_point]
    obtain ⟨hallpre, hallw⟩ := allDigits_append.mp hall
    have hsub : (w.rdropWhile (· == '0')).length ≤ w.length := (rdropWhile_sublist _ w).length_le
    have hallw' : AllDigits (w.rdropWhile (· == '0')) :=
      hallw.sublist (rdropWhile_sublist _ w)
    have htens := decValue_rdropWhile pre w
    have hidem := rdropWhile_idempotent (· == '0') w
    generalize w.rdropWhile (· == '0') = w' at *
    have heq : decValue (pre ++ w') * 10 ^ (unitMei - w'.length)
        = beValue a.byte * 10 ^ a.unit := by
      rw [← hvalue, htens, mul_assoc, ← pow_add]
      congr 2
      omega
    by_cases hnil : w' = []
    · -- nothing is left after the point
      subst hnil
      have hlast : (pre ++ ['.']).getLast? = some '.' := getLast?_concat
      rw [if_pos hlast, dropLast_concat]
      rw [append_nil] at heq
      exact fromStr_whole hallpre hpre heq
    · have hlast : ¬ (pre ++ '.' :: w').getLast? = some '.' := by
        intro hlast
        have hne : '.' :: w' ≠ [] := cons_ne_nil _ _
        rw [getLast?_append_of_ne_nil _ hne, getLast?_cons_of_ne_nil hnil] at hlast
        exact hallw'.ne (mem_of_getLast? hlast) (by decide) rfl
      rw [if_neg hlast]
      have hlit : Literal.Valid ⟨a.isNegative, [pre], .point w'⟩ :=
        ⟨.inl ⟨_, rfl, hallpre⟩, hallw', fun h => hnil h.2⟩
      have htext : signText a.isNegative ++ (pre ++ '.' :: w')
          = text ⟨a.isNegative, [pre], .point w'⟩ := by
        rw [text, intercalate_singleton, append_assoc]
        rfl
      rw [htext]
      have hle : w'.length ≤ unitMei := by omega
      refine fromStr_render hlit ?_ (allDigits_append.mpr ⟨hallpre, hallw'⟩)
        (by rw [unitMei]; omega) heq
      rw [parsed, digits, flatten_singleton]
      dsimp only
      rw [hidem, ensure_of _ hle, ok_bind]

end Amount

/-- **Texts mean amounts.** Both renderings of an amount are read back with the same value. Every
accepted text is, without the whitespace around it, a literal, and the amount has the value of
each literal it is. -/
theorem amount_text_round_trip (a : Amount) :
    (∃ b, Amount.fromStr a.toFinString = .ok b ∧ b.value = a.value) ∧
    (∃ b, Amount.fromStr (a.toUnitDecimalString Amount.unitMei) = .ok b ∧ b.value = a.value) ∧
    ∀ (text : List Char) (b : Amount), Amount.fromStr text = .ok b →
      (∃ lit : Literal, lit.Valid ∧ trim text = lit.text) ∧
      ∀ lit : Literal, lit.Valid → trim text = lit.text → (b.value : ℚ) = lit.value := by
  refine ⟨a.fromStr_toFinString, a.fromStr_toUnitDecimalString, fun text b h => ?_⟩
  refine ⟨of_fromStr h, fun lit hlit htext => ?_⟩
  rw [hlit.fromStr htext] at h
  exact hlit.value_of_parsed h

end Hacash
