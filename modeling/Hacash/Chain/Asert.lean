import Hacash.Base.Error

/-!
# The ASERT difficulty rule (`mint::consensus::difficulty`)

The rule moves the target of an anchor by a power of two of the time that the chain is ahead or
behind. **Key results**: `target_asert_law` and `compact_codec`.
-/

namespace Hacash

open Lib

/-! ## Compact targets -/

/-- `u32_to_biguint`: as many of the 24 bits as there is room for, after `lzero` zeros. -/
def u32ToBiguint (num : ℕ) : ℕ :=
  if num = 0 then 0
  else
    let lzero := 255 - num / 2 ^ 24
    let keep := min (256 - lzero) 24
    num % 2 ^ 24 / 2 ^ (24 - keep) * 2 ^ (256 - lzero - keep)

/-- The first 24 bits of a number, with ones after its last bit. -/
def headBits (n : ℕ) : ℕ :=
  if 23 ≤ n.log2 then n / 2 ^ (n.log2 - 23) else (n + 1) * 2 ^ (23 - n.log2) - 1

/-- `biguint_to_u32`: what does not fit in 256 bits is all ones (`biguint_to_hash`). -/
def biguintToU32 (big : ℕ) : ℕ :=
  let hash := min big (2 ^ 256 - 1)
  if hash = 0 then 0
  else
    let lzero := 255 - hash.log2
    (255 - lzero) * 2 ^ 24 + headBits hash

structure DifficultyTarget where
  num : ℕ
  /-- the number of `u32_to_hash(num)` -/
  hash : ℕ
  big : ℕ

namespace DifficultyTarget

def fromBig (big : ℕ) : DifficultyTarget :=
  let num := biguintToU32 big
  ⟨num, u32ToBiguint num, big⟩

def fromNum (num : ℕ) : DifficultyTarget := fromBig (u32ToBiguint num)

end DifficultyTarget

theorem headBits_bounds {n : ℕ} (hn : n ≠ 0) : 2 ^ 23 ≤ headBits n ∧ headBits n < 2 ^ 24 := by
  have hle := Nat.log2_self_le hn
  have hlt := Nat.lt_log2_self (n := n)
  rw [headBits]
  split_ifs with h
  · obtain ⟨k, hk⟩ := Nat.exists_eq_add_of_le h
    rw [hk] at hle hlt ⊢
    rw [Nat.add_sub_cancel_left]
    constructor
    · rw [Nat.le_div_iff_mul_le (by positivity), ← pow_add]
      exact hle
    · rw [Nat.div_lt_iff_lt_mul (by positivity), ← pow_add]
      exact lt_of_lt_of_eq hlt (by ring)
  · obtain ⟨k, hk⟩ := Nat.exists_eq_add_of_le (Nat.le_of_not_le h)
    have hsub : 23 - n.log2 = k := by omega
    have hone : 1 ≤ 2 ^ k := Nat.one_le_two_pow
    rw [hsub]
    constructor
    · have h23 : 2 ^ 23 = 2 ^ n.log2 * 2 ^ k := by rw [← pow_add, ← hk]
      have := Nat.mul_le_mul_right (2 ^ k) hle
      rw [add_mul, one_mul]
      omega
    · have h24 : 2 ^ 24 = 2 ^ (n.log2 + 1) * 2 ^ k := by
        rw [← pow_add]
        congr 1
        omega
      have := Nat.mul_le_mul_right (2 ^ k) (Nat.succ_le_of_lt hlt)
      rw [Nat.succ_eq_add_one] at this
      omega

theorem headBits_mono {n m : ℕ} (h : n ≤ m) (hlog : n.log2 = m.log2) : headBits n ≤ headBits m := by
  rw [headBits, headBits, hlog]
  split_ifs
  · exact Nat.div_le_div_right h
  · exact Nat.sub_le_sub_right (Nat.mul_le_mul_right _ (Nat.succ_le_succ h)) 1

theorem log2_le_255 {n : ℕ} (hn : n ≠ 0) (hlt : n < 2 ^ 256) : n.log2 ≤ 255 :=
  Nat.le_of_lt_succ ((Nat.log2_lt hn).mpr hlt)

theorem biguintToU32_eq {n : ℕ} (hn : n ≠ 0) (hlt : n < 2 ^ 256) :
    biguintToU32 n = n.log2 * 2 ^ 24 + headBits n := by
  have hmin : min n (2 ^ 256 - 1) = n := Nat.min_eq_left (Nat.le_sub_one_of_lt hlt)
  have hlog := log2_le_255 hn hlt
  rw [biguintToU32]
  dsimp only
  rw [hmin, if_neg hn, Nat.sub_sub_self hlog]

theorem biguintToU32_mono {n m : ℕ} (h : n ≤ m) (hm : m < 2 ^ 256) :
    biguintToU32 n ≤ biguintToU32 m := by
  by_cases hn : n = 0
  · subst hn
    exact Nat.zero_le _
  have hm0 : m ≠ 0 := fun h0 => hn (Nat.le_zero.mp (h0 ▸ h))
  rw [biguintToU32_eq hn (lt_of_le_of_lt h hm), biguintToU32_eq hm0 hm]
  have hlog : n.log2 ≤ m.log2 := by
    rw [Nat.le_log2 hm0]
    exact (Nat.log2_self_le hn).trans h
  rcases hlog.eq_or_lt with hlog | hlog
  · rw [hlog]
    exact Nat.add_le_add_left (headBits_mono h hlog) _
  · have := (headBits_bounds hn).2
    have := Nat.mul_le_mul_right (2 ^ 24) (Nat.succ_le_of_lt hlog)
    rw [Nat.succ_mul] at this
    omega

/-- The compact form keeps the first 24 bits. -/
theorem u32ToBiguint_biguintToU32 {n : ℕ} (hn : n ≠ 0) (hlt : n < 2 ^ 256) :
    u32ToBiguint (biguintToU32 n) =
      if 23 ≤ n.log2 then n / 2 ^ (n.log2 - 23) * 2 ^ (n.log2 - 23) else n := by
  obtain ⟨hge, hbits⟩ := headBits_bounds hn
  have hlog := log2_le_255 hn hlt
  have hnum := biguintToU32_eq hn hlt
  have hne : biguintToU32 n ≠ 0 := by
    rw [hnum]
    omega
  have hdiv : biguintToU32 n / 2 ^ 24 = n.log2 := by
    rw [hnum, Nat.mul_comm, Nat.mul_add_div (by positivity), Nat.div_eq_of_lt hbits, Nat.add_zero]
  have hmod : biguintToU32 n % 2 ^ 24 = headBits n := by
    rw [hnum, Nat.mul_comm, Nat.mul_add_mod, Nat.mod_eq_of_lt hbits]
  rw [u32ToBiguint, if_neg hne, hdiv, hmod]
  have hroom : 256 - (255 - n.log2) = n.log2 + 1 := by omega
  dsimp only
  rw [hroom]
  split_ifs with h
  · have hkeep : min (n.log2 + 1) 24 = 24 := by omega
    have hrest : n.log2 + 1 - 24 = n.log2 - 23 := by omega
    rw [hkeep, hrest, Nat.sub_self, pow_zero, Nat.div_one, headBits, if_pos h]
  · have hkeep : min (n.log2 + 1) 24 = n.log2 + 1 := by omega
    have hrest : 24 - (n.log2 + 1) = 23 - n.log2 := by omega
    have hvalue : headBits n / 2 ^ (23 - n.log2) = n := by
      have hpos : 0 < 2 ^ (23 - n.log2) := by positivity
      rw [headBits, if_neg h]
      refine Nat.div_eq_of_lt_le ?_ ?_
      · rw [add_mul, one_mul]
        omega
      · have : 0 < (n + 1) * 2 ^ (23 - n.log2) := by positivity
        omega
    rw [hkeep, hrest, hvalue, Nat.sub_self, pow_zero, Nat.mul_one]

/-- The expansion of a compact form: the number rounded down, with the same compact form. -/
structure RoundedDown (n e : ℕ) : Prop where
  le : e ≤ n
  /-- less than one part in `2 ^ 23` is lost -/
  close : (n - e) * 2 ^ 23 < n
  log2_eq : e.log2 = n.log2
  headBits_eq : headBits e = headBits n

theorem roundedDown {n : ℕ} (hn : n ≠ 0) (hlt : n < 2 ^ 256) :
    RoundedDown n (u32ToBiguint (biguintToU32 n)) := by
  have hexpand := u32ToBiguint_biguintToU32 hn hlt
  by_cases h : 23 ≤ n.log2
  · rw [if_pos h] at hexpand
    obtain ⟨k, hk⟩ := Nat.exists_eq_add_of_le h
    obtain ⟨hbits, -⟩ := headBits_bounds hn
    rw [headBits, if_pos h, hk, Nat.add_sub_cancel_left] at hbits
    rw [hk, Nat.add_sub_cancel_left] at hexpand
    have hpos : 0 < 2 ^ k := by positivity
    have hle := Nat.div_mul_le_self n (2 ^ k)
    have hlow := Nat.log2_self_le hn
    rw [hk, pow_add] at hlow
    have hlog : (n / 2 ^ k * 2 ^ k).log2 = n.log2 := by
      have hge : 2 ^ n.log2 ≤ n / 2 ^ k * 2 ^ k := by
        rw [hk, pow_add]
        exact Nat.mul_le_mul_right _ hbits
      have hne : n / 2 ^ k * 2 ^ k ≠ 0 := (lt_of_lt_of_le (by positivity) hge).ne'
      exact (Nat.log2_eq_iff hne).mpr ⟨hge, lt_of_le_of_lt hle Nat.lt_log2_self⟩
    rw [hexpand]
    refine ⟨hle, ?_, hlog, ?_⟩
    · have hmod : n - n / 2 ^ k * 2 ^ k = n % 2 ^ k := by
        have := Nat.div_add_mod' n (2 ^ k)
        omega
      rw [hmod]
      calc n % 2 ^ k * 2 ^ 23 < 2 ^ k * 2 ^ 23 :=
            Nat.mul_lt_mul_of_pos_right (Nat.mod_lt n hpos) (by positivity)
        _ = 2 ^ 23 * 2 ^ k := Nat.mul_comm ..
        _ ≤ n := hlow
    · rw [headBits, headBits, hlog, if_pos h, if_pos h, hk, Nat.add_sub_cancel_left,
        Nat.mul_div_cancel _ hpos]
  · rw [if_neg h] at hexpand
    rw [hexpand]
    exact ⟨le_rfl, by omega, rfl, rfl⟩

/-- The compact form is one of its own expansion. -/
theorem biguintToU32_expand {n : ℕ} (hlt : n < 2 ^ 256) :
    biguintToU32 (u32ToBiguint (biguintToU32 n)) = biguintToU32 n := by
  by_cases hn : n = 0
  · subst hn
    rfl
  · have hr := roundedDown hn hlt
    have he : u32ToBiguint (biguintToU32 n) ≠ 0 := by
      have := hr.close
      intro h0
      rw [h0] at this
      omega
    rw [biguintToU32_eq he (lt_of_le_of_lt hr.le hlt), hr.log2_eq, hr.headBits_eq,
      biguintToU32_eq hn hlt]

theorem expand_le {n : ℕ} (hlt : n < 2 ^ 256) : u32ToBiguint (biguintToU32 n) ≤ n := by
  by_cases hn : n = 0
  · subst hn
    rfl
  · exact (roundedDown hn hlt).le

/-! ## Hashes -/

/-- `u32_to_hash`. -/
def u32ToHash (num : ℕ) : List UInt8 := beBytes 32 (u32ToBiguint num)

/-- `hash_to_u32`. -/
def hashToU32 (hx : List UInt8) : ℕ := biguintToU32 (beValue hx)

/-- `hash_bigger_than`: the first byte that differs decides. -/
def hashBiggerThan : List UInt8 → List UInt8 → Bool
  | x :: a, y :: b => if x > y then true else if x < y then false else hashBiggerThan a b
  | _, _ => false

theorem hashBiggerThan_iff {a b : List UInt8} (hlen : a.length = b.length) :
    hashBiggerThan a b = true ↔ beValue b < beValue a := by
  rw [← lt_iff_beValue_lt hlen.symm]
  induction a generalizing b with
  | nil =>
    cases b with
    | nil => simp [hashBiggerThan]
    | cons y b => cases hlen
  | cons x a ih =>
    cases b with
    | nil => cases hlen
    | cons y b =>
      rw [hashBiggerThan, List.cons_lt_cons_iff, ← ih (Nat.succ.inj hlen)]
      by_cases hgt : y < x
      · simp [hgt]
      · by_cases hlt : x < y
        · have hne : y ≠ x := by
            rintro rfl
            exact hgt hlt
          simp [hgt, hlt, hne]
        · have heq : y = x := UInt8.le_antisymm (UInt8.not_lt.mp hlt) (UInt8.not_lt.mp hgt)
          simp [heq]

theorem beValue_u32ToHash {n : ℕ} (hlt : n < 2 ^ 256) :
    beValue (u32ToHash (biguintToU32 n)) = u32ToBiguint (biguintToU32 n) :=
  beValue_beBytes (lt_of_le_of_lt (expand_le hlt) hlt)

/-- **The compact difficulty codec.** The compact form is monotone; its expansion is at most the
hash, loses less than one part in `2 ^ 23` and has the same compact form; and compact values are
ordered as their expansions. -/
theorem compact_codec :
    (∀ a b : List UInt8, a.length = 32 → b.length = 32 → beValue a ≤ beValue b →
      hashToU32 a ≤ hashToU32 b) ∧
    (∀ h : List UInt8, h.length = 32 →
      beValue (u32ToHash (hashToU32 h)) ≤ beValue h ∧
      (beValue h ≠ 0 →
        (beValue h - beValue (u32ToHash (hashToU32 h))) * 2 ^ 23 < beValue h) ∧
      hashToU32 (u32ToHash (hashToU32 h)) = hashToU32 h) ∧
    ∀ a b : List UInt8, a.length = 32 → b.length = 32 →
      (hashBiggerThan (u32ToHash (hashToU32 a)) (u32ToHash (hashToU32 b)) = true ↔
        hashToU32 b < hashToU32 a) := by
  have hbound : ∀ h : List UInt8, h.length = 32 → beValue h < 2 ^ 256 := by
    intro h hlen
    have := beValue_lt h
    rw [hlen] at this
    exact lt_of_lt_of_eq this (by norm_num)
  refine ⟨fun a b _ hb hle => biguintToU32_mono hle (hbound b hb), ?_, ?_⟩
  · intro h hlen
    have hlt := hbound h hlen
    rw [hashToU32, hashToU32, beValue_u32ToHash hlt]
    exact ⟨expand_le hlt, fun hne => (roundedDown hne hlt).close, biguintToU32_expand hlt⟩
  · intro a b ha hb
    have hlta := hbound a ha
    have hltb := hbound b hb
    rw [hashBiggerThan_iff (by rw [u32ToHash, u32ToHash, beBytes_length, beBytes_length]),
      hashToU32, hashToU32, beValue_u32ToHash hlta, beValue_u32ToHash hltb]
    constructor
    · -- equal compact forms have one expansion
      intro hlt
      have hle := biguintToU32_mono hlt.le (lt_of_le_of_lt (expand_le hlta) hlta)
      rw [biguintToU32_expand hlta, biguintToU32_expand hltb] at hle
      exact lt_of_le_of_ne hle fun heq => hlt.ne (by rw [heq])
    · intro hlt
      by_contra hge
      have hle := biguintToU32_mono (Nat.le_of_not_lt hge)
        (lt_of_le_of_lt (expand_le hltb) hltb)
      rw [biguintToU32_expand hlta, biguintToU32_expand hltb] at hle
      exact Nat.not_lt.mpr hle hlt

/-! ## The rule -/

structure DifficultyConfig where
  isMainnet : Bool
  difficultyAdjustBlocks : ℕ
  eachBlockTargetTime : ℕ

def lowestDifficulty : ℕ := 0xffffffff
def asertStartTargetNum : ℕ := 0xe9cfffff
def asertHalfLife : ℤ := 10800

def DifficultyConfig.asertUpgradeHeight (cnf : DifficultyConfig) : ℕ :=
  if cnf.isMainnet then 738654 else cnf.difficultyAdjustBlocks + 2

/-- The polynomial for `2 ^ (frac / 2 ^ 16)`, in units of `2 ^ -16`. -/
def asertFactor (frac : ℕ) : ℕ :=
  (195766423245049 * frac + 971821376 * frac ^ 2 + 5127 * frac ^ 3 + 2 ^ 47) / 2 ^ 48 + 2 ^ 16

def shiftBy (n : ℕ) (numShifts : ℤ) : ℕ :=
  if numShifts < 0 then n / 2 ^ (-numShifts).toNat else n * 2 ^ numShifts.toNat

/-- The target before the bounds; `>>` rounds down. -/
def asertTarget (anchorTarget : ℕ) (exponent : ℤ) : ℕ :=
  let numShifts := exponent / 2 ^ 16
  let frac := (exponent - numShifts * 2 ^ 16).toNat
  shiftBy (anchorTarget * asertFactor frac) numShifts / 2 ^ 16

/-- The bounds of the target: twice the last one, and the lowest difficulty. -/
def boundTarget (prevTarget nextTarget : ℕ) : DifficultyTarget :=
  let easeTarget := prevTarget * 2
  let maxTarget := u32ToBiguint lowestDifficulty
  if nextTarget = 0 then .fromBig 1
  else
    let nextTarget := if nextTarget > easeTarget then easeTarget else nextTarget
    if nextTarget > maxTarget then .fromNum lowestDifficulty else .fromBig nextTarget

/-- How late a block is, in octaves of the target and units of `2 ^ -16`, rounded to zero. -/
def asertExponent (cnf : DifficultyConfig) (anchorTime hei blkt : ℕ) : ℤ :=
  let timeDelta : ℤ := blkt - anchorTime
  let heightDelta : ℤ := hei - cnf.asertUpgradeHeight
  ((timeDelta - cnf.eachBlockTargetTime * heightDelta) * 2 ^ 16).tdiv asertHalfLife

/-- `target_asert`; `blockTime` is the time of a block of the history. -/
def targetAsert (cnf : DifficultyConfig) (blockTime : ℕ → Ret ℕ) (prevdiff hei blkt : ℕ) :
    Ret DifficultyTarget :=
  if hei = cnf.asertUpgradeHeight then .ok (.fromNum asertStartTargetNum)
  else do
    let anchorTime ← blockTime cnf.asertUpgradeHeight
    let nextTarget := asertTarget (u32ToBiguint asertStartTargetNum)
      (asertExponent cnf anchorTime hei blkt)
    return boundTarget (u32ToBiguint prevdiff) nextTarget

theorem asertFactor_mono {a b : ℕ} (h : a ≤ b) : asertFactor a ≤ asertFactor b := by
  rw [asertFactor, asertFactor]
  gcongr

theorem shiftBy_mono {n m : ℕ} (h : n ≤ m) (q : ℤ) : shiftBy n q ≤ shiftBy m q := by
  rw [shiftBy, shiftBy]
  split_ifs
  · exact Nat.div_le_div_right h
  · exact Nat.mul_le_mul_right _ h

theorem shiftBy_succ {n m : ℕ} (h : n ≤ 2 * m) (q : ℤ) : shiftBy n q ≤ shiftBy m (q + 1) := by
  rw [shiftBy, shiftBy]
  by_cases hq : q < 0
  · have hexp : (-q).toNat = (-(q + 1)).toNat + 1 := by omega
    rw [if_pos hq, hexp, pow_succ, ← Nat.div_div_eq_div_mul, Nat.div_div_eq_div_mul,
      Nat.mul_comm, ← Nat.div_div_eq_div_mul]
    have hhalf : n / 2 ≤ m := by omega
    split_ifs with hq'
    · exact Nat.div_le_div_right hhalf
    · have hzero : (-(q + 1)).toNat = 0 ∧ (q + 1).toNat = 0 := by omega
      rw [hzero.1, hzero.2, pow_zero, Nat.div_one, Nat.mul_one]
      exact hhalf
  · have hexp : (q + 1).toNat = q.toNat + 1 := by omega
    rw [if_neg hq, if_neg (by omega), hexp, pow_succ, Nat.mul_comm (2 ^ q.toNat), ← Nat.mul_assoc,
      Nat.mul_comm m]
    exact Nat.mul_le_mul_right _ h

/-- **The approximation is monotone**, also from one octave to the next. -/
theorem asertTarget_mono (anchor : ℕ) : Monotone (asertTarget anchor) := by
  refine monotone_int_of_le_succ fun e => ?_
  rw [asertTarget, asertTarget]
  refine Nat.div_le_div_right ?_
  have hfrac := Int.emod_nonneg e (show (2 ^ 16 : ℤ) ≠ 0 by decide)
  have hlt := Int.emod_lt_of_pos e (show (0 : ℤ) < 2 ^ 16 by decide)
  have hdiv := Int.emod_add_mul_ediv e (2 ^ 16)
  by_cases hlast : e % 2 ^ 16 = 2 ^ 16 - 1
  · -- the end of an octave: the factor at the start of the next one counts twice
    have hnext : (e + 1) / 2 ^ 16 = e / 2 ^ 16 + 1 := by omega
    have hstart : (e + 1 - (e / 2 ^ 16 + 1) * 2 ^ 16).toNat = 0 := by omega
    have hend : (e - e / 2 ^ 16 * 2 ^ 16).toNat = 65535 := by omega
    rw [hnext, hstart, hend]
    refine shiftBy_succ ?_ _
    have hfactor : asertFactor 65535 ≤ 2 * asertFactor 0 := by decide
    calc anchor * asertFactor 65535 ≤ anchor * (2 * asertFactor 0) :=
          Nat.mul_le_mul_left anchor hfactor
      _ = 2 * (anchor * asertFactor 0) := by ring
  · have hsame : (e + 1) / 2 ^ 16 = e / 2 ^ 16 := by omega
    rw [hsame]
    refine shiftBy_mono (Nat.mul_le_mul_left anchor (asertFactor_mono ?_)) _
    omega

theorem lowestDifficulty_bounds : 1 ≤ u32ToBiguint lowestDifficulty ∧
    u32ToBiguint lowestDifficulty < 2 ^ 256 := by
  decide

section

variable {prev : ℕ} (hprev : prev ≠ 0)
include hprev

theorem boundTarget_eq (next : ℕ) : boundTarget prev next =
    .fromBig (min (min (max next 1) (prev * 2)) (u32ToBiguint lowestDifficulty)) := by
  have hmax := lowestDifficulty_bounds.1
  rw [boundTarget]
  dsimp only
  by_cases hzero : next = 0
  · rw [if_pos hzero]
    congr 1
    omega
  · have hnext : (if next > prev * 2 then prev * 2 else next) = min (max next 1) (prev * 2) := by
      split_ifs <;> omega
    rw [if_neg hzero, hnext]
    split_ifs with h
    · rw [min_eq_right h.le, DifficultyTarget.fromNum]
    · rw [min_eq_left (Nat.le_of_not_lt h)]

theorem boundTarget_mono {n m : ℕ} (h : n ≤ m) :
    (boundTarget prev n).num ≤ (boundTarget prev m).num := by
  rw [boundTarget_eq hprev, boundTarget_eq hprev]
  refine biguintToU32_mono ?_ (lt_of_le_of_lt (min_le_right _ _) lowestDifficulty_bounds.2)
  gcongr

theorem boundTarget_bounds (next : ℕ) :
    (boundTarget prev next).num ≠ 0 ∧ (boundTarget prev next).hash ≠ 0 ∧
      (boundTarget prev next).hash ≤ 2 * prev ∧
      (boundTarget prev next).hash ≤ u32ToBiguint lowestDifficulty := by
  obtain ⟨hone, hlt⟩ := lowestDifficulty_bounds
  rw [boundTarget_eq hprev]
  generalize hbig : min (min (max next 1) (prev * 2)) (u32ToBiguint lowestDifficulty) = big
  have hbounds : big ≠ 0 ∧ big ≤ 2 * prev ∧ big ≤ u32ToBiguint lowestDifficulty := by omega
  have hbig256 := lt_of_le_of_lt hbounds.2.2 hlt
  have hr := roundedDown hbounds.1 hbig256
  have hhash : u32ToBiguint (biguintToU32 big) ≠ 0 := by
    intro h0
    have := hr.close
    rw [h0] at this
    omega
  refine ⟨fun h0 => hhash ?_, hhash, hr.le.trans hbounds.2.1, hr.le.trans hbounds.2.2⟩
  have hnum : biguintToU32 big = 0 := h0
  rw [hnum]
  rfl

end

theorem asertExponent_mono (cnf : DifficultyConfig) (anchorTime : ℕ) {hei hei' blkt blkt' : ℕ}
    (hhei : hei' ≤ hei) (hblkt : blkt ≤ blkt') :
    asertExponent cnf anchorTime hei blkt ≤ asertExponent cnf anchorTime hei' blkt' := by
  refine Int.tdiv_le_tdiv (by decide) ?_
  gcongr

theorem targetAsert_ok {cnf : DifficultyConfig} {blockTime : ℕ → Ret ℕ} {prevdiff hei blkt : ℕ}
    {target : DifficultyTarget} (hhei : cnf.asertUpgradeHeight < hei)
    (h : targetAsert cnf blockTime prevdiff hei blkt = .ok target) :
    ∃ anchorTime, blockTime cnf.asertUpgradeHeight = .ok anchorTime ∧
      target = boundTarget (u32ToBiguint prevdiff) (asertTarget (u32ToBiguint asertStartTargetNum)
        (asertExponent cnf anchorTime hei blkt)) := by
  rw [targetAsert, if_neg hhei.ne'] at h
  obtain ⟨anchorTime, htime, h⟩ := bind_eq_ok h
  cases h
  exact ⟨anchorTime, htime, rfl⟩

/-- **The ASERT target law.** Above the anchor the compact target is not zero, at most twice the
last one and the lowest difficulty's; it is monotone in the block time, antitone in the height. -/
theorem target_asert_law (cnf : DifficultyConfig) (blockTime : ℕ → Ret ℕ) {prevdiff hei blkt : ℕ}
    {target : DifficultyTarget} (hprev : u32ToBiguint prevdiff ≠ 0)
    (hhei : cnf.asertUpgradeHeight < hei)
    (h : targetAsert cnf blockTime prevdiff hei blkt = .ok target) :
    (target.num ≠ 0 ∧ target.hash ≠ 0 ∧ target.hash ≤ 2 * u32ToBiguint prevdiff ∧
      target.hash ≤ u32ToBiguint lowestDifficulty) ∧
    (∀ blkt' target', blkt ≤ blkt' →
      targetAsert cnf blockTime prevdiff hei blkt' = .ok target' → target.num ≤ target'.num) ∧
    ∀ hei' target', hei ≤ hei' →
      targetAsert cnf blockTime prevdiff hei' blkt = .ok target' → target'.num ≤ target.num := by
  obtain ⟨anchorTime, htime, rfl⟩ := targetAsert_ok hhei h
  refine ⟨boundTarget_bounds hprev _, ?_, ?_⟩
  · intro blkt' target' hle h'
    obtain ⟨anchorTime', htime', rfl⟩ := targetAsert_ok hhei h'
    rw [htime] at htime'
    cases htime'
    exact boundTarget_mono hprev (asertTarget_mono _ (asertExponent_mono cnf _ le_rfl hle))
  · intro hei' target' hle h'
    obtain ⟨anchorTime', htime', rfl⟩ := targetAsert_ok (hhei.trans_le hle) h'
    rw [htime] at htime'
    cases htime'
    exact boundTarget_mono hprev (asertTarget_mono _ (asertExponent_mono cnf _ hle le_rfl))

theorem target_asert_law_late :
    u32ToBiguint asertStartTargetNum ≠ 0 ∧
      ∃ target, targetAsert ⟨true, 288, 300⟩ (fun _ => .ok 1000) asertStartTargetNum 738655 12100
        = .ok target ∧ target.num ≠ 0 := by
  have hprev : u32ToBiguint asertStartTargetNum ≠ 0 := by decide +kernel
  obtain ⟨target, h⟩ : ∃ target, targetAsert ⟨true, 288, 300⟩ (fun _ => .ok 1000)
    asertStartTargetNum 738655 12100 = .ok target := ⟨_, rfl⟩
  exact ⟨hprev, target, h, (target_asert_law _ _ hprev (by decide) h).1.1⟩

end Hacash
