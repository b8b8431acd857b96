import Hacash.Ledger.Operate

/-!
# Conservation of HAC

The sum of all balances under any sequence of HAC operations. **Key result**: `hac_conserved`, for a
blackhole without HAC at the start (`hac_burns_stored_balance`).
-/

namespace Hacash

open CoreState List Amount

/-- The sum of all HAC balances. -/
def CoreState.hacTotal (s : CoreState) : ℤ := s.total (fun b => b.hacash.value)

/-- The three operations on HAC. -/
inductive HacOp where
  | transfer (height : ℕ) (src dst : Address) (amt : Amount)
  | add (addr : Address) (amt : Amount)
  | sub (addr : Address) (amt : Amount)

open HacOp

/-- One operation. -/
def HacOp.run (s : CoreState) : HacOp → Ret CoreState
  | .transfer height src dst amt => hacTransfer s height src dst amt
  | .add addr amt => hacAdd s addr amt
  | .sub addr amt => hacSub s addr amt

/-- A sequence of operations that all succeed. -/
def runHacOps (s : CoreState) : List HacOp → Ret CoreState
  | [] => .ok s
  | op :: ops => do
    let s ← op.run s
    runHacOps s ops

/-- The amount added. -/
def HacOp.added : HacOp → ℤ
  | .add _ amt => amt.value
  | _ => 0

/-- The amount subtracted. -/
def HacOp.subtracted : HacOp → ℤ
  | .sub _ amt => amt.value
  | _ => 0

/-- The amount sent to the blackhole. A transfer of the blackhole to itself moves
nothing. -/
def HacOp.burned : HacOp → ℤ
  | .transfer _ src dst amt => if dst = blackholeAddr ∧ src ≠ dst then amt.value else 0
  | .add addr amt => if addr = blackholeAddr then amt.value else 0
  | .sub _ _ => 0

/-- What an operation adds to the sum of all balances. -/
def HacOp.net (op : HacOp) : ℤ := op.added - op.subtracted - op.burned

/-- The blackhole holds no HAC. -/
def BlackholeEmpty (s : CoreState) : Prop := (s.balanceOf blackholeAddr).hacash.value = 0

/-! ## One operation -/

variable {s s' : CoreState} {addr : Address} {amt : Amount}

theorem hacSub_total (h : hacSub s addr amt = .ok s') : s'.hacTotal = s.hacTotal - amt.value := by
  obtain ⟨_, new, hnew, hre⟩ := hacSub_ok h
  obtain ⟨_, _, hval⟩ := subModeU128_value hnew
  rw [hacTotal, hacTotal, hre.total, hval]
  ring

theorem hacSub_blackholeEmpty (h : hacSub s addr amt = .ok s') (hs : BlackholeEmpty s) :
    addr ≠ blackholeAddr ∧ BlackholeEmpty s' := by
  obtain ⟨hpos, new, hnew, hre⟩ := hacSub_ok h
  obtain ⟨_, hnonneg, hval⟩ := subModeU128_value hnew
  have hne : addr ≠ blackholeAddr := by
    rintro rfl
    rw [BlackholeEmpty] at hs
    omega
  refine ⟨hne, ?_⟩
  rw [BlackholeEmpty, hre.of_ne hne.symm]
  exact hs

theorem hacAdd_total (h : hacAdd s addr amt = .ok s') (hs : BlackholeEmpty s) :
    s'.hacTotal = s.hacTotal + (if addr = blackholeAddr then 0 else amt.value) ∧
      BlackholeEmpty s' := by
  obtain ⟨_, new, hnew, hre⟩ := hacAdd_ok h
  obtain ⟨_, _, hval⟩ := addModeU128_value hnew
  rw [hacTotal, hacTotal, hre.total]
  by_cases haddr : addr = blackholeAddr
  · rw [engulfed, if_pos haddr, if_pos haddr]
    have hzero : (s.balanceOf addr).hacash.value = 0 := by rw [haddr]; exact hs
    refine ⟨?_, ?_⟩
    · rw [hzero]
      simp [Balance.default]
    · have hself := hre.self
      rw [engulfed, if_pos haddr, haddr] at hself
      rw [BlackholeEmpty, hself]
      rfl
  · rw [engulfed, if_neg haddr, if_neg haddr]
    refine ⟨?_, ?_⟩
    · rw [hval]
      ring
    · rw [BlackholeEmpty, hre.of_ne (Ne.symm haddr)]
      exact hs

theorem HacOp.total {s s' : CoreState} {op : HacOp} (h : op.run s = .ok s')
    (hs : BlackholeEmpty s) : s'.hacTotal = s.hacTotal + op.net ∧ BlackholeEmpty s' := by
  cases op with
  | transfer height src dst amt =>
    rcases hacTransfer_ok h with ⟨heq, rfl⟩ | ⟨hne, s1, hsub, hadd⟩
    · refine ⟨?_, hs⟩
      simp [net, added, subtracted, burned, heq]
    · obtain ⟨_, hs1⟩ := hacSub_blackholeEmpty hsub hs
      obtain ⟨htotal, hs'⟩ := hacAdd_total hadd hs1
      refine ⟨?_, hs'⟩
      rw [htotal, hacSub_total hsub]
      by_cases hdst : dst = blackholeAddr
      · simp only [net, added, subtracted, burned, if_pos hdst, if_pos (And.intro hdst hne)]
        ring
      · simp only [net, added, subtracted, burned, if_neg hdst,
          if_neg (fun h : dst = blackholeAddr ∧ src ≠ dst => hdst h.1)]
        ring
  | add addr amt =>
    obtain ⟨htotal, hs'⟩ := hacAdd_total h hs
    refine ⟨?_, hs'⟩
    rw [htotal]
    simp only [net, added, subtracted, burned]
    split_ifs <;> ring
  | sub addr amt =>
    refine ⟨?_, (hacSub_blackholeEmpty h hs).2⟩
    rw [hacSub_total h]
    simp only [net, added, subtracted, burned]
    ring

/-! ## Sequences -/

theorem runHacOps_total {ops : List HacOp} (h : runHacOps s ops = .ok s') (hs : BlackholeEmpty s) :
    s'.hacTotal = s.hacTotal + (ops.map net).sum ∧ BlackholeEmpty s' := by
  induction ops generalizing s with
  | nil =>
    cases h
    exact ⟨by simp, hs⟩
  | cons op ops ih =>
    obtain ⟨s1, hop, h⟩ := bind_eq_ok h
    obtain ⟨htotal1, hs1⟩ := total hop hs
    obtain ⟨htotal, hs'⟩ := ih h hs1
    refine ⟨?_, hs'⟩
    rw [htotal, htotal1, map_cons, sum_cons]
    ring

theorem runHacOps_append {pre post : List HacOp} (h : runHacOps s (pre ++ post) = .ok s') :
    ∃ s1, runHacOps s pre = .ok s1 ∧ runHacOps s1 post = .ok s' := by
  induction pre generalizing s with
  | nil => exact ⟨s, rfl, h⟩
  | cons op pre ih =>
    obtain ⟨s1, hop, h⟩ := bind_eq_ok h
    obtain ⟨s2, hpre, hpost⟩ := ih h
    refine ⟨s2, ?_, hpost⟩
    rw [runHacOps, hop]
    exact hpre

theorem sum_net (ops : List HacOp) :
    (ops.map net).sum = (ops.map added).sum - (ops.map subtracted).sum - (ops.map burned).sum := by
  induction ops with
  | nil => rfl
  | cons op ops ih =>
    simp only [map_cons, sum_cons, ih, net]
    ring

/-- HAC is conserved: from an empty blackhole a sequence of successful operations moves the sum of
all balances by what was added, less what was subtracted or sent to the blackhole. -/
theorem hac_conserved {s s' : CoreState} {ops : List HacOp} (hs : BlackholeEmpty s)
    (h : runHacOps s ops = .ok s') :
    s'.hacTotal = s.hacTotal + (ops.map added).sum - (ops.map subtracted).sum
        - (ops.map burned).sum ∧
      ∀ pre op post, ops = pre ++ op :: post → ∃ s1 s2, runHacOps s pre = .ok s1 ∧
        op.run s1 = .ok s2 ∧ runHacOps s2 post = .ok s' ∧
        s2.hacTotal = s1.hacTotal + op.added - op.subtracted - op.burned := by
  refine ⟨?_, ?_⟩
  · rw [(runHacOps_total h hs).1, sum_net]
    ring
  · rintro pre op post rfl
    obtain ⟨s1, hpre, hpost⟩ := runHacOps_append h
    obtain ⟨s2, hop, hpost⟩ := bind_eq_ok hpost
    refine ⟨s1, s2, hpre, hop, hpost, ?_⟩
    rw [(total hop (runHacOps_total hpre hs).2).1, net]
    ring

/-- A private key address with a one-byte body. -/
def userAddr (b : UInt8) : Address := ⟨0 :: b :: replicate 19 0, by simp⟩

/-- One user gets five HAC and sends 0.25 on, of which 0.01 goes to the blackhole; two are taken. -/
def sampleHacOps : List HacOp :=
  [.add (userAddr 1) (.coinU128 5 248),
    .transfer 7 (userAddr 1) (userAddr 2) (.coinU128 25 246),
    .transfer 200000 (userAddr 2) (userAddr 2) (.coinU128 1 240),
    .transfer 9 (userAddr 2) blackholeAddr (.coinU128 1 246),
    .sub (userAddr 1) (.coinU128 2 248)]

theorem hac_conserved_sample : ∃ s', BlackholeEmpty .empty ∧
    runHacOps .empty sampleHacOps = .ok s' ∧
    s'.hacTotal = empty.hacTotal + (sampleHacOps.map added).sum
      - (sampleHacOps.map subtracted).sum - (sampleHacOps.map burned).sum := by
  obtain ⟨s', h⟩ : ∃ s', runHacOps .empty sampleHacOps = .ok s' :=
    exists_of_isOk (by decide +kernel)
  have hs : BlackholeEmpty .empty := rfl
  exact ⟨s', hs, h, (hac_conserved hs h).1⟩

/-- A blackhole that holds five HAC. -/
def storedBlackhole : CoreState :=
  empty.balanceSet blackholeAddr { Balance.default with hacash := .coinU128 5 248 }

/-- Adding one HAC to a blackhole that holds five destroys all six. -/
theorem hac_burns_stored_balance : ∃ s s' ops, runHacOps s ops = .ok s' ∧
    s'.hacTotal ≠ s.hacTotal + (ops.map added).sum - (ops.map subtracted).sum
      - (ops.map burned).sum := by
  obtain ⟨s', h⟩ : ∃ s', hacAdd storedBlackhole blackholeAddr (.coinU128 1 248) = .ok s' :=
    exists_of_isOk (by decide +kernel)
  refine ⟨storedBlackhole, s', [.add blackholeAddr (.coinU128 1 248)], ?_, ?_⟩
  · rw [runHacOps, run, h]
    rfl
  · obtain ⟨_, new, _, hre⟩ := hacAdd_ok h
    have hheld : (storedBlackhole.balanceOf blackholeAddr).hacash.value = (5 * 10 ^ 248 : ℕ) := by
      rw [storedBlackhole, balanceOf_balanceSet, Function.update_self]
      exact coinU128_value (by decide) (by decide)
    have hafter : (engulfed blackholeAddr
        { storedBlackhole.balanceOf blackholeAddr with hacash := new }).hacash.value = 0 := by
      rw [engulfed, if_pos rfl]
      rfl
    rw [hacTotal, hacTotal, hre.total, hheld, hafter]
    simp only [map_cons, map_nil, sum_cons, sum_nil, added,
      subtracted, burned, if_pos]
    have : (0 : ℤ) < (5 * 10 ^ 248 : ℕ) := by positivity
    omega

end Hacash
