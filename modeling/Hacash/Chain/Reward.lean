import Hacash.Base.Types

/-!
# Block rewards (`hacash-params`, lib.rs:103–219; `mint`, minter.rs:57–69)

The reward follows a schedule of periods and is one coin past its end; the sum of rewards ends with
the schedule. **Key result**: `cumulative_reward_iff`.
-/

namespace Hacash

open Finset

def blockRewardSchedule : List ℕ :=
  [1, 1, 2, 3, 5, 8, 8, 8, 8, 8, 8, 8, 8, 8, 8, 8, 5, 5, 5, 5, 5, 5, 5, 5, 5, 5, 3, 3, 3, 3, 3, 3,
    3, 3, 3, 3, 2, 2, 2, 2, 2, 2, 2, 2, 2, 2, 1, 1, 1, 1, 1, 1, 1, 1, 1, 1, 1, 1, 1, 1, 1, 1, 1, 1,
    1, 1]

def blockRewardStepBlock : ℕ := 100000

def rewardNumber (schedule : List ℕ) (height : ℕ) : ℕ :=
  (schedule[height / blockRewardStepBlock]?).getD 1

def blockRewardNumber (height : ℕ) : ℕ := rewardNumber blockRewardSchedule height

def satMul64 (a b : ℕ) : ℕ := min (a * b) u64Max

/-- The loop of `cumulative_block_reward`. -/
def rewardLoop : List ℕ → (remain total : ℕ) → ℕ
  | [], _, total => total
  | reward :: rest, remain, total =>
    let blocks := min remain blockRewardStepBlock
    let total := satAdd64 total (satMul64 blocks reward)
    if remain - blocks = 0 then total else rewardLoop rest (remain - blocks) total

def cumulativeBlockReward (height : ℕ) : ℕ :=
  rewardLoop blockRewardSchedule (satAdd64 height 1) 0 - 1

/-! ## The loop -/

/-- The heights of the schedule. -/
def scheduleEnd : ℕ := 6600000

/-- Within its first period a schedule pays its first entry. -/
theorem sum_first_period (reward : ℕ) (rest : List ℕ) {n : ℕ} (h : n ≤ blockRewardStepBlock) :
    ∑ k ∈ range n, rewardNumber (reward :: rest) k = n * reward := by
  have hterm : ∀ k ∈ range n, rewardNumber (reward :: rest) k = reward := by
    intro k hk
    rw [rewardNumber, Nat.div_eq_of_lt ((mem_range.mp hk).trans_le h)]
    rfl
  rw [sum_congr rfl hterm, sum_const, card_range, smul_eq_mul]

theorem sum_next_periods (reward : ℕ) (rest : List ℕ) (n : ℕ) :
    ∑ k ∈ range (blockRewardStepBlock + n), rewardNumber (reward :: rest) k =
      blockRewardStepBlock * reward + ∑ k ∈ range n, rewardNumber rest k := by
  rw [sum_range_add, sum_first_period reward rest le_rfl]
  refine congrArg _ (sum_congr rfl fun k _ => ?_)
  rw [rewardNumber, rewardNumber, Nat.add_div_left _ (by decide), List.getElem?_cons_succ]

/-- **The loop sums up the schedule** and nothing past its end. -/
theorem rewardLoop_eq : ∀ (schedule : List ℕ) (remain total : ℕ),
    total + blockRewardStepBlock * schedule.sum ≤ u64Max →
    rewardLoop schedule remain total = total +
      ∑ k ∈ range (min remain (blockRewardStepBlock * schedule.length)), rewardNumber schedule k
  | [], remain, total, _ => by simp [rewardLoop]
  | reward :: rest, remain, total, h => by
    rw [List.sum_cons, mul_add] at h
    have hmul : min remain blockRewardStepBlock * reward ≤ blockRewardStepBlock * reward :=
      Nat.mul_le_mul_right _ (min_le_right _ _)
    have hadd : satAdd64 total (satMul64 (min remain blockRewardStepBlock) reward)
        = total + min remain blockRewardStepBlock * reward := by
      rw [satAdd64, satMul64, min_eq_left (by omega), min_eq_left (by omega)]
    rw [rewardLoop, hadd, List.length_cons, mul_add_one]
    by_cases hlast : remain ≤ blockRewardStepBlock
    · rw [min_eq_left hlast, if_pos (Nat.sub_self _), min_eq_left (by omega),
        sum_first_period reward rest hlast]
    · have hmore : min remain (blockRewardStepBlock * rest.length + blockRewardStepBlock) =
          blockRewardStepBlock +
            min (remain - blockRewardStepBlock) (blockRewardStepBlock * rest.length) := by omega
      rw [min_eq_right (by omega), if_neg (by omega), rewardLoop_eq rest _ _ (by omega), hmore,
        sum_next_periods, add_assoc]

/-! ## The sum -/

theorem sum_from_genesis (height : ℕ) :
    ∑ k ∈ range (height + 1), blockRewardNumber k =
      ∑ k ∈ Icc 1 height, blockRewardNumber k + 1 := by
  rw [range_eq_Ico, sum_eq_sum_Ico_succ_bot (Nat.succ_pos height), add_comm]
  rfl

/-- The reward of the genesis block is not counted, and the rewards past the schedule are not
either. -/
theorem cumulativeBlockReward_eq (height : ℕ) :
    cumulativeBlockReward height =
      ∑ k ∈ Icc 1 (min height (scheduleEnd - 1)), blockRewardNumber k := by
  have hend : blockRewardStepBlock * blockRewardSchedule.length = scheduleEnd := by decide
  have hmin : min (satAdd64 height 1) scheduleEnd = min height (scheduleEnd - 1) + 1 := by
    have hmax : scheduleEnd ≤ u64Max := by decide
    have hpos : 0 < scheduleEnd := by decide
    rw [satAdd64]
    omega
  rw [cumulativeBlockReward, rewardLoop_eq _ _ _ (by decide), hend, hmin, zero_add]
  generalize min height (scheduleEnd - 1) = n
  exact Nat.sub_eq_of_eq_add (sum_from_genesis n)

/-- **The sum of the rewards is reported up to the end of the schedule**, and too low from there
on: each block still pays one coin. -/
theorem cumulative_reward_iff (height : ℕ) :
    cumulativeBlockReward height = ∑ k ∈ Icc 1 height, blockRewardNumber k ↔
      height < scheduleEnd := by
  rw [cumulativeBlockReward_eq]
  constructor
  · intro heq
    by_contra hge
    have hless : ∑ k ∈ Icc 1 (min height (scheduleEnd - 1)), blockRewardNumber k <
        ∑ k ∈ Icc 1 height, blockRewardNumber k := by
      refine sum_lt_sum_of_subset (i := scheduleEnd) (Icc_subset_Icc_right (min_le_left _ _))
        (mem_Icc.mpr ⟨by decide, not_lt.mp hge⟩) ?_ (by decide) fun _ _ _ => Nat.zero_le _
      rw [mem_Icc, not_and, not_le]
      exact fun _ => (min_le_right _ _).trans_lt (by decide)
    exact hless.ne heq
  · intro hlt
    rw [min_eq_left (by omega)]

/-- The first block past the schedule pays a coin that is not in the sum. -/
theorem cumulative_reward_past_end :
    cumulativeBlockReward scheduleEnd + 1 = ∑ k ∈ Icc 1 scheduleEnd, blockRewardNumber k := by
  have hpays : blockRewardNumber scheduleEnd = 1 := by decide
  obtain ⟨n, hn⟩ : ∃ n, scheduleEnd = n + 1 := ⟨6599999, rfl⟩
  rw [hn] at hpays ⊢
  rw [cumulativeBlockReward_eq, hn, Nat.add_sub_cancel, min_eq_right (Nat.le_succ n),
    sum_Icc_succ_top (Nat.le_add_left _ _), hpays]

end Hacash
