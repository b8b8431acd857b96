import Hacash.Field.Wire

/-!
# Guard facts (`protocol`, codec/action/guard.rs, exec/action/guard.rs)

`guard_facts` folds all guards into one set of chains and one range of heights; execution checks
each on its own. **Key result**: `guard_facts_agree`.
-/

namespace Hacash

open List Option

/-! ## Guards -/

/-- The top actions as `guard_facts` tells them apart. The checks of signers and of the floor of a
balance are given by their results. -/
inductive GuardItem where
  | chainAllow (chains : List (Uint 4))
  | heightScope (start stop : Uint 5)
  | requiredSigners (validated : Ret Unit)
  | balanceFloor (validated : Ret Unit)
  | attachment
  | otherGuard (kind : ℕ)
  | other

open GuardItem

/-- `ChainAllow::execute`. -/
def chainAllowExecute (chains : List (Uint 4)) (chainId : ℕ) : Ret Unit :=
  if chains.any (fun id => id.uint == chainId) then .ok ()
  else revertf "transaction must belong to chains but on chain"

/-- `HeightScope::execute`. -/
def heightScopeExecute (start stop : Uint 5) (height : ℕ) : Ret Unit :=
  let right := if stop.uint = 0 then u64Max else stop.uint
  if right < start.uint then .error (.fault "left height cannot exceed right height")
  else if height < start.uint ∨ right < height then
    revertf "transaction must be submitted in height between"
  else .ok ()

namespace GuardItem

/-- An action on chains or heights. -/
def constrains : GuardItem → Bool
  | chainAllow _ | heightScope _ _ => true
  | _ => false

/-- The guards on chains and heights execute; the others are not asked. -/
def Executes (height chainId : ℕ) : GuardItem → Prop
  | chainAllow chains => chainAllowExecute chains chainId = .ok ()
  | heightScope start stop => heightScopeExecute start stop height = .ok ()
  | _ => True

end GuardItem

/-! ## Facts -/

structure GuardFacts where
  chains : Option (List ℕ)
  heightRange : Option (ℕ × ℕ)
  actionNotes : List (ℕ × String)
  protocolViolations : List String

def heightInRange (start stop height : ℕ) : Bool :=
  if stop < start ∧ stop ≠ 0 then false
  else decide (start ≤ height) && (decide (stop = 0) || decide (height ≤ stop))

namespace GuardFacts

/-- `against_context`: `(expired_height, wrong_chain)`. -/
def againstContext (facts : GuardFacts) (height chainId : ℕ) : Bool × Bool :=
  (facts.heightRange.any fun range => !heightInRange range.1 range.2 height,
    facts.chains.any fun chains => !chains.contains chainId)

def pushGuardNote (facts : GuardFacts) (index : ℕ) (text : String) : GuardFacts :=
  { facts with
    actionNotes := facts.actionNotes ++ [(index, text)]
    protocolViolations := facts.protocolViolations ++ [text] }

/-- The note of a check that failed. -/
def pushFailed (facts : GuardFacts) (index : ℕ) : Ret Unit → GuardFacts
  | .ok () => facts
  | .error e => facts.pushGuardNote index e.msg

def meetChains (allowed : List ℕ) : Option (List ℕ) → List ℕ
  | none => allowed
  | some prev => prev.filter fun id => allowed.contains id

def allowChains (facts : GuardFacts) (index : ℕ) (allowed : List ℕ) : GuardFacts :=
  let chains := meetChains allowed facts.chains
  let facts := { facts with chains := some chains }
  if chains = [] then
    facts.pushGuardNote index "chain_allow constraints conflict: no chain satisfies all of them"
  else facts

def meetRange (start stop : ℕ) : Option (ℕ × ℕ) → ℕ × ℕ
  | none => (start, stop)
  | some prev => (max prev.1 start, min prev.2 stop)

def scopeHeights (facts : GuardFacts) (index start stop : ℕ) : GuardFacts :=
  let range := meetRange start stop facts.heightRange
  let facts := { facts with heightRange := some range }
  if range.2 < range.1 then
    facts.pushGuardNote index "height_scope constraints conflict: no height satisfies all of them"
  else facts

/-- One turn of the loop of `guard_facts`. -/
def step (facts : GuardFacts) (item : GuardItem × ℕ) : GuardFacts :=
  match item with
  | (.chainAllow chains, index) =>
    if chains = [] then
      facts.pushGuardNote index "chain_allow with empty chain list is protocol-invalid"
    else facts.allowChains index (chains.map (·.uint))
  | (.heightScope start stop, index) =>
    if stop.uint < start.uint ∧ stop.uint ≠ 0 then
      facts.pushGuardNote index "height_scope left exceeds right"
    else facts.scopeHeights index start.uint (if stop.uint = 0 then u64Max else stop.uint)
  | (.requiredSigners validated, index) => facts.pushFailed index validated
  | (.balanceFloor validated, index) => facts.pushFailed index validated
  | (.otherGuard _, index) => facts.pushGuardNote index "guard action kind has no review facts"
  | (.attachment, _) | (.other, _) => facts

/-- The sentinel of an open end is written as zero. -/
def closeEnd (range : ℕ × ℕ) : ℕ × ℕ := if range.2 = u64Max then (range.1, 0) else range

def closeRange (facts : GuardFacts) : GuardFacts :=
  { facts with heightRange := facts.heightRange.map closeEnd }

end GuardFacts

def guardFacts (actions : List GuardItem) : GuardFacts :=
  (actions.zipIdx.foldl GuardFacts.step ⟨none, none, [], []⟩).closeRange

/-! ## Agreement -/

/-- The facts hold nothing against a height and a chain, before the sentinel is written back. -/
structure GuardFacts.Admits (actions : List GuardItem) (height chainId : ℕ) (facts : GuardFacts) :
    Prop where
  notes : ∀ note ∈ facts.actionNotes, (actions[note.1]?).any constrains = false
  chains : ∀ chains, facts.chains = some chains → chainId ∈ chains
  range : ∀ range, facts.heightRange = some range → range.1 ≤ height ∧ height ≤ range.2

namespace GuardFacts

variable {actions : List GuardItem} {height chainId index : ℕ} {facts : GuardFacts}
  {action : GuardItem} {text : String}

theorem chainAllowExecute_iff {chains : List (Uint 4)} :
    chainAllowExecute chains chainId = .ok () ↔ chainId ∈ chains.map (·.uint) := by
  rw [chainAllowExecute]
  split_ifs with h
  · simpa using h
  · simpa [revertf] using h

theorem heightScopeExecute_iff {start stop : Uint 5} :
    heightScopeExecute start stop height = .ok () ↔
      start.uint ≤ height ∧ height ≤ (if stop.uint = 0 then u64Max else stop.uint) := by
  rw [heightScopeExecute]
  generalize (if stop.uint = 0 then u64Max else stop.uint) = right
  split_ifs with h h'
  · simp only [false_iff]
    omega
  · simp only [revertf, reduceCtorEq, false_iff]
    omega
  · simp only [true_iff]
    omega

section

variable (hindex : actions[index]? = some action)
include hindex

theorem admits_pushGuardNote : (facts.pushGuardNote index text).Admits actions height chainId ↔
      facts.Admits actions height chainId ∧ action.constrains = false := by
  constructor
  · intro h
    refine ⟨⟨fun note hnote => h.notes note (mem_append_left _ hnote), h.chains, h.range⟩, ?_⟩
    have hnote := h.notes (index, text) (mem_append_right _ (mem_singleton_self _))
    rwa [hindex, any_some] at hnote
  · rintro ⟨h, hfree⟩
    refine ⟨fun note hnote => ?_, h.chains, h.range⟩
    rcases mem_append.mp hnote with hnote | hnote
    · exact h.notes note hnote
    · rw [mem_singleton.mp hnote, hindex, any_some, hfree]

/-- A conflict is noted, and then nothing was left. -/
theorem admits_noted {met : GuardFacts} {conflict : Prop} [Decidable conflict]
    (hconflict : conflict → ¬ met.Admits actions height chainId) :
    (if conflict then met.pushGuardNote index text else met).Admits actions height chainId ↔
      met.Admits actions height chainId := by
  split_ifs with h
  · rw [admits_pushGuardNote hindex]
    exact ⟨fun h' => h'.1, fun h' => absurd h' (hconflict h)⟩
  · exact Iff.rfl

theorem admits_allowChains {allowed : List ℕ} :
    (facts.allowChains index allowed).Admits actions height chainId ↔
      facts.Admits actions height chainId ∧ chainId ∈ allowed := by
  have hmem : chainId ∈ meetChains allowed facts.chains ↔
      (∀ prev, facts.chains = some prev → chainId ∈ prev) ∧ chainId ∈ allowed := by
    cases facts.chains with
    | none | some prev => simp [meetChains]
  rw [allowChains, admits_noted hindex]
  · constructor
    · intro h
      obtain ⟨hprev, hallowed⟩ := hmem.mp (h.chains _ rfl)
      exact ⟨⟨h.notes, hprev, h.range⟩, hallowed⟩
    · rintro ⟨h, hallowed⟩
      refine ⟨h.notes, ?_, h.range⟩
      rintro _ ⟨⟩
      exact hmem.mpr ⟨h.chains, hallowed⟩
  · intro hempty h
    have := h.chains _ rfl
    rw [hempty] at this
    exact not_mem_nil this

theorem admits_scopeHeights {start stop : ℕ} :
    (facts.scopeHeights index start stop).Admits actions height chainId ↔
      facts.Admits actions height chainId ∧ start ≤ height ∧ height ≤ stop := by
  have hmem : ((meetRange start stop facts.heightRange).1 ≤ height ∧
        height ≤ (meetRange start stop facts.heightRange).2) ↔
      (∀ prev, facts.heightRange = some prev → prev.1 ≤ height ∧ height ≤ prev.2) ∧
        start ≤ height ∧ height ≤ stop := by
    cases facts.heightRange with
    | none => simp [meetRange]
    | some prev =>
      simp only [meetRange, some.injEq, forall_eq', max_le_iff, le_min_iff]
      tauto
  rw [scopeHeights, admits_noted hindex]
  · constructor
    · intro h
      obtain ⟨hprev, hscope⟩ := hmem.mp (h.range _ rfl)
      exact ⟨⟨h.notes, h.chains, hprev⟩, hscope⟩
    · rintro ⟨h, hscope⟩
      refine ⟨h.notes, h.chains, ?_⟩
      rintro _ ⟨⟩
      exact hmem.mpr ⟨h.range, hscope⟩
  · intro hempty h
    have := h.range _ rfl
    omega

/-- A note on an action that is not asked changes nothing. -/
theorem admits_pushFailed {validated : Ret Unit} (hother : action.constrains = false) :
    (facts.pushFailed index validated).Admits actions height chainId ↔
      facts.Admits actions height chainId := by
  cases validated with
  | ok u => rfl
  | error e => rw [pushFailed, admits_pushGuardNote hindex, hother, eq_self_iff_true, and_true]

/-- **One more guard.** The facts admit what they did before, if the guard executes. -/
theorem admits_step : (facts.step (action, index)).Admits actions height chainId ↔
      facts.Admits actions height chainId ∧ action.Executes height chainId := by
  cases action with
  | chainAllow chains =>
    rw [step, GuardItem.Executes, chainAllowExecute_iff]
    split_ifs with h
    · subst h
      rw [admits_pushGuardNote hindex]
      simp [constrains]
    · exact admits_allowChains hindex
  | heightScope start stop =>
    rw [step, GuardItem.Executes, heightScopeExecute_iff]
    split_ifs with h hstop
    · omega
    · rw [admits_pushGuardNote hindex]
      simp only [constrains, Bool.true_eq_false, and_false, false_iff]
      omega
    · exact admits_scopeHeights hindex
    · exact admits_scopeHeights hindex
  | requiredSigners validated | balanceFloor validated =>
    show (facts.pushFailed index validated).Admits actions height chainId ↔ _ ∧ True
    rw [and_true, admits_pushFailed hindex rfl]
  | otherGuard kind =>
    show (facts.pushGuardNote index _).Admits actions height chainId ↔ _ ∧ True
    rw [admits_pushGuardNote hindex]
    simp [constrains]
  | attachment | other => exact (and_true _).symm.to_iff

end

/-- The loop of `guard_facts`. -/
theorem admits_foldl {items : List (GuardItem × ℕ)}
    (hitems : ∀ item ∈ items, actions[item.2]? = some item.1) :
    (items.foldl step facts).Admits actions height chainId ↔
      facts.Admits actions height chainId ∧ ∀ item ∈ items, item.1.Executes height chainId := by
  induction items generalizing facts with
  | nil => simp
  | cons item items ih =>
    obtain ⟨hhead, htail⟩ := forall_mem_cons.mp hitems
    rw [foldl_cons, ih htail, admits_step hhead, forall_mem_cons, and_assoc]

/-- A range never ends at zero before the sentinel is written back. -/
def Ended (facts : GuardFacts) : Prop := ∀ range, facts.heightRange = some range → range.2 ≠ 0

theorem Ended.scopeHeights {start stop : ℕ} (h : facts.Ended) (hstop : stop ≠ 0) :
    (facts.scopeHeights index start stop).Ended := by
  have hmeet : (meetRange start stop facts.heightRange).2 ≠ 0 := by
    cases hprev : facts.heightRange with
    | none => exact hstop
    | some prev =>
      have := h prev hprev
      show min prev.2 stop ≠ 0
      omega
  rw [GuardFacts.scopeHeights]
  intro range hrange
  split_ifs at hrange
  · cases hrange
    exact hmeet
  · cases hrange
    exact hmeet

theorem Ended.step (h : facts.Ended) (item : GuardItem × ℕ) : (facts.step item).Ended := by
  obtain ⟨action, index⟩ := item
  cases action with
  | chainAllow chains =>
    rw [GuardFacts.step, allowChains]
    split_ifs <;> exact h
  | heightScope start stop =>
    rw [GuardFacts.step]
    split_ifs with hscope hzero
    · exact h
    · exact h.scopeHeights (by decide)
    · exact h.scopeHeights hzero
  | requiredSigners validated | balanceFloor validated => cases validated <;> exact h
  | otherGuard kind | attachment | other => exact h

theorem Ended.foldl (h : facts.Ended) (items : List (GuardItem × ℕ)) :
    (items.foldl GuardFacts.step facts).Ended := by
  induction items generalizing facts with
  | nil => exact h
  | cons item items ih => exact ih (h.step item)

theorem heightInRange_close {range : ℕ × ℕ} (hended : range.2 ≠ 0) (hheight : height ≤ u64Max) :
    heightInRange (closeEnd range).1 (closeEnd range).2 height = true ↔
      range.1 ≤ height ∧ height ≤ range.2 := by
  rw [closeEnd]
  by_cases hmax : range.2 = u64Max
  · rw [if_pos hmax, heightInRange, if_neg (by simp)]
    simp only [decide_true, Bool.true_or, Bool.and_true, decide_eq_true_eq]
    omega
  · rw [if_neg hmax, heightInRange]
    split_ifs with hscope
    · simp only [false_iff]
      omega
    · simp only [Bool.and_eq_true, Bool.or_eq_true, decide_eq_true_eq]
      omega

/-- The facts that are returned, against the facts of the loop. -/
theorem admits_iff_closeRange (hended : facts.Ended) (hheight : height ≤ u64Max) :
    facts.Admits actions height chainId ↔
      (∀ note ∈ facts.closeRange.actionNotes, (actions[note.1]?).any constrains = false) ∧
      facts.closeRange.againstContext height chainId = (false, false) := by
  have hchains : (facts.chains.any fun chains => !chains.contains chainId) = false ↔
      ∀ chains, facts.chains = some chains → chainId ∈ chains := by
    cases facts.chains with
    | none | some chains => simp
  have hrange : (facts.closeRange.heightRange.any fun range =>
      !heightInRange range.1 range.2 height) = false ↔
      ∀ range, facts.heightRange = some range → range.1 ≤ height ∧ height ≤ range.2 := by
    rw [closeRange]
    cases hr : facts.heightRange with
    | none => simp
    | some range =>
      simp only [map_some, any_some, Bool.not_eq_false', some.injEq,
        forall_eq']
      exact heightInRange_close (hended range hr) hheight
  rw [againstContext, Prod.mk.injEq, hrange]
  constructor
  · intro h
    exact ⟨h.notes, h.range, hchains.mpr h.chains⟩
  · rintro ⟨hnotes, hrange, h⟩
    exact ⟨hnotes, hchains.mp h, hrange⟩

end GuardFacts

/-- **Offline facts agree with execution.** No guard on chains or heights is noted and the facts
hold against a height and a chain, exactly if every such guard executes there. -/
theorem guard_facts_agree (actions : List GuardItem) (height : Uint 8) (chainId : ℕ) :
    ((∀ note ∈ (guardFacts actions).actionNotes,
        (actions[note.1]?).any constrains = false) ∧
      (guardFacts actions).againstContext height.uint chainId = (false, false)) ↔
    ∀ action ∈ actions, action.Executes height.uint chainId := by
  have hheight : height.uint ≤ u64Max := Nat.le_sub_one_of_lt height.lt
  have hstart : (⟨none, none, [], []⟩ : GuardFacts).Ended := nofun
  have hadmits : (⟨none, none, [], []⟩ : GuardFacts).Admits actions height.uint chainId :=
    ⟨nofun, nofun, nofun⟩
  rw [guardFacts, ← GuardFacts.admits_iff_closeRange (hstart.foldl _) hheight,
    GuardFacts.admits_foldl fun item hitem => mem_zipIdx_iff_getElem?.mp hitem]
  constructor
  · rintro ⟨-, h⟩ action hmem
    obtain ⟨i, hi⟩ := List.getElem?_of_mem hmem
    exact h (action, i) (mem_zipIdx_iff_getElem?.mpr hi)
  · intro h
    refine ⟨hadmits, fun item hitem => h item.1 ?_⟩
    exact mem_of_getElem? (mem_zipIdx_iff_getElem?.mp hitem)

end Hacash
