import Hacash.Exec.Ast

/-!
# The topology precheck (`protocol::level`)

The precheck walks all branches of the trees, the executor those it takes. **Key result**:
`precheck_sound`. Nested actions are not counted (`precheck_ignores_nested`).
-/

namespace Hacash

open List Hacash.Action

variable {V W : Type}

/-! ## The walk (level.rs:14–240) -/

/-- What a walk has found and counted. -/
structure Stats where
  findings : List String
  actionNotes : List (ℕ × String)
  topCount : ℕ
  topKinds : List (ℕ × ℕ)
  topGuards : ℕ
  terminalNonGuards : ℕ
  terminalGuards : Bool

/-- The name of a dispatcher in texts. -/
def ExecFrom.name : ExecFrom → String
  | .top => "TOP"
  | .ast => "AST"
  | .call => "CALL"

def TopRule.debug : TopRule → String
  | .none => "None"
  | .only => "Only"
  | .onlyCanWithGuard => "OnlyCanWithGuard"
  | .unique => "Unique"

def ScopeKind.debug : ScopeKind → String
  | .top => "Top"
  | .guard => "Guard"
  | .ast => "Ast"
  | .call => "Call"

/-- A scope as `format!("{:?}", scope)` prints it. -/
def ActScope.debug (scope : ActScope) : String :=
  let top := match scope.top with
    | none => "None"
    | some rule => s!"Some({rule.debug})"
  s!"ActScope \x7b kind: {scope.kind.debug}, top: {top}, allow_ast: {scope.allowAst}, " ++
    s!"allow_call: {scope.allowCall} \x7d"

namespace Stats

def default : Stats := ⟨[], [], 0, [], 0, 0, false⟩

/-- A finding that belongs to no top action. -/
def push (stats : Stats) (text : String) : Stats :=
  { stats with findings := stats.findings ++ [text] }

/-- A finding about a node, noted for its top action if it is one. -/
def note (stats : Stats) (topIndex : Option ℕ) (text : String) : Stats :=
  match topIndex with
  | none => stats.push text
  | some index => { stats.push text with actionNotes := stats.actionNotes ++ [(index, text)] }

/-- One more occurrence of a kind. -/
def bump (kind : ℕ) : List (ℕ × ℕ) → List (ℕ × ℕ)
  | [] => [(kind, 1)]
  | (k, count) :: rest => if k = kind then (k, count + 1) :: rest else (k, count) :: bump kind rest

/-- The counts of a top action. -/
def countTop (stats : Stats) (act : Action V W) : Stats :=
  { stats with
    topCount := stats.topCount + 1
    topKinds := bump act.kind stats.topKinds
    topGuards := if act.scope.isGuard then stats.topGuards + 1 else stats.topGuards }

/-- The counts of a leaf. -/
def terminal (stats : Stats) (act : Action V W) : Stats :=
  if act.scope.isGuard then { stats with terminalGuards := true }
  else { stats with terminalNonGuards := stats.terminalNonGuards + 1 }

end Stats

open Stats

/-- The finding about a node itself. -/
def nodeFinding (txType : ℕ) (flags : Option UInt64) (act : Action V W) (src : ExecFrom) :
    Option String :=
  if act.scope.allows src = false then
    some (s!"action node invalid: action {act.kind} with scope {act.scope.debug} " ++
      s!"not allowed from {src.name}")
  else if txType < act.minTxType then
    some (s!"action node invalid: action {act.kind} requires tx type >= {act.minTxType} " ++
      s!"but current tx type is {txType}")
  else
    match flags with
    | none => none
    | some flags =>
      if act.requiredFlags &&& ~~~flags ≠ 0 then some s!"action kind {act.kind} not activated"
      else none

/-- The depth of the children of a node, or the finding about it. -/
def nextDepth (maxDepth depth depthInc : ℕ) : Except String ℕ :=
  if 2 ^ 64 ≤ depth + depthInc then .error "ast tree depth overflow"
  else if maxDepth < depth + depthInc then
    .error s!"ast tree depth {depth + depthInc} exceeded max {maxDepth}"
  else .ok (depth + depthInc)

/-- The part of `visit` before the children: the stats, and the depth of children to be visited. -/
def visitNode (txType : ℕ) (flags : Option UInt64) (maxDepth : ℕ) (act : Action V W)
    (depthInc : ℕ) (src : ExecFrom) (depth : ℕ) (topIndex : Option ℕ) (stats : Stats) :
    Stats × Option ℕ :=
  match nodeFinding txType flags act src with
  | some text => (stats.note topIndex text, none)
  | none =>
    let stats := if src = .top then stats.countTop act else stats
    if depthInc = 0 then (stats.terminal act, none)
    else
      match nextDepth maxDepth depth depthInc with
      | .error text => (stats.push text, none)
      | .ok next => (stats, some next)

mutual

/-- `visit`. The children of an `AstIf` are those of its three selects. -/
def visit (txType : ℕ) (flags : Option UInt64) (maxDepth : ℕ) :
    Action V W → ExecFrom → ℕ → Option ℕ → Stats → Stats
  | .leaf act, src, depth, topIndex, stats =>
    (visitNode txType flags maxDepth (.leaf act) 0 src depth topIndex stats).1
  | .select ⟨exeMin, exeMax, actions⟩, src, depth, topIndex, stats =>
    match visitNode txType flags maxDepth (.select ⟨exeMin, exeMax, actions⟩) 1 src depth topIndex
      stats with
    | (stats, none) => stats
    | (stats, some next) => visitAll txType flags maxDepth actions next stats
  | .astIf ⟨cMin, cMax, cond⟩ ⟨iMin, iMax, brIf⟩ ⟨eMin, eMax, brElse⟩, src, depth, topIndex,
      stats =>
    match visitNode txType flags maxDepth
      (.astIf ⟨cMin, cMax, cond⟩ ⟨iMin, iMax, brIf⟩ ⟨eMin, eMax, brElse⟩) 2 src depth topIndex
      stats with
    | (stats, none) => stats
    | (stats, some next) =>
      visitAll txType flags maxDepth brElse next
        (visitAll txType flags maxDepth brIf next
          (visitAll txType flags maxDepth cond next stats))

/-- The loop of `visit` over the children of a node. -/
def visitAll (txType : ℕ) (flags : Option UInt64) (maxDepth : ℕ) :
    List (Action V W) → ℕ → Stats → Stats
  | [], _, stats => stats
  | act :: rest, depth, stats =>
    visitAll txType flags maxDepth rest depth
      (visit txType flags maxDepth act .ast depth none stats)

end

/-- The loop of `topology_facts_with_action_limit` over the top actions. -/
def visitTop (txType : ℕ) (flags : Option UInt64) (maxDepth : ℕ) :
    List (Action V W) → ℕ → Stats → Stats
  | [], _, stats => stats
  | act :: rest, index, stats =>
    visitTop txType flags maxDepth rest (index + 1)
      (visit txType flags maxDepth act .top 0 (some index) stats)

def checkTopRule (stats : Stats) (act : Action V W) : Stats :=
  match act.scope.topRule with
  | some .only =>
    if stats.topCount ≠ 1 then
      stats.push s!"tx topology invalid: action {act.kind} must be the only top action"
    else stats
  | some .onlyCanWithGuard =>
    if stats.topCount ≠ stats.topGuards + 1 ∨ stats.terminalNonGuards ≠ 1 then
      stats.push s!"tx topology invalid: action {act.kind} can only combine with guard actions"
    else stats
  | some .unique =>
    if (((stats.topKinds.find? fun e => e.1 = act.kind).map (·.2)).getD 0) ≠ 1 then
      stats.push s!"tx topology invalid: action {act.kind} must be unique in tx"
    else stats
  | _ => stats

/-- `topology_facts_with_action_limit`: the findings and the notes. -/
def topologyFactsWithActionLimit (txType : ℕ) (actions : List (Action V W))
    (flags : Option UInt64) (maxDepth maxActions : ℕ) : List String × List (ℕ × String) :=
  if actions.isEmpty = true ∨ maxActions < actions.length then
    ([s!"action length {actions.length} is invalid"], [])
  else
    let stats := visitTop txType flags maxDepth actions 0 .default
    let stats :=
      if stats.terminalGuards = true ∧ stats.terminalNonGuards = 0 then
        stats.push "tx topology invalid: tx actions cannot be all GUARD"
      else stats
    let stats := actions.foldl checkTopRule stats
    (stats.findings, stats.actionNotes)

def precheckTxActions (txType : ℕ) (actions : List (Action V W)) (flags : UInt64)
    (maxDepth maxActions : ℕ) : Ret Unit :=
  match (topologyFactsWithActionLimit txType actions (some flags) maxDepth maxActions).1 with
  | [] => .ok ()
  | first :: _ => errf first

/-! ## Trees without findings -/

/-- A node the dispatcher admits. -/
structure NodeFits (txType : ℕ) (flags : UInt64) (act : Action V W) (src : ExecFrom) : Prop where
  scope : act.scope.allows src = true
  minTxType : act.minTxType ≤ txType
  requiredFlags : act.requiredFlags &&& ~~~flags = 0

mutual

/-- A tree all of whose nodes the dispatcher admits, with room for its depth. -/
def Fits (txType : ℕ) (flags : UInt64) (maxDepth : ℕ) : Action V W → ExecFrom → ℕ → Prop
  | .leaf act, src, _ => NodeFits txType flags (.leaf act) src
  | .select ⟨exeMin, exeMax, actions⟩, src, depth =>
    NodeFits txType flags (.select ⟨exeMin, exeMax, actions⟩) src ∧ depth + 1 ≤ maxDepth ∧
      FitsAll txType flags maxDepth actions (depth + 1)
  | .astIf ⟨cMin, cMax, cond⟩ ⟨iMin, iMax, brIf⟩ ⟨eMin, eMax, brElse⟩, src, depth =>
    NodeFits txType flags (.astIf ⟨cMin, cMax, cond⟩ ⟨iMin, iMax, brIf⟩ ⟨eMin, eMax, brElse⟩)
        src ∧ depth + 2 ≤ maxDepth ∧ FitsAll txType flags maxDepth cond (depth + 2) ∧
      FitsAll txType flags maxDepth brIf (depth + 2) ∧
      FitsAll txType flags maxDepth brElse (depth + 2)

/-- The children of a node, at the depth the node gives them. -/
def FitsAll (txType : ℕ) (flags : UInt64) (maxDepth : ℕ) : List (Action V W) → ℕ → Prop
  | [], _ => True
  | act :: rest, depth =>
    Fits txType flags maxDepth act .ast depth ∧ FitsAll txType flags maxDepth rest depth

end

section

variable {txType maxDepth maxActions depth depthInc : ℕ} {flags : UInt64} {act : Action V W}
  {src : ExecFrom} {topIndex : Option ℕ} {stats : Stats}

theorem Stats.push_findings (stats : Stats) (text : String) : (stats.push text).findings ≠ [] := by
  simp [push]

theorem Stats.note_findings (stats : Stats) (topIndex : Option ℕ) (text : String) :
    (stats.note topIndex text).findings ≠ [] := by
  cases topIndex <;> exact stats.push_findings text

theorem nodeFits_of_nodeFinding (h : nodeFinding txType (some flags) act src = none) :
    NodeFits txType flags act src := by
  unfold nodeFinding at h
  split_ifs at h with hscope htype
  dsimp only at h
  split_ifs at h with hflags
  exact ⟨Bool.eq_true_of_not_eq_false hscope, not_lt.mp htype, not_not.mp hflags⟩

/-- The first part of a visit hands the children over, or has visited a leaf, or leaves a finding.
-/
theorem visitNode_cases (txType maxDepth : ℕ) (flags : UInt64) (act : Action V W) (depthInc : ℕ)
    (src : ExecFrom) (depth : ℕ) (topIndex : Option ℕ) (stats : Stats) :
    (∃ next, (visitNode txType (some flags) maxDepth act depthInc src depth topIndex stats).2
        = some next ∧ next = depth + depthInc ∧ next ≤ maxDepth ∧
      NodeFits txType flags act src ∧
      (visitNode txType (some flags) maxDepth act depthInc src depth topIndex stats).1.findings
        = stats.findings) ∨
    (visitNode txType (some flags) maxDepth act depthInc src depth topIndex stats).2 = none ∧
      ((visitNode txType (some flags) maxDepth act depthInc src depth topIndex stats).1.findings
        = [] → depthInc = 0 ∧ stats.findings = [] ∧ NodeFits txType flags act src) := by
  unfold visitNode
  cases hnode : nodeFinding txType (some flags) act src with
  | some text => exact Or.inr ⟨rfl, fun h => absurd h (stats.note_findings topIndex text)⟩
  | none =>
    have hfits := nodeFits_of_nodeFinding hnode
    have htop : (if src = .top then stats.countTop act else stats).findings = stats.findings := by
      split_ifs <;> rfl
    dsimp only
    by_cases hinc : depthInc = 0
    · rw [if_pos hinc]
      refine Or.inr ⟨rfl, fun h => ⟨hinc, ?_, hfits⟩⟩
      rw [← htop, ← h, terminal]
      split_ifs <;> rfl
    rw [if_neg hinc, nextDepth]
    by_cases hover : 2 ^ 64 ≤ depth + depthInc
    · rw [if_pos hover]
      exact Or.inr ⟨rfl, fun h => absurd h (push_findings _ _)⟩
    by_cases hmax : maxDepth < depth + depthInc
    · rw [if_neg hover, if_pos hmax]
      exact Or.inr ⟨rfl, fun h => absurd h (push_findings _ _)⟩
    rw [if_neg hover, if_neg hmax]
    exact Or.inl ⟨_, rfl, rfl, not_lt.mp hmax, hfits, htop⟩

theorem visitNode_branch {children : ℕ → Stats → Stats} (P : Prop) (hinc : depthInc ≠ 0)
    (h : findings (match visitNode txType (some flags) maxDepth act depthInc src depth
        topIndex stats with
      | (stats, none) => stats
      | (stats, some next) => children next stats) = [])
    (hchildren : ∀ s, (children (depth + depthInc) s).findings = [] → s.findings = [] ∧ P) :
    stats.findings = [] ∧ NodeFits txType flags act src ∧ depth + depthInc ≤ maxDepth ∧ P := by
  have hcases := visitNode_cases txType maxDepth flags act depthInc src depth topIndex stats
  revert h hcases
  generalize visitNode txType (some flags) maxDepth act depthInc src depth topIndex stats = r
  obtain ⟨stats', next⟩ := r
  rintro h (⟨_, rfl, rfl, hmax, hnode, hsame⟩ | ⟨rfl, hleaf⟩)
  · obtain ⟨hstats, hP⟩ := hchildren stats' h
    exact ⟨hsame.symm.trans hstats, hnode, hmax, hP⟩
  · exact absurd (hleaf h).1 hinc

mutual

/-- **A visit without findings visits a tree that fits.** -/
theorem visit_fits : ∀ (act : Action V W) {src : ExecFrom} {depth : ℕ} {topIndex : Option ℕ}
    {stats : Stats},
    (visit txType (some flags) maxDepth act src depth topIndex stats).findings = [] →
      stats.findings = [] ∧ Fits txType flags maxDepth act src depth
  | .leaf act, src, depth, topIndex, stats, h => by
    rw [visit] at h
    rcases visitNode_cases txType maxDepth flags (.leaf act) 0 src depth topIndex stats
      with ⟨_, -, -, -, hnode, hsame⟩ | ⟨-, hleaf⟩
    · exact ⟨hsame.symm.trans h, by rw [Fits]; exact hnode⟩
    · obtain ⟨-, hstats, hnode⟩ := hleaf h
      exact ⟨hstats, by rw [Fits]; exact hnode⟩
  | .select ⟨exeMin, exeMax, actions⟩, src, depth, topIndex, stats, h => by
    rw [visit] at h
    obtain ⟨hstats, hnode, hmax, hall⟩ := visitNode_branch
      (FitsAll txType flags maxDepth actions (depth + 1)) one_ne_zero h fun s hs =>
        visitAll_fits actions hs
    exact ⟨hstats, by rw [Fits]; exact ⟨hnode, hmax, hall⟩⟩
  | .astIf ⟨cMin, cMax, cond⟩ ⟨iMin, iMax, brIf⟩ ⟨eMin, eMax, brElse⟩, src, depth, topIndex,
      stats, h => by
    rw [visit] at h
    obtain ⟨hstats, hnode, hmax, hall⟩ := visitNode_branch
      (FitsAll txType flags maxDepth cond (depth + 2) ∧
        FitsAll txType flags maxDepth brIf (depth + 2) ∧
        FitsAll txType flags maxDepth brElse (depth + 2)) two_ne_zero h fun s hs => by
      -- the three branches were visited one after another
      obtain ⟨hs, helse⟩ := visitAll_fits brElse hs
      obtain ⟨hs, hif⟩ := visitAll_fits brIf hs
      obtain ⟨hs, hcond⟩ := visitAll_fits cond hs
      exact ⟨hs, hcond, hif, helse⟩
    exact ⟨hstats, by rw [Fits]; exact ⟨hnode, hmax, hall⟩⟩

theorem visitAll_fits : ∀ (actions : List (Action V W)) {depth : ℕ} {stats : Stats},
    (visitAll txType (some flags) maxDepth actions depth stats).findings = [] →
      stats.findings = [] ∧ FitsAll txType flags maxDepth actions depth
  | [], depth, stats, h => by
    rw [visitAll] at h
    exact ⟨h, by rw [FitsAll]; trivial⟩
  | act :: rest, depth, stats, h => by
    rw [visitAll] at h
    obtain ⟨hvisit, hrest⟩ := visitAll_fits rest h
    obtain ⟨hstats, hact⟩ := visit_fits act hvisit
    exact ⟨hstats, by rw [FitsAll]; exact ⟨hact, hrest⟩⟩

end

theorem visitTop_fits : ∀ (actions : List (Action V W)) {index : ℕ} {stats : Stats},
    (visitTop txType (some flags) maxDepth actions index stats).findings = [] →
      stats.findings = [] ∧ ∀ act ∈ actions, Fits txType flags maxDepth act .top 0
  | [], index, stats, h => ⟨h, fun _ hact => absurd hact not_mem_nil⟩
  | act :: rest, index, stats, h => by
    obtain ⟨hvisit, hrest⟩ := visitTop_fits rest h
    obtain ⟨hstats, hact⟩ := visit_fits act hvisit
    refine ⟨hstats, fun a ha => ?_⟩
    rcases mem_cons.mp ha with rfl | ha
    · exact hact
    · exact hrest a ha

theorem checkTopRule_findings (h : (checkTopRule stats act).findings = []) :
    stats.findings = [] := by
  unfold checkTopRule at h
  split at h
  · split_ifs at h
    · exact absurd h (stats.push_findings _)
    · exact h
  · split_ifs at h
    · exact absurd h (stats.push_findings _)
    · exact h
  · split_ifs at h
    · exact absurd h (stats.push_findings _)
    · exact h
  · exact h

theorem foldl_checkTopRule_findings : ∀ (actions : List (Action V W)) {stats : Stats},
    (actions.foldl checkTopRule stats).findings = [] → stats.findings = []
  | [], _, h => h
  | _ :: rest, _, h => checkTopRule_findings (foldl_checkTopRule_findings rest h)

/-- **What an accepted transaction is**: not too many top actions, each of them a tree that
fits. -/
theorem precheckTxActions_fits {actions : List (Action V W)}
    (h : precheckTxActions txType actions flags maxDepth maxActions = .ok ()) :
    actions.length ≤ maxActions ∧ ∀ act ∈ actions, Fits txType flags maxDepth act .top 0 := by
  have hnone : (topologyFactsWithActionLimit txType actions (some flags) maxDepth maxActions).1
      = [] := by
    rw [precheckTxActions] at h
    split at h
    · assumption
    · cases h
  rw [topologyFactsWithActionLimit] at hnone
  by_cases hlen : actions.isEmpty = true ∨ maxActions < actions.length
  · rw [if_pos hlen] at hnone
    cases hnone
  rw [if_neg hlen] at hnone
  refine ⟨by simp only [not_or, not_lt] at hlen; exact hlen.2, ?_⟩
  have hguard := foldl_checkTopRule_findings actions hnone
  by_cases hall : (visitTop txType (some flags) maxDepth actions 0 .default).terminalGuards = true ∧
      (visitTop txType (some flags) maxDepth actions 0 .default).terminalNonGuards = 0
  · rw [if_pos hall] at hguard
    exact absurd hguard (push_findings _ _)
  · rw [if_neg hall] at hguard
    exact (visitTop_fits actions hguard).2

end

/-! ## The executor refuses nothing -/

mutual

/-- The refusals in a report, at any depth. -/
def Report.refusals : Report V W → List Refusal
  | .leaf _ => []
  | .refused why => [why]
  | .child _ inner => refusals inner

/-- The refusals in a list of reports. -/
def refusals : List (Report V W) → List Refusal
  | [] => []
  | r :: rs => r.refusals ++ refusals rs

end

theorem refusals_append (rs rs' : List (Report V W)) :
    refusals (rs ++ rs') = refusals rs ++ refusals rs' := by
  induction rs with
  | nil => rfl
  | cons r rs ih => rw [cons_append, refusals, refusals, ih, append_assoc]

/-- How deep in AST scopes a chunk is. -/
def Scope.depth : Scope → Option ℕ
  | block => none
  | tx _ => some 0
  | ast depth => some depth

theorem Scope.inner_of_depth {scope : Scope} {d : ℕ} (h : scope.depth = some d)
    (hd : d + 1 < 2 ^ 32) : ∃ inner, scope.inner = some inner ∧ inner.depth = some (d + 1) := by
  cases scope with
  | block => cases h
  | tx txHash => cases h; exact ⟨.ast 1, rfl, rfl⟩
  | ast depth => cases h; exact ⟨.ast (d + 1), if_pos hd, rfl⟩

/-- A piece of the executor that refuses nothing when it starts `d` scopes deep. -/
def Admits (disk base : Disk) (d : ℕ) {α : Type} (run : Context V W → Context V W × Ret α) :
    Prop :=
  ∀ ⦃ctx ps ℓ ls⦄, Layered disk base ctx.heap (ctx.chunk :: ps) (ℓ :: ls) →
    ℓ.scope.depth = some d →
    ∃ new, (run ctx).1.reports = ctx.reports ++ new ∧ refusals new = []

section

variable {disk base : Disk} {d : ℕ} {α β : Type}

theorem Admits.silent {run : Context V W → Context V W × Ret α}
    (h : ∀ ctx, (run ctx).1.reports = ctx.reports) : Admits disk base d run := by
  intro ctx ps ℓ ls _ _
  exact ⟨[], by rw [h, append_nil], rfl⟩

theorem leaf_admits (env : Env V W) (act : Leaf V W) :
    Admits env.disk base d (act.execute env) := by
  intro ctx ps ℓ ls hl _
  have happ := foldl_applied (act.run (ctx.view env.disk)).ops hl
  exact ⟨_, congrArg (· ++ _) happ.reports, rfl⟩

variable {env : Env V W} {act : Action V W} {execute : Context V W → Context V W × Ret ActOut}
  {maxDepth : ℕ}

theorem dispatch_admits {src : ExecFrom} (hfits : NodeFits env.txType env.consensusFlags act src)
    (hexec : Admits env.disk base d execute) :
    Admits env.disk base d (dispatch env act src execute) := by
  intro ctx ps ℓ ls hl hd
  rw [dispatch, if_neg (by rw [hfits.scope]; decide), if_neg (not_lt.mpr hfits.minTxType),
    if_neg (not_not.mpr hfits.requiredFlags)]
  cases env.checkSigns act with
  | error e => exact ⟨[], (append_nil _).symm, rfl⟩
  | ok _ => exact @hexec { ctx with execFrom := src } _ _ _ hl hd

theorem chargeExtra9_admits (act : Action V W) (out : ActOut) :
    Admits disk base d (chargeExtra9 act out) := by
  refine .silent fun ctx => ?_
  rw [chargeExtra9]
  by_cases hx : act.extra9
  · rw [if_pos hx]
    have hsame : (ctx.gasCharge (satMul32 out.1 9)).1.reports = ctx.reports := rfl
    revert hsame
    generalize ctx.gasCharge (satMul32 out.1 9) = r
    rcases r with ⟨after, _ | _⟩ <;> exact id
  · rw [if_neg hx]

/-- A piece and what runs after it; `rest` is what runs after each result, if anything. -/
theorem Admits.andThen {keeps : Ret α → Prop} {first : Context V W → Context V W × Ret α}
    {run : Context V W → Context V W × Ret β}
    (rest : Ret α → Option (Context V W → Context V W × Ret β))
    (ht : Transacts disk base keeps first) (h₁ : Admits disk base d first)
    (h₂ : ∀ res next, rest res = some next → Admits disk base d next)
    (hrun : ∀ ctx, (run ctx).1 = match rest (first ctx).2 with
      | none => (first ctx).1
      | some next => (next (first ctx).1).1) :
    Admits disk base d run := by
  intro ctx ps ℓ ls hl hd
  obtain ⟨new₁, hnew₁, hnone₁⟩ := h₁ hl hd
  obtain ⟨ℓ₁, new, hran, -⟩ := ht hl
  rw [hrun]
  cases hrest : rest (first ctx).2 with
  | none => exact ⟨new₁, hnew₁, hnone₁⟩
  | some next =>
    obtain ⟨new₂, hnew₂, hnone₂⟩ := h₂ _ next hrest hran.layered (hran.scope ▸ hd)
    refine ⟨new₁ ++ new₂, ?_, by rw [refusals_append, hnone₁, hnone₂]; rfl⟩
    rw [hnew₂, hnew₁, append_assoc]

/-- What runs after a success only. -/
def onOk (next : α → Context V W → Context V W × Ret β) :
    Ret α → Option (Context V W → Context V W × Ret β)
  | .ok a => some (next a)
  | .error _ => none

theorem onOk_some {next : α → Context V W → Context V W × Ret β} {res : Ret α}
    {f : Context V W → Context V W × Ret β} (h : onOk next res = some f) : ∃ a, f = next a := by
  cases res with
  | ok a => cases h; exact ⟨a, rfl⟩
  | error e => cases h

/-- What runs after a success or a revert. -/
def onSoft (next : α → Context V W → Context V W × Ret β)
    (other : Context V W → Context V W × Ret β) :
    Ret α → Option (Context V W → Context V W × Ret β)
  | .ok a => some (next a)
  | .error e => if e.isRevert then some other else none

theorem onSoft_some {next : α → Context V W → Context V W × Ret β}
    {other : Context V W → Context V W × Ret β} {res : Ret α}
    {f : Context V W → Context V W × Ret β} (h : onSoft next other res = some f) :
    (∃ a, f = next a) ∨ f = other := by
  cases res with
  | ok a => cases h; exact Or.inl ⟨a, rfl⟩
  | error e =>
    rw [onSoft] at h
    split_ifs at h
    cases h
    exact Or.inr rfl

theorem Fits.node {txType depth : ℕ} {flags : UInt64} {src : ExecFrom}
    (h : Fits txType flags maxDepth act src depth) : NodeFits txType flags act src := by
  cases act with
  | leaf act => rw [Fits] at h; exact h
  | select sel | astIf cond brIf brElse => rw [Fits] at h; exact h.1

theorem dispatchAst_admits (ht : Transacts env.disk base Ret.succeeds execute)
    (hfits : NodeFits env.txType env.consensusFlags act .ast)
    (hexec : Admits env.disk base d execute) :
    Admits env.disk base d (dispatchAst env act execute) := by
  refine Admits.andThen (onOk (chargeExtra9 act)) (dispatch_transacts env act .ast ht)
    (dispatch_admits hfits hexec) (fun res next hnext => ?_) fun ctx => ?_
  · obtain ⟨out, rfl⟩ := onOk_some hnext
    exact chargeExtra9_admits act out
  · rw [dispatchAst]
    rcases dispatch env act .ast execute ctx with ⟨_, _ | _⟩ <;> rfl

theorem execAstChild_admits {run : Context V W → Context V W × Ret ActOut}
    (hd : d + 1 < 2 ^ 32) (hrun : Admits disk base (d + 1) run) :
    Admits disk base d (Context.execAstChild run) := by
  intro ctx ps ℓ ls hl hdepth
  obtain ⟨inner, hinner, hdepth'⟩ := Scope.inner_of_depth hdepth hd
  rcases hl.spawnAst with ⟨q, h', scope, hspawn, hscope, hl'⟩ | ⟨e, -, hscope⟩
  · obtain rfl : inner = scope := Option.some.inj (hinner.symm.trans hscope)
    obtain ⟨new, hnew, hnone⟩ :=
      @hrun { ctx with heap := h', chunk := q, reports := [] } _ _ _ hl' hdepth'
    simp only [Context.execAstChild, hspawn]
    revert hnew
    generalize run { ctx with heap := h', chunk := q, reports := [] } = r
    obtain ⟨after, res⟩ := r
    intro hnew
    refine ⟨[.child res after.reports], ?_, ?_⟩
    · cases res with
      | ok out | error err => dsimp only; split <;> rfl
    · have hafter : after.reports = new := hnew
      rw [hafter]
      simpa only [refusals, Report.refusals, append_nil] using hnone
  · rw [hinner] at hscope
    cases hscope

theorem runAstChild_admits (ht : Transacts env.disk base Ret.succeeds execute)
    (hfits : NodeFits env.txType env.consensusFlags act .ast) (hd : d + 1 < 2 ^ 32)
    (hexec : Admits env.disk base (d + 1) execute) :
    Admits env.disk base d (runAstChild env act execute) := by
  intro ctx ps ℓ ls hl hdepth
  have hadm := execAstChild_admits hd (dispatchAst_admits ht hfits hexec)
  have hchild := @hadm (ctx.gasCharge env.astSnapshotTryGas).1 _ _ _
    (gasCharge_ran _ hl).layered hdepth
  have hsame : (ctx.gasCharge env.astSnapshotTryGas).1.reports = ctx.reports := rfl
  rw [hsame] at hchild
  rw [runAstChild]
  revert hchild hsame
  generalize ctx.gasCharge env.astSnapshotTryGas = r
  obtain ⟨ctx₁, res⟩ := r
  intro hchild hsame
  cases res with
  | error e => exact ⟨[], hsame.trans (append_nil _).symm, rfl⟩
  | ok _ =>
    dsimp only at hchild ⊢
    revert hchild
    generalize ctx₁.execAstChild (dispatchAst env act execute) = r
    obtain ⟨ctx₂, res⟩ := r
    intro hchild
    cases res with
    | ok out => exact hchild
    | error e =>
      dsimp only
      split_ifs <;> exact hchild

/-- An `AstIf` runs its condition and one of its branches. -/
theorem astIf_admits {cond brIf brElse : AstSelect (Action V W)}
    (hcond : Admits env.disk base d (runAstChild env (.select cond) (executeSelect env cond)))
    (hif : Admits env.disk base d (runAstChild env (.select brIf) (executeSelect env brIf)))
    (helse : Admits env.disk base d (runAstChild env (.select brElse) (executeSelect env brElse))) :
    Admits env.disk base d (Action.execute env (.astIf cond brIf brElse)) := by
  refine Admits.andThen (onSoft
      (fun _ => runAstChild env (.select brIf) (executeSelect env brIf))
      (runAstChild env (.select brElse) (executeSelect env brElse)))
    (runAstChild_transacts env _ (select_transacts env base cond)) hcond
    (fun res next hnext => ?_) fun ctx => ?_
  · rcases onSoft_some hnext with ⟨_, rfl⟩ | rfl
    · exact hif
    · exact helse
  · rw [execute]
    rcases runAstChild env (.select cond) (executeSelect env cond) ctx with ⟨ctx₁, e | _⟩
    · by_cases hrev : e.isRevert = true
      · simp only [onSoft, if_pos hrev]
        rcases runAstChild env (.select brElse) (executeSelect env brElse) ctx₁
          with ⟨_, _ | _⟩ <;> rfl
      · simp only [onSoft, if_neg hrev]
    · simp only [onSoft]
      rcases runAstChild env (.select brIf) (executeSelect env brIf) ctx₁
        with ⟨_, _ | _⟩ <;> rfl

theorem selectLoop_cons_admits {exeMax count : ℕ} {last : List UInt8} {rest : List (Action V W)}
    (hact : Admits env.disk base d (runAstChild env act (act.execute env)))
    (hrest : ∀ count last, Admits env.disk base d (selectLoop env exeMax rest count last)) :
    Admits env.disk base d (selectLoop env exeMax (act :: rest) count last) := by
  by_cases hdone : exeMax ≤ count
  · exact .silent fun ctx => by rw [selectLoop, if_pos hdone]
  refine Admits.andThen (onSoft (fun out => selectLoop env exeMax rest (count + 1) out.2)
      (selectLoop env exeMax rest count last))
    (runAstChild_transacts env act (transacts env base act)) hact
    (fun res next hnext => ?_) fun ctx => ?_
  · rcases onSoft_some hnext with ⟨out, rfl⟩ | rfl
    · exact hrest (count + 1) out.2
    · exact hrest count last
  · rw [selectLoop, if_neg hdone]
    rcases runAstChild env act (act.execute env) ctx with ⟨ctx₁, e | _⟩
    · by_cases hrev : e.isRevert = true
      · simp only [onSoft, if_pos hrev]
      · simp only [onSoft, if_neg hrev]
    · rfl

theorem select_admits {exeMin exeMax : Uint 1} {actions : List (Action V W)}
    (hloop : Admits env.disk base d (selectLoop env exeMax.uint actions 0 [])) :
    Admits env.disk base d (executeSelect env ⟨exeMin, exeMax, actions⟩) := by
  cases hvalid : validateAstSelect exeMin.uint exeMax.uint actions.length env.txActionsMax with
  | error e => exact .silent fun ctx => by rw [executeSelect, hvalid]
  | ok _ =>
    refine Admits.andThen (fun _ => none)
      (selectLoop_transacts env base exeMax.uint actions 0 []) hloop
      (fun res next hnext => by cases hnext) fun ctx => ?_
    rw [executeSelect, hvalid]
    rcases selectLoop env exeMax.uint actions 0 [] ctx with ⟨_, _ | _⟩
    · rfl
    · dsimp only
      split_ifs <;> rfl

mutual

/-- **A tree that fits is executed without a refusal.** -/
theorem execute_admits (env : Env V W) (base : Disk) (hmax : maxDepth < 2 ^ 32) :
    ∀ (act : Action V W) {src : ExecFrom} {depth d : ℕ},
      Fits env.txType env.consensusFlags maxDepth act src depth → d ≤ depth →
      Admits env.disk base d (act.execute env)
  | .leaf act, src, depth, d, _, _ => by
    have hrun : execute env (.leaf act) = act.execute env := by
      funext ctx
      rw [execute]
    rw [hrun]
    exact leaf_admits env act
  | .select ⟨exeMin, exeMax, actions⟩, src, depth, d, h, hd => by
    rw [Fits] at h
    obtain ⟨-, hle, hall⟩ := h
    have hrun : execute env (.select ⟨exeMin, exeMax, actions⟩)
        = executeSelect env ⟨exeMin, exeMax, actions⟩ := by
      funext ctx
      rw [execute]
    rw [hrun]
    exact select_admits
      (selectLoop_admits env base hmax exeMax.uint actions 0 [] hall (by omega) hle)
  | .astIf ⟨cMin, cMax, cond⟩ ⟨iMin, iMax, brIf⟩ ⟨eMin, eMax, brElse⟩, src, depth, d, h, hd => by
    rw [Fits] at h
    obtain ⟨hnode, hle, hcond, hif, helse⟩ := h
    -- the selects of an `AstIf` are not visited, but ask for no more than the node itself
    have hsel : ∀ sel : AstSelect (Action V W),
        NodeFits env.txType env.consensusFlags (.select sel) .ast := fun sel =>
      ⟨rfl, hnode.minTxType, UInt64.zero_and⟩
    have hchild : ∀ {sMin sMax : Uint 1} {actions : List (Action V W)},
        Admits env.disk base (d + 1) (selectLoop env sMax.uint actions 0 []) →
        Admits env.disk base d
          (runAstChild env (.select ⟨sMin, sMax, actions⟩)
            (executeSelect env ⟨sMin, sMax, actions⟩)) := fun hloop =>
      runAstChild_admits (select_transacts env base _) (hsel _) (by omega) (select_admits hloop)
    exact astIf_admits
      (hchild (selectLoop_admits env base hmax cMax.uint cond 0 [] hcond (by omega) hle))
      (hchild (selectLoop_admits env base hmax iMax.uint brIf 0 [] hif (by omega) hle))
      (hchild (selectLoop_admits env base hmax eMax.uint brElse 0 [] helse (by omega) hle))

theorem selectLoop_admits (env : Env V W) (base : Disk) (hmax : maxDepth < 2 ^ 32)
    (exeMax : ℕ) : ∀ (actions : List (Action V W)) (count : ℕ) (last : List UInt8) {depth d : ℕ},
      FitsAll env.txType env.consensusFlags maxDepth actions depth → d + 1 ≤ depth →
      depth ≤ maxDepth → Admits env.disk base d (selectLoop env exeMax actions count last)
  | [], count, last, depth, d, _, _, _ => .silent fun ctx => by rw [selectLoop]
  | act :: rest, count, last, depth, d, hall, hd, hle => by
    rw [FitsAll] at hall
    obtain ⟨hact, hrest⟩ := hall
    refine selectLoop_cons_admits ?_ fun count last =>
      selectLoop_admits env base hmax exeMax rest count last hrest hd hle
    exact runAstChild_admits (transacts env base act) hact.node (by omega)
      (execute_admits env base hmax act hact hd)

end

theorem executeActions_admits (env : Env V W) {maxDepth : ℕ} (hmax : maxDepth < 2 ^ 32)
    (withExtra9 : Bool) {ps : List ℕ} {ls : List Layer} : ∀ (actions : List (Action V W))
    {ctx : Context V W} {ℓ : Layer}, ctx.execFrom = .top →
      (∀ act ∈ actions, Fits env.txType env.consensusFlags maxDepth act .top 0) →
      Layered env.disk base ctx.heap (ctx.chunk :: ps) (ℓ :: ls) → ℓ.scope.depth = some 0 →
      ∃ new, (executeActions env withExtra9 actions ctx).1.reports = ctx.reports ++ new ∧
        refusals new = []
  | [], ctx, ℓ, _, _, _, _ => ⟨[], (append_nil _).symm, rfl⟩
  | act :: rest, ctx, ℓ, htop, hfits, hl, hdepth => by
    have hctx : { ctx with execFrom := .top } = ctx := by rw [← htop]
    have hact := hfits act mem_cons_self
    have hadm : Admits env.disk base 0 (dispatchTop env withExtra9 act) := by
      refine Admits.andThen (onOk fun out ctx =>
          if withExtra9 then chargeExtra9 act out ctx else (ctx, .ok out))
        (dispatch_transacts env act .top (act.transacts env base))
        (dispatch_admits hact.node (execute_admits env base hmax act hact le_rfl))
        (fun res next hnext => ?_) fun ctx => ?_
      · obtain ⟨out, rfl⟩ := onOk_some hnext
        cases withExtra9 with
        | true => exact chargeExtra9_admits act out
        | false => exact .silent fun _ => rfl
      · rw [dispatchTop]
        rcases dispatch env act .top (act.execute env) ctx with ⟨_, _ | _⟩ <;> rfl
    obtain ⟨new₁, hnew₁, hnone₁⟩ := hadm hl hdepth
    obtain ⟨ℓ₁, _, hran, -⟩ := dispatchTop_transacts env withExtra9 act hl
    rw [executeActions, hctx]
    revert hnew₁ hran
    generalize dispatchTop env withExtra9 act ctx = r
    obtain ⟨ctx₁, res⟩ := r
    intro hnew₁ hran
    cases res with
    | error e => exact ⟨new₁, hnew₁, hnone₁⟩
    | ok out =>
      obtain ⟨new₂, hnew₂, hnone₂⟩ := executeActions_admits env hmax withExtra9 rest
        (hran.execFrom.trans htop) (fun a ha => hfits a (mem_cons_of_mem act ha)) hran.layered
        (hran.scope ▸ hdepth)
      refine ⟨new₁ ++ new₂, ?_, by rw [refusals_append, hnone₁, hnone₂]; rfl⟩
      rw [hnew₂]
      dsimp only at hnew₁
      rw [hnew₁, append_assoc]

/-- **The precheck is sound.** If it accepts the actions of a transaction, no dispatch in a run of
them is refused for its scope, minimum transaction type, flags or depth. Chunks count their depth
in 32 bits, so the depth limit must fit. -/
theorem precheck_sound (env : Env V W) {maxDepth maxActions : ℕ} (hmax : maxDepth < 2 ^ 32)
    {actions : List (Action V W)}
    (hok : precheckTxActions env.txType actions env.consensusFlags maxDepth maxActions = .ok ()) :
    actions.length ≤ maxActions ∧
    ∀ withExtra9 base ctx ps ℓ ls txHash,
      Layered env.disk base ctx.heap (ctx.chunk :: ps) (ℓ :: ls) → ℓ.scope = .tx txHash →
      ctx.execFrom = .top →
      ∃ new, (executeActions env withExtra9 actions ctx).1.reports = ctx.reports ++ new ∧
        refusals new = [] := by
  obtain ⟨hlen, hfits⟩ := precheckTxActions_fits hok
  refine ⟨hlen, fun withExtra9 base ctx ps ℓ ls txHash hl hscope htop => ?_⟩
  exact executeActions_admits env hmax withExtra9 actions htop hfits hl (by rw [hscope]; rfl)

end

/-- The select with a child that reverts, under the limits of the main network. -/
theorem precheck_sound_sample :
    precheckTxActions 3 [sampleSelect] 0 6 200 = .ok () ∧
      refusals (executeActions sampleEnv true [sampleSelect] sampleContext).1.reports = [] := by
  have hok : precheckTxActions 3 [sampleSelect] 0 6 200 = .ok () := by decide +kernel
  refine ⟨hok, ?_⟩
  obtain ⟨-, hrun⟩ := precheck_sound sampleEnv (by decide) hok
  obtain ⟨new, hnew, hnone⟩ := hrun true _ sampleContext [1] _ _ _ sampleHeap_layered rfl rfl
  rw [hnew]
  exact hnone

/-! ## What the limit counts -/

mutual

/-- The number of actions a visit of a tree visits. -/
def Action.visited : Action V W → ℕ
  | .leaf _ => 1
  | .select ⟨_, _, actions⟩ => 1 + visited actions
  | .astIf ⟨_, _, cond⟩ ⟨_, _, brIf⟩ ⟨_, _, brElse⟩ =>
    1 + visited cond + visited brIf + visited brElse

def visited : List (Action V W) → ℕ
  | [] => 0
  | act :: rest => act.visited + visited rest

end

/-- A select of as many leaves as the limit allows. -/
def fullSelect : Action Unit Unit :=
  .select ⟨200, 200, List.replicate 200 (sampleLeaf 1 (.ok (0, [])))⟩

/-- **Nested actions are not counted.** The limit of 200 accepts a transaction that executes 402. -/
theorem precheck_ignores_nested :
    precheckTxActions 3 [fullSelect, fullSelect] 0 6 200 = .ok () ∧
      visited [fullSelect, fullSelect] = 402 ∧
      (survivors (executeActions { sampleEnv with astSnapshotTryGas := 0 } true
        [fullSelect, fullSelect] sampleContext).1.reports).length = 400 := by
  refine ⟨by decide +kernel, by decide +kernel, by decide +kernel⟩

end Hacash
