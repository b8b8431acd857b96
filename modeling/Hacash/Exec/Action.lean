import Hacash.Codec.Action
import Hacash.Exec.Gas
import Hacash.State.Nested

/-!
# Actions and their execution (`base::runtime`, `protocol::exec`)

The dispatcher, the execution context and the nodes `AstSelect` and `AstIf`. A leaf is any function
of what an action can see; the VM is abstract.
-/

namespace Hacash

/-! ## Scopes (scope.rs) -/

/-- `ExecFrom`: what dispatches an action. -/
inductive ExecFrom where
  | top
  | ast
  | call
  deriving DecidableEq, Repr

/-- `TopRule`. -/
inductive TopRule where
  | none
  | only
  | onlyCanWithGuard
  | unique
  deriving DecidableEq, Repr

/-- `ScopeKind`. -/
inductive ScopeKind where
  | top
  | ast
  | guard
  | call
  deriving DecidableEq, Repr

/-- `ActScope`: where an action may stand. -/
structure ActScope where
  kind : ScopeKind
  top : Option TopRule
  allowAst : Bool
  allowCall : Bool
  deriving DecidableEq, Repr

namespace ActScope

/-- `ActScope::AST`, the scope of `AstSelect` and `AstIf`. -/
def ast : ActScope := ⟨.ast, some .none, true, false⟩

/-- `ActScope::CALL`. -/
def anywhere : ActScope := ⟨.call, some .none, true, true⟩

def allows (scope : ActScope) : ExecFrom → Bool
  | .top => scope.top.isSome
  | .ast => scope.allowAst
  | .call => scope.allowCall

def isGuard (scope : ActScope) : Bool := decide (scope.kind = .guard)

def topRule (scope : ActScope) : Option TopRule := scope.top

end ActScope

/-! ## Action trees -/

/-- `ActOut`: the gas of an action and its return data. -/
abbrev ActOut : Type := ℕ × List UInt8

/-- What a leaf action can see of its context. -/
structure LeafView (V W : Type) where
  state : Disk
  gas : TxGasMeter
  volatile : V
  warm : W
  execFrom : ExecFrom

/-- A call of a leaf action on its context. -/
inductive CtxOp where
  | set (k : Key) (v : Val)
  | del (k : Key)
  | emitLog (entry : LogEntry)
  | gasCharge (gas : ℤ)
  | gasRebate (gas : ℤ)

/-- What a leaf action did: its calls in order, failed ones too, the VM after it, and its result. -/
structure LeafRun (V W : Type) where
  ops : List CtxOp
  volatile : V
  warm : W
  result : Ret ActOut

/-- A leaf action. -/
structure Leaf (V W : Type) where
  kind : ℕ
  scope : ActScope
  minTxType : ℕ
  requiredFlags : UInt64
  extra9 : Bool
  run : LeafView V W → LeafRun V W
  reqSign : List AddrOrPtr := []

/-- `Action`: a leaf, an `AstSelect` or an `AstIf`. -/
abbrev Action (V W : Type) : Type := ActionTree (Leaf V W)

namespace Action

variable {V W : Type}

def kind : Action V W → ℕ
  | .leaf act => act.kind
  | .select _ => astSelectKind
  | .astIf .. => astIfKind

def scope : Action V W → ActScope
  | .leaf act => act.scope
  | .select _ => .ast
  | .astIf .. => .ast

def minTxType : Action V W → ℕ
  | .leaf act => act.minTxType
  | .select _ => 3
  | .astIf .. => 3

def requiredFlags : Action V W → UInt64
  | .leaf act => act.requiredFlags
  | .select _ => 0
  | .astIf .. => 0

def extra9 : Action V W → Bool
  | .leaf act => act.extra9
  | .select _ => false
  | .astIf .. => false

end Action

/-! ## Contexts -/

/-- Why a dispatch did not start. -/
inductive Refusal where
  | scope
  | minTxType
  | requiredFlags
  | astDepth
  deriving DecidableEq, Repr

/-- A leaf that has run, with the gas and the warm part of the VM it started with. -/
structure LeafExec (V W : Type) where
  act : Leaf V W
  gas : TxGasMeter
  warm : W
  execFrom : ExecFrom

/-- What has run: a leaf; a refused dispatch; or a child of an AST node, with all that ran in it. -/
inductive Report (V W : Type) where
  | leaf (exec : LeafExec V W)
  | refused (why : Refusal)
  | child (result : Ret ActOut) (inner : List (Report V W))

/-- What the executor takes from its environment. -/
structure Env (V W : Type) where
  disk : Disk
  txType : ℕ
  consensusFlags : UInt64
  astSnapshotTryGas : ℤ
  txActionsMax : ℕ
  checkSigns : Action V W → Ret Unit

/-- `ContextInst`. -/
structure Context (V W : Type) where
  heap : Heap
  chunk : ℕ
  gas : TxGasMeter
  execFrom : ExecFrom
  volatile : V
  warm : W
  reports : List (Report V W)

/-- The error a failed chunk operation is reported as. -/
def ChunkError.toError : ChunkError → Error
  | .astDepthOverflow => .fault "AST execution depth overflow"
  | .astChildNeedsTx => .fault "AST child requires a transaction context"
  | .astParentFinalized => .fault "AST parent chunk is already finalized"
  | .commitNotExec => .fault "only Tx/Ast chunks may commit to a parent"
  | .commitNoParent => .fault "detached execution chunk has no commit parent"
  | .commitBadRelation => .fault "invalid execution chunk parent relationship"
  | .commitParentFinalized => .fault "execution chunk parent is already finalized"
  | .alreadyFinalized => .fault "execution chunk already finalized"
  | .discardNotExec => .fault "only Tx/Ast chunks may be discarded explicitly"
  | _ => .fault "state chunk error"

/-- `u32::saturating_mul`. -/
def satMul32 (a b : ℕ) : ℕ := min (a * b) (2 ^ 32 - 1)

namespace Context

variable {V W : Type}

/-- What an action sees. A chunk with no readable source is a panic; the chunks of a
context are open. -/
def view (disk : Disk) (ctx : Context V W) : LeafView V W where
  state k := (ctx.heap.getState disk ctx.chunk k).getD none
  gas := ctx.gas
  volatile := ctx.volatile
  warm := ctx.warm
  execFrom := ctx.execFrom

def gasCharge (ctx : Context V W) (gas : ℤ) : Context V W × Ret Unit :=
  ({ ctx with gas := (ctx.gas.charge gas).1 }, (ctx.gas.charge gas).2)

/-- One call of a leaf action. A write to a closed chunk is a panic; the chunk of a
context is open. -/
def apply (ctx : Context V W) : CtxOp → Context V W
  | .set k v => { ctx with heap := (ctx.heap.set ctx.chunk k v).getD ctx.heap }
  | .del k => { ctx with heap := (ctx.heap.del ctx.chunk k).getD ctx.heap }
  | .emitLog entry => { ctx with heap := (ctx.heap.emitLog ctx.chunk entry).getD ctx.heap }
  | .gasCharge gas => { ctx with gas := (ctx.gas.charge gas).1 }
  | .gasRebate gas => { ctx with gas := (ctx.gas.rebate gas).1 }

/-- Adds to the record of the innermost scope. -/
def report (ctx : Context V W) (r : Report V W) : Context V W :=
  { ctx with reports := ctx.reports ++ [r] }

/-- `exec_ast_child`: `run` in a chunk of its own, committed if it succeeds. -/
def execAstChild (run : Context V W → Context V W × Ret ActOut) (ctx : Context V W) :
    Context V W × Ret ActOut :=
  match ctx.heap.spawnAstChild ctx.chunk with
  | .error e => (ctx.report (.refused .astDepth), .error e.toError)
  | .ok (child, heap) =>
    let (inner, res) := run { ctx with heap, chunk := child, reports := [] }
    let after : Context V W :=
      { inner with chunk := ctx.chunk, reports := ctx.reports ++ [.child res inner.reports] }
    match res with
    | .ok out =>
      match inner.heap.commitToParent inner.chunk with
      | .ok (_, heap) => ({ after with heap }, .ok out)
      | .error e => (after, .error e.toError)
    | .error err =>
      match inner.heap.discard inner.chunk with
      | .ok heap => ({ after with heap }, .error err)
      | .error e => (after, .error e.toError)

end Context

/-! ## Execution -/

section

variable {V W : Type}

/-- The body of a leaf action. -/
def Leaf.execute (env : Env V W) (act : Leaf V W) (ctx : Context V W) :
    Context V W × Ret ActOut :=
  let r := act.run (ctx.view env.disk)
  let after := r.ops.foldl Context.apply ctx
  ({ after with volatile := r.volatile, warm := r.warm }.report
    (.leaf ⟨act, ctx.gas, ctx.warm, ctx.execFrom⟩), r.result)

/-- `ActionDispatcher::dispatch`, with `execute` the body of the action. -/
def dispatch (env : Env V W) (act : Action V W) (src : ExecFrom)
    (execute : Context V W → Context V W × Ret ActOut) (ctx : Context V W) :
    Context V W × Ret ActOut :=
  if act.scope.allows src = false then
    (ctx.report (.refused .scope), errf "action kind scope does not allow")
  else if env.txType < act.minTxType then
    (ctx.report (.refused .minTxType), errf "action kind requires tx type")
  else if act.requiredFlags &&& ~~~env.consensusFlags ≠ 0 then
    (ctx.report (.refused .requiredFlags), errf "action kind not activated")
  else
    match env.checkSigns act with
    | .error e => (ctx, .error e)
    | .ok _ =>
      let (after, res) := execute { ctx with execFrom := src }
      ({ after with execFrom := ctx.execFrom }, res)

/-- The extra charge of an action marked `extra9`, after it returned `out`. -/
def chargeExtra9 (act : Action V W) (out : ActOut) (ctx : Context V W) :
    Context V W × Ret ActOut :=
  if act.extra9 then
    match ctx.gasCharge (satMul32 out.1 9) with
    | (ctx, .error e) => (ctx, .error e)
    | (ctx, .ok _) => (ctx, .ok out)
  else (ctx, .ok out)

/-- The closure of `run_ast_child`: the dispatch and the extra charge. -/
def dispatchAst (env : Env V W) (act : Action V W)
    (execute : Context V W → Context V W × Ret ActOut) (ctx : Context V W) :
    Context V W × Ret ActOut :=
  match dispatch env act .ast execute ctx with
  | (ctx, .error e) => (ctx, .error e)
  | (ctx, .ok out) => chargeExtra9 act out ctx

def runAstChild (env : Env V W) (act : Action V W)
    (execute : Context V W → Context V W × Ret ActOut) (ctx : Context V W) :
    Context V W × Ret ActOut :=
  match ctx.gasCharge env.astSnapshotTryGas with
  | (ctx, .error e) => (ctx, .error e)
  | (ctx, .ok _) =>
    -- the two snapshots: `snapshot_volatile` of the context and of the VM
    let gasSnap := ctx.gas.rebated
    let vmSnap := ctx.volatile
    match ctx.execAstChild (dispatchAst env act execute) with
    | (ctx, .ok out) => (ctx, .ok out)
    | (ctx, .error e) =>
      if e.isRevert then
        ({ ctx with volatile := vmSnap, gas := ctx.gas.restoreRebated gasSnap }, .error e)
      else (ctx, .error e)

def validateAstSelect (min max num maxActions : ℕ) : Ret Unit := do
  ensure (min ≤ max) (.fault "action ast select max cannot be less than min")
  ensure (max ≤ num) (.fault "action ast select max cannot exceed list num")
  ensure (num ≤ maxActions) (.fault "action ast select num cannot exceed")

mutual

def Action.execute (env : Env V W) : Action V W → Context V W → Context V W × Ret ActOut
  | .leaf act, ctx => act.execute env ctx
  | .select sel, ctx => executeSelect env sel ctx
  | .astIf cond brIf brElse, ctx =>
    match runAstChild env (.select cond) (executeSelect env cond) ctx with
    | (ctx, .ok _) =>
      match runAstChild env (.select brIf) (executeSelect env brIf) ctx with
      | (ctx, .ok (_, ret)) => (ctx, .ok (0, ret))
      | (ctx, .error e) => (ctx, .error e)
    | (ctx, .error e) =>
      if e.isRevert then
        match runAstChild env (.select brElse) (executeSelect env brElse) ctx with
        | (ctx, .ok (_, ret)) => (ctx, .ok (0, ret))
        | (ctx, .error e) => (ctx, .error e)
      else (ctx, .error e)

/-- `AstSelect::execute`. -/
def executeSelect (env : Env V W) :
    AstSelect (Action V W) → Context V W → Context V W × Ret ActOut
  | ⟨exeMin, exeMax, actions⟩, ctx =>
    match validateAstSelect exeMin.uint exeMax.uint actions.length env.txActionsMax with
    | .error e => (ctx, .error e)
    | .ok _ =>
      match selectLoop env exeMax.uint actions 0 [] ctx with
      | (ctx, .error e) => (ctx, .error e)
      | (ctx, .ok (count, last)) =>
        if count < exeMin.uint then (ctx, revertf "action ast select must succeed at least")
        else (ctx, .ok (0, last))

/-- The loop of `AstSelect::execute`: how many children succeeded, and the data of the last. -/
def selectLoop (env : Env V W) (exeMax : ℕ) :
    List (Action V W) → ℕ → List UInt8 → Context V W → Context V W × Ret (ℕ × List UInt8)
  | [], count, last, ctx => (ctx, .ok (count, last))
  | act :: rest, count, last, ctx =>
    if exeMax ≤ count then (ctx, .ok (count, last))
    else
      match runAstChild env act (act.execute env) ctx with
      | (ctx, .ok (_, ret)) => selectLoop env exeMax rest (count + 1) ret ctx
      | (ctx, .error e) =>
        if e.isRevert then selectLoop env exeMax rest count last ctx
        else (ctx, .error e)

end

/-- `dispatch_top`, or `dispatch_top_without_extra9`. -/
def dispatchTop (env : Env V W) (withExtra9 : Bool) (act : Action V W) (ctx : Context V W) :
    Context V W × Ret ActOut :=
  match dispatch env act .top (act.execute env) ctx with
  | (ctx, .error e) => (ctx, .error e)
  | (ctx, .ok out) => if withExtra9 then chargeExtra9 act out ctx else (ctx, .ok out)

/-- `execute_actions`: the actions of a transaction in order. The first error ends the
transaction. -/
def executeActions (env : Env V W) (withExtra9 : Bool) :
    List (Action V W) → Context V W → Context V W × Ret Unit
  | [], ctx => (ctx, .ok ())
  | act :: rest, ctx =>
    match dispatchTop env withExtra9 act { ctx with execFrom := .top } with
    | (ctx, .error e) => (ctx, .error e)
    | (ctx, .ok _) => executeActions env withExtra9 rest ctx

end

end Hacash
