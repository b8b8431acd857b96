import Hacash.Exec.Action

/-!
# AST control flow is transactional

The reference executes the leaves that survive, one after another, on a single layer (`replay`).
**Key result**: `ast_transactional`.
-/

namespace Hacash

open List Context Nested Report Hacash.Action TxGasMeter

variable {V W : Type}

/-! ## What a run has done -/

mutual

/-- The leaves in a report whose enclosing children all succeeded. -/
def Report.survivors : Report V W → List (LeafExec V W)
  | .leaf exec => [exec]
  | .refused _ => []
  | .child (.ok _) inner => survivors inner
  | .child (.error _) _ => []

/-- The surviving leaves of a list of reports, in order. -/
def survivors : List (Report V W) → List (LeafExec V W)
  | [] => []
  | r :: rs => r.survivors ++ survivors rs

end

mutual

/-- The errors of the children in a report, at any depth. -/
def Report.childErrors : Report V W → List Error
  | .leaf _ => []
  | .refused _ => []
  | .child (.ok _) inner => childErrors inner
  | .child (.error e) inner => e :: childErrors inner

/-- The errors of the children in a list of reports. -/
def childErrors : List (Report V W) → List Error
  | [] => []
  | r :: rs => r.childErrors ++ childErrors rs

end

theorem survivors_append (rs rs' : List (Report V W)) :
    survivors (rs ++ rs') = survivors rs ++ survivors rs' := by
  induction rs with
  | nil => rfl
  | cons r rs ih => rw [cons_append, survivors, survivors, ih, append_assoc]

theorem childErrors_append (rs rs' : List (Report V W)) :
    childErrors (rs ++ rs') = childErrors rs ++ childErrors rs' := by
  induction rs with
  | nil => rfl
  | cons r rs ih => rw [cons_append, childErrors, childErrors, ih, append_assoc]

/-! ## The reference -/

/-- All that a rollback takes back: a layer of state and logs, rebated gas and the volatile VM. -/
structure Flat (V : Type) where
  layer : Layer
  rebated : ℤ
  volatile : V

open Flat

/-- A call of a leaf, on one layer and a gas meter. -/
def Layer.apply : Layer × TxGasMeter → CtxOp → Layer × TxGasMeter
  | (ℓ, gas), .set k v => ({ ℓ with state := ℓ.state.put k v }, gas)
  | (ℓ, gas), .del k => ({ ℓ with state := ℓ.state.del k }, gas)
  | (ℓ, gas), .emitLog entry => ({ ℓ with logs := ℓ.logs ++ [entry] }, gas)
  | (ℓ, gas), .gasCharge n => (ℓ, (gas.charge n).1)
  | (ℓ, gas), .gasRebate n => (ℓ, (gas.rebate n).1)

/-- One leaf on a layer over `below`, with the gas and the warm part of the VM it had in the run. -/
def Flat.leaf (below : Disk) (s : Flat V) (exec : LeafExec V W) : Flat V :=
  let gas := exec.gas.restoreRebated s.rebated
  let r := exec.act.run ⟨s.layer.state.apply below, gas, s.volatile, exec.warm, exec.execFrom⟩
  let after := r.ops.foldl Layer.apply (s.layer, gas)
  ⟨after.1, after.2.rebated, r.volatile⟩

/-- The leaves of a list, executed in order with no child around them. -/
def replay (below : Disk) (s : Flat V) (execs : List (LeafExec V W)) : Flat V :=
  execs.foldl (leaf below) s

theorem replay_append (below : Disk) (s : Flat V) (xs ys : List (LeafExec V W)) :
    replay below s (xs ++ ys) = replay below (replay below s xs) ys := foldl_append ..

/-! ### A layer of its own makes no difference -/

/-- A child's layer merged into its parent's. -/
def Flat.onto (parent : Layer) (s : Flat V) : Flat V := { s with layer := parent.absorb s.layer }

theorem Layer.apply_scope (s : Layer × TxGasMeter) (op : CtxOp) :
    (Layer.apply s op).1.scope = s.1.scope := by
  cases op <;> rfl

theorem Layer.foldl_apply_scope (ops : List CtxOp) (s : Layer × TxGasMeter) :
    (ops.foldl Layer.apply s).1.scope = s.1.scope := by
  induction ops generalizing s with
  | nil => rfl
  | cons op ops ih => rw [foldl_cons, ih, apply_scope]

theorem Layer.apply_absorb (parent : Layer) (s : Layer × TxGasMeter) (op : CtxOp) :
    Layer.apply (parent.absorb s.1, s.2) op
      = (parent.absorb (Layer.apply s op).1, (Layer.apply s op).2) := by
  obtain ⟨ℓ, gas⟩ := s
  cases op with
  | set k v => simp only [apply, absorb, Lib.Overlay.put_onto]
  | del k => simp only [apply, absorb, Lib.Overlay.del_onto]
  | emitLog entry => simp only [apply, absorb, append_assoc]
  | gasCharge n | gasRebate n => rfl

theorem Layer.foldl_apply_absorb (parent : Layer) (ops : List CtxOp) (s : Layer × TxGasMeter) :
    ops.foldl Layer.apply (parent.absorb s.1, s.2)
      = (parent.absorb (ops.foldl Layer.apply s).1, (ops.foldl Layer.apply s).2) := by
  induction ops generalizing s with
  | nil => rfl
  | cons op ops ih => rw [foldl_cons, foldl_cons, apply_absorb, ih]

theorem Flat.leaf_onto (below : Disk) (parent : Layer) (s : Flat V) (exec : LeafExec V W) :
    (s.onto parent).leaf below exec = (s.leaf (parent.state.apply below) exec).onto parent := by
  have hread : (parent.absorb s.layer).state.apply below
      = s.layer.state.apply (parent.state.apply below) := Lib.Overlay.apply_onto ..
  simp only [leaf, onto, hread]
  rw [Layer.foldl_apply_absorb parent _ (s.layer, _)]

/-- **Leaves executed in a child and committed are leaves executed in the parent.** -/
theorem replay_onto (below : Disk) (parent : Layer) (s : Flat V) (execs : List (LeafExec V W)) :
    replay below (s.onto parent) execs
      = (replay (parent.state.apply below) s execs).onto parent := by
  induction execs generalizing s with
  | nil => rfl
  | cons exec execs ih =>
    rw [replay, replay, foldl_cons, foldl_cons, leaf_onto]
    exact ih _

theorem Layer.absorb_fresh {parent : Layer} {scope : Scope}
    (h : parent.scope.inner = some scope) : parent.absorb (.fresh scope) = parent := by
  have hhashes : scope.hashes = [] := by
    cases hs : parent.scope with
    | block => rw [hs] at h; cases h
    | tx txHash => rw [hs] at h; cases h; rfl
    | ast depth =>
      rw [hs, Scope.inner] at h
      split_ifs at h
      cases h
      rfl
  simp only [absorb, fresh, Lib.Overlay.empty_onto, append_nil, hhashes]

/-! ## One piece of the executor -/

/-- What the reference knows of a context whose top layer is `ℓ`. -/
def Context.flat (ctx : Context V W) (ℓ : Layer) : Flat V := ⟨ℓ, ctx.gas.rebated, ctx.volatile⟩

/-- From `ctx` with top layer `ℓ` to `ctx'` with `ℓ'`: the chunks below are the same, gas was only
used up, and `new` is what has run. -/
structure Ran (disk base : Disk) (ps : List ℕ) (ls : List Layer) (ctx : Context V W) (ℓ : Layer)
    (ctx' : Context V W) (ℓ' : Layer) (new : List (Report V W)) : Prop where
  layered : Layered disk base ctx'.heap (ctx'.chunk :: ps) (ℓ' :: ls)
  scope : ℓ'.scope = ℓ.scope
  chunk : ctx'.chunk = ctx.chunk
  execFrom : ctx'.execFrom = ctx.execFrom
  used : ctx.gas.used ≤ ctx'.gas.used
  reports : ctx'.reports = ctx.reports ++ new

/-- An error of a child that is no revert is the result. -/
def Aborts {α : Type} (new : List (Report V W)) (res : Ret α) : Prop :=
  ∀ e ∈ childErrors new, e.isRevert = false → res = .error e

/-- The results after which an AST node goes on: success and revert. -/
def Ret.soft {α : Type} : Ret α → Prop
  | .ok _ => True
  | .error e => e.isRevert = true

/-- After a result that `keeps`, what a rollback could take back is what the reference makes of the
survivors; and no hard error of a child is lost. -/
def Transacts (disk base : Disk) {α : Type} (keeps : Ret α → Prop)
    (run : Context V W → Context V W × Ret α) : Prop :=
  ∀ ⦃ctx ps ℓ ls⦄, Layered disk base ctx.heap (ctx.chunk :: ps) (ℓ :: ls) →
    ∃ ℓ' new, Ran disk base ps ls ctx ℓ (run ctx).1 ℓ' new ∧
      (keeps (run ctx).2 → (run ctx).1.flat ℓ'
        = replay (read base ls) (ctx.flat ℓ) (survivors new)) ∧
      Aborts new (run ctx).2

/-- The results of a body that are kept. -/
def Ret.succeeds {α : Type} (res : Ret α) : Prop := res.isOk = true

section

variable {disk base : Disk} {ps : List ℕ} {ls : List Layer} {ℓ ℓ' ℓ'' : Layer}
  {ctx ctx' ctx'' : Context V W} {new new' : List (Report V W)} {α β : Type}

theorem Ran.rfl' (hl : Layered disk base ctx.heap (ctx.chunk :: ps) (ℓ :: ls)) :
    Ran disk base ps ls ctx ℓ ctx ℓ [] where
  layered := hl
  scope := rfl
  chunk := rfl
  execFrom := rfl
  used := le_rfl
  reports := (append_nil _).symm

theorem Ran.trans (r : Ran disk base ps ls ctx ℓ ctx' ℓ' new)
    (r' : Ran disk base ps ls ctx' ℓ' ctx'' ℓ'' new') :
    Ran disk base ps ls ctx ℓ ctx'' ℓ'' (new ++ new') where
  layered := r'.layered
  scope := r'.scope.trans r.scope
  chunk := r'.chunk.trans r.chunk
  execFrom := r'.execFrom.trans r.execFrom
  used := r.used.trans r'.used
  reports := by rw [r'.reports, r.reports, append_assoc]

theorem aborts_nil (res : Ret α) : Aborts ([] : List (Report V W)) res := by
  intro e he
  cases he

/-- After a soft result no child has failed hard. -/
theorem Aborts.of_soft {res : Ret α} (h : Aborts new res) (hsoft : Ret.soft res)
    (res' : Ret β) : Aborts new res' := by
  intro e he hrev
  rw [h e he hrev] at hsoft
  rw [Ret.soft, hrev] at hsoft
  cases hsoft

theorem Aborts.append {res : Ret α} (h : Aborts new res) (h' : Aborts new' res) :
    Aborts (new ++ new') res := by
  intro e he
  rw [childErrors_append, mem_append] at he
  rcases he with he | he
  · exact h e he
  · exact h' e he

/-- The same error in another type. -/
theorem Aborts.error {e : Error} (h : Aborts new (.error e : Ret α)) :
    Aborts new (.error e : Ret β) := by
  intro e' he' hrev
  cases h e' he' hrev
  rfl

theorem TxGasMeter.charge_used (m : TxGasMeter) (gas : ℤ) : m.used ≤ (m.charge gas).1.used := by
  rw [charge]
  dsimp only
  split_ifs with hneg
  all_goals first | exact le_rfl | (dsimp only; omega)

theorem TxGasMeter.charge_rebated (m : TxGasMeter) (gas : ℤ) :
    (m.charge gas).1.rebated = m.rebated := by
  rw [charge]
  dsimp only
  split_ifs <;> rfl

theorem TxGasMeter.rebate_used (m : TxGasMeter) (gas : ℤ) : (m.rebate gas).1.used = m.used := by
  rw [rebate]
  split_ifs <;> rfl

/-! ### Leaves -/

/-- What a call of a leaf does to the open chunks. -/
structure Applied (disk base : Disk) (ps : List ℕ) (ls : List Layer) (ctx : Context V W)
    (ctx' : Context V W) (s : Layer × TxGasMeter) : Prop where
  layered : Layered disk base ctx'.heap (ctx'.chunk :: ps) (s.1 :: ls)
  gas : ctx'.gas = s.2
  chunk : ctx'.chunk = ctx.chunk
  execFrom : ctx'.execFrom = ctx.execFrom
  used : ctx.gas.used ≤ ctx'.gas.used
  reports : ctx'.reports = ctx.reports

theorem apply_applied (op : CtxOp) (hl : Layered disk base ctx.heap (ctx.chunk :: ps) (ℓ :: ls)) :
    Applied disk base ps ls ctx (ctx.apply op) (Layer.apply (ℓ, ctx.gas) op) := by
  have hwrite : ∀ {h' : Heap} {s : Layer}, Layered disk base h' (ctx.chunk :: ps) (s :: ls) →
      Applied disk base ps ls ctx { ctx with heap := h' } (s, ctx.gas) :=
    fun hl' => ⟨hl', rfl, rfl, rfl, le_rfl, rfl⟩
  cases op with
  | set k v =>
    obtain ⟨h', hset, hl'⟩ := hl.writeTop (f := fun δ => { δ with state := δ.state.put k v })
      (g := fun ℓ => { ℓ with state := ℓ.state.put k v }) (fun _ => rfl) (fun _ => rfl)
    rw [apply, Heap.set, hset, Option.getD_some]
    exact hwrite hl'
  | del k =>
    obtain ⟨h', hset, hl'⟩ := hl.writeTop (f := fun δ => { δ with state := δ.state.del k })
      (g := fun ℓ => { ℓ with state := ℓ.state.del k }) (fun _ => rfl) (fun _ => rfl)
    rw [apply, Heap.del, hset, Option.getD_some]
    exact hwrite hl'
  | emitLog entry =>
    obtain ⟨h', hset, hl'⟩ := hl.writeTop (f := fun δ => { δ with logs := δ.logs ++ [entry] })
      (g := fun ℓ => { ℓ with logs := ℓ.logs ++ [entry] }) (fun _ => rfl) (fun _ => rfl)
    rw [apply, Heap.emitLog, hset, Option.getD_some]
    exact hwrite hl'
  | gasCharge n => exact ⟨hl, rfl, rfl, rfl, ctx.gas.charge_used n, rfl⟩
  | gasRebate n => exact ⟨hl, rfl, rfl, rfl, (ctx.gas.rebate_used n).ge, rfl⟩

theorem foldl_applied (ops : List CtxOp) :
    ∀ {ctx : Context V W} {ℓ : Layer},
      Layered disk base ctx.heap (ctx.chunk :: ps) (ℓ :: ls) →
      Applied disk base ps ls ctx (ops.foldl apply ctx) (ops.foldl Layer.apply (ℓ, ctx.gas)) := by
  induction ops with
  | nil => exact fun hl => ⟨hl, rfl, rfl, rfl, le_rfl, rfl⟩
  | cons op ops ih =>
    intro ctx ℓ hl
    have hop := apply_applied op hl
    have hrest := ih hop.layered
    rw [foldl_cons, foldl_cons]
    rw [hop.gas] at hrest
    exact {
      layered := hrest.layered
      gas := hrest.gas
      chunk := hrest.chunk.trans hop.chunk
      execFrom := hrest.execFrom.trans hop.execFrom
      used := hop.used.trans hrest.used
      reports := hrest.reports.trans hop.reports }

theorem view_eq (hl : Layered disk base ctx.heap (ctx.chunk :: ps) (ℓ :: ls)) :
    ctx.view disk = ⟨ℓ.state.apply (read base ls), ctx.gas, ctx.volatile, ctx.warm,
      ctx.execFrom⟩ := by
  have hstate : (fun k => (ctx.heap.getState disk ctx.chunk k).getD none)
      = ℓ.state.apply (read base ls) := by
    funext k
    rw [hl.getState_top, Option.getD_some]
    rfl
  rw [view, hstate]

/-- **A leaf is what the reference makes of it**, whatever it returns. -/
theorem leaf_transacts (env : Env V W) (act : Leaf V W) (base : Disk) (keeps : Ret ActOut → Prop) :
    Transacts env.disk base keeps (act.execute env) := by
  intro ctx ps ℓ ls hl
  have happ := foldl_applied (act.run (ctx.view env.disk)).ops hl
  refine ⟨((act.run (ctx.view env.disk)).ops.foldl Layer.apply (ℓ, ctx.gas)).1,
    [.leaf ⟨act, ctx.gas, ctx.warm, ctx.execFrom⟩], ?_, fun _ => ?_, ?_⟩
  · exact {
      layered := happ.layered
      scope := Layer.foldl_apply_scope _ _
      chunk := happ.chunk
      execFrom := happ.execFrom
      used := happ.used
      reports := congrArg (· ++ _) happ.reports }
  · have hgas := happ.gas
    rw [view_eq hl] at hgas
    simp only [Leaf.execute, report, flat, survivors, append_nil, replay, view_eq hl, hgas]
    rfl
  · intro e he
    simp only [childErrors, Report.childErrors, append_nil, not_mem_nil] at he

/-! ### Dispatch and charges -/

/-- A refused dispatch runs nothing. -/
theorem refused_ran (why : Refusal) (hl : Layered disk base ctx.heap (ctx.chunk :: ps) (ℓ :: ls)) :
    Ran disk base ps ls ctx ℓ (ctx.report (.refused why)) ℓ [.refused why] :=
  { Ran.rfl' hl with reports := rfl }

theorem refused_aborts (why : Refusal) (res : Ret α) :
    Aborts ([.refused why] : List (Report V W)) res := by
  intro e he
  simp only [childErrors, Report.childErrors, append_nil, not_mem_nil] at he

theorem not_succeeds_error (e : Error) : ¬ Ret.succeeds (.error e : Ret α) := Bool.false_ne_true

variable {execute : Context V W → Context V W × Ret ActOut}

theorem dispatch_transacts (env : Env V W) (act : Action V W) (src : ExecFrom)
    (hexec : Transacts env.disk base Ret.succeeds execute) :
    Transacts env.disk base Ret.succeeds (dispatch env act src execute) := by
  intro ctx ps ℓ ls hl
  have hrefused : ∀ (why : Refusal) (e : Error), dispatch env act src execute ctx
      = (ctx.report (.refused why), .error e) → ∃ ℓ' new,
        Ran env.disk base ps ls ctx ℓ (dispatch env act src execute ctx).1 ℓ' new ∧
        (Ret.succeeds (dispatch env act src execute ctx).2 →
          (dispatch env act src execute ctx).1.flat ℓ'
            = replay (read base ls) (ctx.flat ℓ) (survivors new)) ∧
        Aborts new (dispatch env act src execute ctx).2 := by
    intro why e heq
    rw [heq]
    exact ⟨ℓ, [.refused why], refused_ran why hl, fun h => absurd h (not_succeeds_error e),
      refused_aborts why _⟩
  by_cases hscope : act.scope.allows src = false
  · exact hrefused .scope _ (by rw [dispatch, if_pos hscope]; rfl)
  by_cases htype : env.txType < act.minTxType
  · exact hrefused .minTxType _ (by rw [dispatch, if_neg hscope, if_pos htype]; rfl)
  by_cases hflags : act.requiredFlags &&& ~~~env.consensusFlags ≠ 0
  · exact hrefused .requiredFlags _
      (by rw [dispatch, if_neg hscope, if_neg htype, if_pos hflags]; rfl)
  rw [dispatch, if_neg hscope, if_neg htype, if_neg hflags]
  cases env.checkSigns act with
  | error e =>
    exact ⟨ℓ, [], Ran.rfl' hl, fun h => absurd h (not_succeeds_error e), aborts_nil _⟩
  | ok _ =>
    obtain ⟨ℓ', new, hran, hkeep, habort⟩ := @hexec { ctx with execFrom := src } _ _ _ hl
    exact ⟨ℓ', new, { hran with execFrom := rfl }, hkeep, habort⟩

theorem gasCharge_ran (gas : ℤ) (hl : Layered disk base ctx.heap (ctx.chunk :: ps) (ℓ :: ls)) :
    Ran disk base ps ls ctx ℓ (ctx.gasCharge gas).1 ℓ [] :=
  { Ran.rfl' hl with used := ctx.gas.charge_used gas }

theorem gasCharge_flat (ctx : Context V W) (gas : ℤ) (ℓ : Layer) :
    (ctx.gasCharge gas).1.flat ℓ = ctx.flat ℓ := by
  simp only [gasCharge, flat, ctx.gas.charge_rebated gas]

theorem chargeExtra9_transacts (act : Action V W) (out : ActOut) (keeps : Ret ActOut → Prop) :
    Transacts disk base keeps (chargeExtra9 act out) := by
  intro ctx ps ℓ ls hl
  have hctx : (chargeExtra9 act out ctx).1 = (ctx.gasCharge (satMul32 out.1 9)).1 ∨
      (chargeExtra9 act out ctx).1 = ctx := by
    rw [chargeExtra9]
    by_cases hx : act.extra9
    · rw [if_pos hx]
      generalize ctx.gasCharge (satMul32 out.1 9) = r
      obtain ⟨after, res⟩ := r
      cases res <;> exact Or.inl rfl
    · rw [if_neg hx]
      exact Or.inr rfl
  rcases hctx with hctx | hctx
  · rw [hctx]
    exact ⟨ℓ, [], gasCharge_ran _ hl, fun _ => gasCharge_flat ctx _ ℓ, aborts_nil _⟩
  · rw [hctx]
    exact ⟨ℓ, [], Ran.rfl' hl, fun _ => rfl, aborts_nil _⟩

theorem Transacts.seq {first : Context V W → Context V W × Ret α}
    {run : Context V W → Context V W × Ret β}
    (second : α → Context V W → Context V W × Ret β)
    (h₁ : Transacts disk base Ret.succeeds first)
    (h₂ : ∀ a, Transacts disk base Ret.succeeds (second a))
    (hrun : ∀ ctx, run ctx = match first ctx with
      | (ctx, .error e) => (ctx, .error e)
      | (ctx, .ok a) => second a ctx) :
    Transacts disk base Ret.succeeds run := by
  intro ctx ps ℓ ls hl
  obtain ⟨ℓ₁, new₁, hran₁, hkeep₁, habort₁⟩ := h₁ hl
  rw [hrun]
  revert hran₁ hkeep₁ habort₁
  generalize first ctx = r
  obtain ⟨ctx₁, res⟩ := r
  intro hran₁ hkeep₁ habort₁
  cases res with
  | error e =>
    exact ⟨ℓ₁, new₁, hran₁, fun h => absurd h (not_succeeds_error e), habort₁.error⟩
  | ok a =>
    obtain ⟨ℓ₂, new₂, hran₂, hkeep₂, habort₂⟩ := h₂ a hran₁.layered
    refine ⟨ℓ₂, new₁ ++ new₂, hran₁.trans hran₂, fun h => ?_,
      (habort₁.of_soft trivial _).append habort₂⟩
    rw [hkeep₂ h, hkeep₁ rfl, survivors_append, replay_append]

theorem dispatchAst_transacts (env : Env V W) (act : Action V W)
    (hexec : Transacts env.disk base Ret.succeeds execute) :
    Transacts env.disk base Ret.succeeds (dispatchAst env act execute) :=
  (dispatch_transacts env act .ast hexec).seq (chargeExtra9 act)
    (fun out => chargeExtra9_transacts act out Ret.succeeds) fun ctx => by
      rw [dispatchAst]
      rcases dispatch env act .ast execute ctx with ⟨_, _ | _⟩ <;> rfl

/-! ### Children -/

theorem execAstChild_ran {run : Context V W → Context V W × Ret ActOut}
    (hrun : Transacts disk base Ret.succeeds run)
    (hl : Layered disk base ctx.heap (ctx.chunk :: ps) (ℓ :: ls)) :
    ∃ ℓ' new, Ran disk base ps ls ctx ℓ (ctx.execAstChild run).1 ℓ' new ∧
      (∀ out, (ctx.execAstChild run).2 = .ok out → (ctx.execAstChild run).1.flat ℓ'
        = replay (read base ls) (ctx.flat ℓ) (survivors new)) ∧
      (∀ e, (ctx.execAstChild run).2 = .error e → ℓ' = ℓ ∧ survivors new = []) ∧
      Aborts new (ctx.execAstChild run).2 := by
  rcases hl.spawnAst with ⟨q, h', scope, hspawn, hinner, hl'⟩ | ⟨e, hspawn, -⟩
  · obtain ⟨ℓc, inner, hran, hkeep, habort⟩ :=
      @hrun { ctx with heap := h', chunk := q, reports := [] } _ _ _ hl'
    simp only [execAstChild, hspawn]
    revert hran hkeep habort
    generalize run { ctx with heap := h', chunk := q, reports := [] } = r
    obtain ⟨after, res⟩ := r
    intro hran hkeep habort
    dsimp only at hran hkeep habort
    have hreports : after.reports = inner := hran.reports
    have hlc := hran.layered
    cases res with
    | ok out =>
      obtain ⟨h'', hcommit, hl''⟩ := hlc.commitTop
      simp only [hcommit]
      refine ⟨ℓ.absorb ℓc, [.child (.ok out) inner], ?_, fun _ _ => ?_, fun e he => ?_, ?_⟩
      · exact ⟨hl'', rfl, rfl, hran.execFrom, hran.used, by rw [hreports]⟩
      · -- the child started on a fresh layer, which is no layer once merged
        have hmerged := congrArg (onto ℓ) (hkeep rfl)
        rw [Nested.read, ← replay_onto] at hmerged
        simp only [onto, flat, Layer.absorb_fresh hinner] at hmerged
        simp only [survivors, survivors, append_nil]
        exact hmerged
      · cases he
      · intro e he hrev
        simp only [childErrors, childErrors, append_nil] at he
        exact absurd (habort e he hrev) (by simp)
    | error err =>
      obtain ⟨h'', hdiscard, hl''⟩ := hlc.discardTop
      simp only [hdiscard]
      refine ⟨ℓ, [.child (.error err) inner], ?_, fun _ h => ?_, fun _ _ => ⟨rfl, rfl⟩, ?_⟩
      · exact ⟨hl'', rfl, rfl, hran.execFrom, hran.used, by rw [hreports]⟩
      · cases h
      · intro e he hrev
        simp only [childErrors, Report.childErrors, append_nil, mem_cons] at he
        rcases he with rfl | he
        · rfl
        · exact habort e he hrev
  · simp only [execAstChild, hspawn]
    refine ⟨ℓ, [.refused .astDepth], refused_ran _ hl, fun _ h => ?_, fun _ _ => ⟨rfl, rfl⟩,
      refused_aborts _ _⟩
    cases h

/-- **One child of an AST node.** If it succeeded it has done what its survivors do, if it reverted
nothing; a hard error of anything in it is its result. -/
theorem runAstChild_ran (env : Env V W) (act : Action V W)
    (hexec : Transacts env.disk base Ret.succeeds execute)
    (hl : Layered env.disk base ctx.heap (ctx.chunk :: ps) (ℓ :: ls)) :
    ∃ ℓ' new, Ran env.disk base ps ls ctx ℓ (runAstChild env act execute ctx).1 ℓ' new ∧
      (Ret.soft (runAstChild env act execute ctx).2 →
        (runAstChild env act execute ctx).1.flat ℓ'
          = replay (read base ls) (ctx.flat ℓ) (survivors new)) ∧
      (∀ e, (runAstChild env act execute ctx).2 = .error e → survivors new = []) ∧
      Aborts new (runAstChild env act execute ctx).2 := by
  have hcharge := gasCharge_ran env.astSnapshotTryGas hl
  have hflat := gasCharge_flat ctx env.astSnapshotTryGas ℓ
  rw [runAstChild]
  revert hcharge hflat
  generalize ctx.gasCharge env.astSnapshotTryGas = r
  obtain ⟨ctx₁, res⟩ := r
  intro hcharge hflat
  dsimp only at hcharge hflat
  cases res with
  | error e =>
    exact ⟨ℓ, [], hcharge, fun _ => hflat, fun _ _ => rfl, aborts_nil _⟩
  | ok _ =>
    obtain ⟨ℓ', new, hran, hkeep, hfail, habort⟩ :=
      execAstChild_ran (dispatchAst_transacts env act hexec) hcharge.layered
    have hran₂ := hcharge.trans hran
    rw [nil_append] at hran₂
    dsimp only
    revert hran₂ hkeep hfail habort
    generalize ctx₁.execAstChild (dispatchAst env act execute) = r
    obtain ⟨ctx₂, res⟩ := r
    intro hkeep hfail habort hran₂
    dsimp only at hran₂ hkeep hfail habort ⊢
    cases res with
    | ok out =>
      refine ⟨ℓ', new, hran₂, fun _ => ?_, fun e he => ?_, habort⟩
      · rw [← hflat]
        exact hkeep out rfl
      · cases he
    | error e =>
      obtain ⟨rfl, hnone⟩ := hfail e rfl
      dsimp only
      by_cases hrev : e.isRevert = true
      · -- the rollback: the layer is gone with its chunk, rebate and VM are written back
        rw [if_pos hrev]
        refine ⟨ℓ', new, { hran₂ with }, fun _ => ?_, fun _ _ => hnone, habort⟩
        rw [hnone, ← hflat]
        rfl
      · rw [if_neg hrev]
        exact ⟨ℓ', new, hran₂, fun hsoft => absurd hsoft hrev, fun _ _ => hnone, habort⟩

/-- Keeping less. -/
theorem Transacts.succeeds {run : Context V W → Context V W × Ret α}
    (h : Transacts disk base Ret.soft run) : Transacts disk base Ret.succeeds run := by
  intro ctx ps ℓ ls hl
  obtain ⟨ℓ', new, hran, hkeep, habort⟩ := h hl
  refine ⟨ℓ', new, hran, fun hok => hkeep ?_, habort⟩
  cases hres : (run ctx).2 with
  | ok a => trivial
  | error e => rw [hres] at hok; cases hok

theorem runAstChild_transacts (env : Env V W) (act : Action V W)
    (hexec : Transacts env.disk base Ret.succeeds execute) :
    Transacts env.disk base Ret.soft (runAstChild env act execute) := by
  intro ctx ps ℓ ls hl
  obtain ⟨ℓ', new, hran, hkeep, -, habort⟩ := runAstChild_ran env act hexec hl
  exact ⟨ℓ', new, hran, hkeep, habort⟩

/-- A child and what the node does after it: `next` on success, `other` on a revert, else nothing.
-/
theorem Transacts.child {first : Context V W → Context V W × Ret α}
    {next : α → Context V W → Context V W × Ret β} {other : Context V W → Context V W × Ret β}
    {run : Context V W → Context V W × Ret β}
    (h₁ : Transacts disk base Ret.soft first)
    (hnext : ∀ a, Transacts disk base Ret.succeeds (next a))
    (hother : Transacts disk base Ret.succeeds other)
    (hrun : ∀ ctx, run ctx = match first ctx with
      | (ctx, .ok a) => next a ctx
      | (ctx, .error e) => if e.isRevert then other ctx else (ctx, .error e)) :
    Transacts disk base Ret.succeeds run := by
  intro ctx ps ℓ ls hl
  obtain ⟨ℓ₁, new₁, hran₁, hkeep₁, habort₁⟩ := h₁ hl
  rw [hrun]
  revert hran₁ hkeep₁ habort₁
  generalize first ctx = r
  obtain ⟨ctx₁, res⟩ := r
  intro hran₁ hkeep₁ habort₁
  dsimp only at hran₁ hkeep₁ habort₁ ⊢
  -- after a soft result the rest runs on what the reference has made of the child
  have hrest : ∀ {rest : Context V W → Context V W × Ret β}, Ret.soft res →
      Transacts disk base Ret.succeeds rest → ∃ ℓ' new,
        Ran disk base ps ls ctx ℓ (rest ctx₁).1 ℓ' new ∧
        (Ret.succeeds (rest ctx₁).2 → (rest ctx₁).1.flat ℓ'
          = replay (read base ls) (ctx.flat ℓ) (survivors new)) ∧
        Aborts new (rest ctx₁).2 := by
    intro rest hsoft h₂
    obtain ⟨ℓ₂, new₂, hran₂, hkeep₂, habort₂⟩ := h₂ hran₁.layered
    refine ⟨ℓ₂, new₁ ++ new₂, hran₁.trans hran₂, fun h => ?_,
      (habort₁.of_soft hsoft _).append habort₂⟩
    rw [hkeep₂ h, hkeep₁ hsoft, survivors_append, replay_append]
  cases res with
  | ok a => exact hrest trivial (hnext a)
  | error e =>
    by_cases hrev : e.isRevert = true
    · simp only [if_pos hrev]
      exact hrest hrev hother
    · simp only [if_neg hrev]
      exact ⟨ℓ₁, new₁, hran₁, fun h => absurd h (not_succeeds_error e), habort₁.error⟩

/-- A piece that only looks at its result. -/
theorem Transacts.pure {run : Context V W → Context V W × Ret α} (hrun : ∀ ctx, (run ctx).1 = ctx)
    (keeps : Ret α → Prop) : Transacts disk base keeps run := by
  intro ctx ps ℓ ls hl
  rw [hrun]
  exact ⟨ℓ, [], Ran.rfl' hl, fun _ => rfl, aborts_nil _⟩

/-! ## The tree -/

mutual

/-- **Every action tree transacts.** -/
theorem Action.transacts (env : Env V W) (base : Disk) :
    ∀ act : Action V W, Transacts env.disk base Ret.succeeds (act.execute env)
  | .leaf act => by
    have hrun : execute env (.leaf act) = act.execute env := by
      funext ctx
      rw [execute]
    rw [hrun]
    exact leaf_transacts env act base _
  | .select sel => by
    have hrun : execute env (.select sel) = executeSelect env sel := by
      funext ctx
      rw [execute]
    rw [hrun]
    exact select_transacts env base sel
  | .astIf cond brIf brElse => by
    have hbranch : ∀ sel : AstSelect (Action V W),
        Transacts env.disk base Ret.succeeds (executeSelect env sel) →
        Transacts env.disk base Ret.succeeds fun ctx =>
          match runAstChild env (.select sel) (executeSelect env sel) ctx with
          | (ctx, .ok (_, ret)) => (ctx, .ok (0, ret))
          | (ctx, .error e) => (ctx, .error e) := by
      intro sel hsel
      refine (runAstChild_transacts env (.select sel) hsel).succeeds.seq
        (fun out ctx => (ctx, .ok (0, out.2))) (fun _ => .pure (fun _ => rfl) _)
        fun ctx => ?_
      rcases runAstChild env (.select sel) (executeSelect env sel) ctx with ⟨_, _ | _⟩ <;> rfl
    refine (runAstChild_transacts env (.select cond) (select_transacts env base cond)).child
      (fun _ => hbranch brIf (select_transacts env base brIf))
      (hbranch brElse (select_transacts env base brElse)) fun ctx => ?_
    rw [execute]
    rcases runAstChild env (.select cond) (executeSelect env cond) ctx with ⟨_, _ | _⟩ <;> rfl

theorem select_transacts (env : Env V W) (base : Disk) :
    ∀ sel : AstSelect (Action V W),
      Transacts env.disk base Ret.succeeds (executeSelect env sel)
  | ⟨exeMin, exeMax, actions⟩ => by
    cases hvalid : validateAstSelect exeMin.uint exeMax.uint actions.length env.txActionsMax with
    | error e => exact .pure (fun ctx => by rw [executeSelect, hvalid]) _
    | ok _ =>
      refine (selectLoop_transacts env base exeMax.uint actions 0 []).seq
        (fun r ctx =>
          if r.1 < exeMin.uint then (ctx, revertf "action ast select must succeed at least")
          else (ctx, .ok (0, r.2))) (fun r => .pure (fun ctx => ?_) _) fun ctx => ?_
      · split_ifs <;> rfl
      · rw [executeSelect, hvalid]
        rcases selectLoop env exeMax.uint actions 0 [] ctx with ⟨_, _ | _⟩ <;> rfl

theorem selectLoop_transacts (env : Env V W) (base : Disk) (exeMax : ℕ) :
    ∀ (actions : List (Action V W)) (count : ℕ) (last : List UInt8),
      Transacts env.disk base Ret.succeeds (selectLoop env exeMax actions count last)
  | [], count, last => .pure (fun ctx => by rw [selectLoop]) _
  | act :: rest, count, last => by
    by_cases hdone : exeMax ≤ count
    · exact .pure (fun ctx => by rw [selectLoop, if_pos hdone]) _
    · refine (runAstChild_transacts env act (Action.transacts env base act)).child
        (fun out => selectLoop_transacts env base exeMax rest (count + 1) out.2)
        (selectLoop_transacts env base exeMax rest count last) fun ctx => ?_
      rw [selectLoop, if_neg hdone]
      rcases runAstChild env act (act.execute env) ctx with ⟨_, _ | _⟩ <;> rfl

end

/-! ## The transaction -/

theorem dispatchTop_transacts (env : Env V W) (withExtra9 : Bool) (act : Action V W) :
    Transacts env.disk base Ret.succeeds (dispatchTop env withExtra9 act) := by
  refine (dispatch_transacts env act .top (act.transacts env base)).seq
    (fun out ctx => if withExtra9 then chargeExtra9 act out ctx else (ctx, .ok out))
    (fun out => ?_) fun ctx => ?_
  · cases withExtra9 with
    | true => exact chargeExtra9_transacts act out _
    | false => exact .pure (fun _ => rfl) _
  · rw [dispatchTop]
    rcases dispatch env act .top (act.execute env) ctx with ⟨_, _ | _⟩ <;> rfl

theorem executeActions_ran (env : Env V W) (withExtra9 : Bool) :
    ∀ (actions : List (Action V W)) {ctx : Context V W} {ℓ : Layer}, ctx.execFrom = .top →
      Layered env.disk base ctx.heap (ctx.chunk :: ps) (ℓ :: ls) →
      ∃ ℓ' new, Ran env.disk base ps ls ctx ℓ (executeActions env withExtra9 actions ctx).1 ℓ' new ∧
        ((executeActions env withExtra9 actions ctx).2 = .ok () →
          (executeActions env withExtra9 actions ctx).1.flat ℓ'
            = replay (read base ls) (ctx.flat ℓ) (survivors new)) ∧
        Aborts new (executeActions env withExtra9 actions ctx).2
  | [], ctx, ℓ, _, hl => ⟨ℓ, [], Ran.rfl' hl, fun _ => rfl, aborts_nil _⟩
  | act :: rest, ctx, ℓ, htop, hl => by
    have hctx : { ctx with execFrom := .top } = ctx := by rw [← htop]
    obtain ⟨ℓ₁, new₁, hran₁, hkeep₁, habort₁⟩ :=
      dispatchTop_transacts env withExtra9 act hl
    rw [executeActions, hctx]
    revert hran₁ hkeep₁ habort₁
    generalize dispatchTop env withExtra9 act ctx = r
    obtain ⟨ctx₁, res⟩ := r
    intro hran₁ hkeep₁ habort₁
    dsimp only at hran₁ hkeep₁ habort₁ ⊢
    cases res with
    | error e =>
      refine ⟨ℓ₁, new₁, hran₁, fun h => ?_, habort₁.error⟩
      cases h
    | ok out =>
      obtain ⟨ℓ₂, new₂, hran₂, hkeep₂, habort₂⟩ := executeActions_ran env withExtra9 rest
        (hran₁.execFrom.trans htop) hran₁.layered
      refine ⟨ℓ₂, new₁ ++ new₂, hran₁.trans hran₂, fun h => ?_,
        (habort₁.of_soft trivial _).append habort₂⟩
      rw [hkeep₂ h, hkeep₁ rfl, survivors_append, replay_append]

/-- **AST control flow is transactional.** A successful run of action trees leaves state, logs,
rebate and VM as executing only the surviving leaves does; an error of a child that is no revert
is the error of the transaction; a child that reverts leaves them as they were; and gas used
never decreases. -/
theorem ast_transactional (env : Env V W)
    (hl : Layered env.disk base ctx.heap (ctx.chunk :: ps) (ℓ :: ls)) :
    (ctx.execFrom = .top → ∀ withExtra9 actions after res,
      executeActions env withExtra9 actions ctx = (after, res) →
      ∃ new, after.reports = ctx.reports ++ new ∧
        (res = .ok () → ∃ ℓ', Layered env.disk base after.heap (ctx.chunk :: ps) (ℓ' :: ls) ∧
          after.flat ℓ' = replay (read base ls) (ctx.flat ℓ) (survivors new)) ∧
        (∀ e ∈ childErrors new, e.isRevert = false → res = .error e) ∧
        ctx.gas.used ≤ after.gas.used) ∧
    ∀ (act : Action V W) after e,
      runAstChild env act (act.execute env) ctx = (after, .error e) → e.isRevert = true →
      Layered env.disk base after.heap (ctx.chunk :: ps) (ℓ :: ls) ∧
        after.flat ℓ = ctx.flat ℓ ∧ ctx.gas.used ≤ after.gas.used := by
  refine ⟨fun htop withExtra9 actions after res hrun => ?_, fun act after e hrun hrev => ?_⟩
  · obtain ⟨ℓ', new, hran, hkeep, habort⟩ := executeActions_ran env withExtra9 actions htop hl
    rw [hrun] at hran hkeep habort
    refine ⟨new, hran.reports, fun hok => ⟨ℓ', ?_, hkeep hok⟩, habort, hran.used⟩
    rw [← hran.chunk]
    exact hran.layered
  · obtain ⟨ℓ', new, hran, hkeep, hnone, -⟩ :=
      runAstChild_ran env act (act.transacts env base) hl
    rw [hrun] at hran hkeep hnone
    have hflat : after.flat ℓ' = ctx.flat ℓ := by
      rw [hkeep hrev, hnone e rfl]
      rfl
    obtain rfl : ℓ' = ℓ := congrArg layer hflat
    refine ⟨?_, hflat, hran.used⟩
    rw [← hran.chunk]
    exact hran.layered

end

/-! ### A run -/

/-- A leaf that writes its number, rebates gas and returns `result`. -/
def sampleLeaf (n : UInt8) (result : Ret ActOut) : Action Unit Unit :=
  .leaf ⟨1, .anywhere, 1, 0, true, fun _ => ⟨[.set [n] [n], .gasRebate 1], (), (), result⟩, []⟩

/-- A select of at least one of two, the first of which reverts after it has written. -/
def sampleSelect : Action Unit Unit :=
  .select ⟨1, 2, [sampleLeaf 1 (revertf "no"), sampleLeaf 2 (.ok (3, []))]⟩

def sampleEnv : Env Unit Unit := ⟨fun _ => none, 3, 0, 10, 200, fun _ => .ok ()⟩

/-- A transaction chunk on a block chunk on a root, over an empty database. -/
def sampleHeap : Heap :=
  let root : Block := .sample 0 1 0
  let child : Block := .sample 1 2 1
  match (Heap.empty.newRoot root).2.blockExecOn 0 child (.fromHeight 1) with
  | .error _ => .empty
  | .ok (block, heap) =>
    match heap.spawnTxChild block (.fill 7) with
    | .error _ => .empty
    | .ok (_, heap) => heap

def sampleContext : Context Unit Unit :=
  ⟨sampleHeap, 2, ⟨true, 100, 0, 0, .zero⟩, .top, (), (), []⟩

theorem sampleHeap_layered : Layered (fun _ => none) (fun _ => none) sampleHeap [2, 1]
    [.fresh (.tx (.fill 7)), .fresh .block] :=
  ⟨rfl, ⟨_, rfl, rfl, rfl, rfl⟩, rfl, .parent 0, ⟨_, rfl, rfl, rfl, rfl⟩, fun _ => rfl⟩

/-- The reference, run on the survivors of the tree. -/
def sampleReplay : Flat Unit :=
  replay (fun _ => none) (sampleContext.flat (.fresh (.tx (.fill 7))))
    (survivors (executeActions sampleEnv true [sampleSelect] sampleContext).1.reports)

/-- The tree succeeds with the writes and the rebate of its second leaf only, and with the
gas of both. -/
theorem ast_transactional_sample : ∃ after ℓ',
    executeActions sampleEnv true [sampleSelect] sampleContext = (after, .ok ()) ∧
      Layered (fun _ => none) (fun _ => none) after.heap [2, 1] [ℓ', .fresh .block] ∧
      ℓ'.state [1] = none ∧ ℓ'.state [2] = some (some [2]) ∧ after.gas.rebated = 1 ∧
      after.gas.used = 47 := by
  have hok : (executeActions sampleEnv true [sampleSelect] sampleContext).2 = .ok () := by
    decide +kernel
  have hused : (executeActions sampleEnv true [sampleSelect] sampleContext).1.gas.used = 47 := by
    decide +kernel
  have hfirst : sampleReplay.layer.state [1] = none := by decide +kernel
  have hsecond : sampleReplay.layer.state [2] = some (some [2]) := by decide +kernel
  have hrebated : sampleReplay.rebated = 1 := by decide +kernel
  have hl : Layered sampleEnv.disk (fun _ => none) sampleContext.heap (sampleContext.chunk :: [1])
      [.fresh (.tx (.fill 7)), .fresh .block] := sampleHeap_layered
  have hrun := (ast_transactional sampleEnv hl).1 rfl true [sampleSelect]
  rw [sampleReplay] at hfirst hsecond hrebated
  generalize executeActions sampleEnv true [sampleSelect] sampleContext = r at *
  obtain ⟨after, res⟩ := r
  obtain ⟨new, hnew, hkeep, -, -⟩ := hrun after res rfl
  obtain rfl : after.reports = new := hnew
  obtain ⟨ℓ', hl', hflat⟩ := hkeep hok
  have hreplay : after.flat ℓ' = replay (fun _ => none)
    (sampleContext.flat (.fresh (.tx (.fill 7)))) (survivors after.reports) := hflat
  rw [← hreplay] at hfirst hsecond hrebated
  exact ⟨after, ℓ', Prod.ext rfl hok, hl', hfirst, hsecond, hrebated, hused⟩

end Hacash
