import Hacash.Lib.Transaction
import Hacash.Chain.TreeRun

/-!
# Attaching is all or nothing

The attach methods as programs that keep what they had done when they fail. **Key result**:
`attach_all_or_nothing`. A panic is no returned error.
-/

namespace Hacash

open Lib Hacash.Tree Function

variable {t t' : Tree} {h h' : Heap} {p q self child parent chunk window : ℕ}

/-! ## The chunk layer (chunk.rs:126–146, 402–420) -/

namespace Heap

/-- `ChunkBody::take_writable`: the body is replaced by `Consumed` and put back if it was not
writable. -/
def takeWritable (p : ℕ) : EStateM ChunkError Heap (Option ChunkDelta) := do
  let current := (← get).body p
  modifyThe Heap (·.setBody p .consumed)
  match current with
  | some (.writable delta) => return some delta
  | some other =>
    modifyThe Heap (·.setBody p other)
    return none
  | none => return none

/-- `ChunkBody::freeze`. -/
def freezeInPlace (p : ℕ) : EStateM ChunkError Heap Bool := do
  match ← takeWritable p with
  | none => return false
  | some delta =>
    modifyThe Heap (·.setBody p (.frozen delta))
    return true

/-- `children.push(child)`. A chunk only ever retains a younger one. -/
def retain (h : Heap) (p q : ℕ) : Heap :=
  if hpq : p < q ∧ q < h.next then h.pushChild p q hpq.1 hpq.2 else h

/-- `attach_block_child`, statement by statement. -/
def attachBlockChildSteps (self child : ℕ) : EStateM ChunkError Heap Unit := do
  peek fun h =>
    match h.origin self with
    | some (.block ..) => .ok ()
    | _ => .error .treeParentNotBlock
  let parent ← peek fun h =>
    match h.parent child with
    | some parent => .ok parent
    | none => .error .treeNoParent
  peek fun _ => if self = parent then .ok () else .error .treeParentMismatch
  let _ ← peek (·.blockIdentity child)
  let frozen ← freezeInPlace child
  peek fun _ => if frozen then .ok () else .error .alreadyAttached
  modifyThe Heap (·.retain self child)

theorem eq_of_cell (hnext : h.next = h'.next) (hcell : h.cell = h'.cell) : h = h' := by
  cases h
  cases h'
  cases hnext
  cases hcell
  rfl

theorem setBody_setBody {b b' : ChunkBody} : (h.setBody p b).setBody p b' = h.setBody p b' := by
  refine eq_of_cell rfl (funext fun r => ?_)
  by_cases hr : r = p
  · subst hr
    simp only [setBody, modify, update_self, Option.map_map]
    rfl
  · simp only [setBody, modify, update_of_ne hr]

/-- Writing a body back changes nothing. -/
theorem setBody_self {b : ChunkBody} (hb : ∀ c, h.cell p = some c → c.body = b) :
    h.setBody p b = h := by
  refine eq_of_cell rfl (funext fun r => ?_)
  by_cases hr : r = p
  · subst hr
    simp only [setBody, modify, update_self]
    cases hc : h.cell r with
    | none => rfl
    | some c =>
      rw [← hb c hc]
      rfl
  · simp only [setBody, modify, update_of_ne hr]

theorem takeWritable_run (h : Heap) (p : ℕ) :
    takeWritable p h =
      match h.writable p with
      | some delta => .ok (some delta) (h.setBody p .consumed)
      | none => .ok none h := by
  have hread : takeWritable p h =
      (match h.body p with
        | some (.writable delta) => .ok (some delta) (h.setBody p .consumed)
        | some other => .ok none ((h.setBody p .consumed).setBody p other)
        | none => .ok none (h.setBody p .consumed)) := by
    show (match h.body p with
      | some (.writable delta) => pure (some delta)
      | some other => do
        modifyThe Heap (·.setBody p other)
        return none
      | none => pure none : EStateM ChunkError Heap (Option ChunkDelta)) _ = _
    cases h.body p with
    | none => rfl
    | some b => cases b <;> rfl
  have hback : ∀ b, h.body p = some b → (h.setBody p .consumed).setBody p b = h := by
    intro b hb
    rw [setBody_setBody]
    refine setBody_self fun c hc => ?_
    rw [body, hc] at hb
    exact Option.some.inj hb
  rw [hread, writable]
  cases hb : h.body p with
  | none =>
    have hcell : h.cell p = none := Option.map_eq_none_iff.mp hb
    exact congrArg (EStateM.Result.ok none)
      (setBody_self fun c hc => by rw [hcell] at hc; cases hc)
  | some b =>
    cases b with
    | writable delta => rfl
    | frozen delta | consumed => exact congrArg (EStateM.Result.ok none) (hback _ hb)

theorem freezeInPlace_run (h : Heap) (p : ℕ) :
    freezeInPlace p h =
      match (h.body p).bind ChunkBody.freeze with
      | some body => .ok true (h.setBody p body)
      | none => .ok false h := by
  have htake := takeWritable_run h p
  have hfreeze : (h.body p).bind ChunkBody.freeze = (h.writable p).map .frozen := by
    rw [writable]
    cases h.body p with
    | none => rfl
    | some b => cases b <;> rfl
  rw [freezeInPlace, hfreeze]
  cases hw : h.writable p with
  | none =>
    rw [hw] at htake
    rw [bind_ok htake]
    rfl
  | some delta =>
    rw [hw] at htake
    rw [bind_ok htake]
    exact congrArg (EStateM.Result.ok true) setBody_setBody

/-- **The chunk layer is all or nothing**: a failed `attach_block_child` leaves the memory. -/
theorem attachBlockChildSteps_run (h : Heap) (self child : ℕ) :
    attachBlockChildSteps self child h =
      match h.attachBlockChild self child with
      | .ok h' => .ok () h'
      | .error e => .error e h := by
  generalize hrun : h.attachBlockChild self child = result
  rw [attachBlockChildSteps]
  unfold attachBlockChild at hrun
  split at hrun
  · next ho =>
    rw [bind_ok (peek_ok (by rw [ho]))]
    split at hrun
    · next hpar =>
      subst hrun
      rw [bind_error (peek_error (by rw [hpar]))]
    · next parent hpar =>
      rw [bind_ok (peek_ok (by rw [hpar]))]
      split at hrun
      · next hself =>
        rw [bind_ok (peek_ok (by rw [if_pos hself]))]
        cases hid : h.blockIdentity child with
        | error e =>
          rw [hid] at hrun
          subst hrun
          rw [bind_error (peek_error (by exact hid))]
          rfl
        | ok identity =>
          rw [hid] at hrun
          rw [bind_ok (peek_ok (by exact hid))]
          have hfreeze := freezeInPlace_run h child
          have hlt := h.parent_lt hpar
          cases hbody : (h.body child).bind ChunkBody.freeze with
          | none =>
            simp only [hbody, ok_bind] at hfreeze hrun
            subst hrun
            rw [bind_ok hfreeze]
            rfl
          | some body =>
            simp only [hbody, ok_bind] at hfreeze hrun
            subst hrun
            rw [bind_ok hfreeze]
            exact congrArg (EStateM.Result.ok ()) (dif_pos ⟨hself ▸ hlt.1, hlt.2⟩)
      · next hself =>
        subst hrun
        rw [bind_error (peek_error (by rw [if_neg hself]))]
  · next ho =>
    subst hrun
    rw [bind_error (peek_error ?_)]
    split
    · exact absurd ‹_› (ho _ _)
    · rfl

end Heap

open Heap

/-! ## The tree (tree.rs:202–327) -/

namespace Tree

/-- A program of the chunk layer on the memory of the tree. -/
def onHeap {α : Type} (m : EStateM ChunkError Heap α) : EStateM TreeError Tree α := fun t =>
  match m t.heap with
  | .ok a heap => .ok a { t with heap }
  | .error e heap => .error (.chunk e) { t with heap }

/-- `canonical_tx_diff` of the head and the new block, as the tree stands. -/
def txDiffTo (chunk : ℕ) (t : Tree) : Except TreeError CanonicalTxDiff :=
  match canonicalTxDiff t.heap t.head chunk with
  | some diff => .ok diff
  | none => .error .panicked

/-- The cursors of a new head. -/
def advance (chunk : ℕ) (roll : Option RollJob) : EStateM TreeError Tree Unit := do
  modifyThe Tree fun t => { t with head := chunk }
  modifyThe Tree fun t => { t with epoch := (t.epoch + 1) % 2 ^ 64 }
  match roll with
  | some job => modifyThe Tree fun t => { t with scheduledRoot := job.newRoot }
  | none => pure ()

/-- What follows the link in `attach_inner`. -/
def publishSteps (chunk : ℕ) (isHead reorg : Bool) (roll : Option RollJob) :
    EStateM TreeError Tree Inserted := do
  let diff ← if isHead then peek (txDiffTo chunk) else pure ⟨[], []⟩
  if isHead then advance chunk roll else pure ()
  return { isHead, reorg, roll, confirmedTxs := diff.confirmed, revertedTxs := diff.reverted }

/-- `attach_inner`, statement by statement. -/
def attachInnerSteps (parentHash : Hash) (chunk window : ℕ) (linear : Bool) :
    EStateM TreeError Tree Inserted := do
  let height ← peek fun t => liftChunk (t.heap.blockHeight chunk)
  let identity ← peek fun t => liftChunk (t.heap.blockIdentity chunk)
  let parent ← peek fun t => t.checkLink false linear parentHash identity.hash height chunk
  let isHead ← peek fun t => .ok (decide (forkKeyOf t.heap t.head < identity.forkChoice))
  let reorg ← peek fun t => .ok (isHead && parent ≠ t.head)
  peek fun _ => if linear && (!isHead || reorg) then .error .linearNotExtension else .ok ()
  let roll ← peek fun t => t.planRoll linear chunk height window isHead
  onHeap (attachBlockChildSteps parent chunk)
  publishSteps chunk isHead reorg roll

/-- `attach_side`, statement by statement. -/
def attachSideSteps (parentHash : Hash) (chunk : ℕ) : EStateM TreeError Tree Unit := do
  let height ← peek fun t => liftChunk (t.heap.blockHeight chunk)
  let identity ← peek fun t =>
    match identityOf t.heap chunk with
    | some identity => .ok identity
    | none => .error .panicked
  let parent ← peek fun t => t.checkLink true false parentHash identity.hash height chunk
  onHeap (attachBlockChildSteps parent chunk)

end Tree

/-- How a run that implements a function can end: with the function's error and the tree as it was,
with a panic where the function has one, or with the function's result. -/
inductive AttachRun {α : Type} (t : Tree) :
    Except TreeError (α × Tree) → EStateM.Result TreeError Tree α → Prop
  | failed (e : TreeError) : AttachRun t (.error e) (.error e t)
  | panicked (t' : Tree) : AttachRun t (.error .panicked) (.error .panicked t')
  | done (a : α) (t' : Tree) : AttachRun t (.ok (a, t')) (.ok a t')

theorem AttachRun.peek_bind {α β : Type} {f : Tree → Except TreeError α}
    {x : Except TreeError α} {k : α → EStateM TreeError Tree β}
    {g : α → Except TreeError (β × Tree)} (hf : f t = x)
    (hk : ∀ a, AttachRun t (g a) (k a t)) : AttachRun t (x >>= g) ((peek f >>= k) t) := by
  cases x with
  | error e =>
    rw [bind_error (peek_error hf)]
    exact .failed e
  | ok a =>
    rw [bind_ok (peek_ok hf)]
    exact hk a

theorem onHeap_attachBlockChildSteps_ok
    (hs : liftChunk (t.heap.attachBlockChild parent chunk) = .ok h') :
    onHeap (attachBlockChildSteps parent chunk) t = .ok () { t with heap := h' } := by
  rw [onHeap, attachBlockChildSteps_run, liftChunk_ok hs]

theorem onHeap_attachBlockChildSteps_error {e : TreeError}
    (hs : liftChunk (t.heap.attachBlockChild parent chunk) = .error e) :
    onHeap (attachBlockChildSteps parent chunk) t = .error e t := by
  rw [onHeap, attachBlockChildSteps_run]
  cases hrun : t.heap.attachBlockChild parent chunk with
  | ok heap =>
    rw [hrun] at hs
    cases hs
  | error e' =>
    rw [hrun] at hs
    cases hs
    rfl

theorem AttachRun.link_bind {β : Type} {k : EStateM TreeError Tree β}
    {g : Heap → Except TreeError (β × Tree)}
    (hk : ∀ heap, AttachRun t (g heap) (k { t with heap })) :
    AttachRun t (liftChunk (t.heap.attachBlockChild parent chunk) >>= g)
      ((onHeap (attachBlockChildSteps parent chunk) >>= fun _ => k) t) := by
  cases hlink : liftChunk (t.heap.attachBlockChild parent chunk) with
  | error e =>
    rw [bind_error (onHeap_attachBlockChildSteps_error hlink)]
    exact .failed e
  | ok heap =>
    rw [bind_ok (onHeap_attachBlockChildSteps_ok hlink)]
    exact hk heap

theorem publishSteps_run (t : Tree) (heap : Heap) (chunk : ℕ) (isHead reorg : Bool)
    (roll : Option RollJob) :
    AttachRun t (t.publish heap chunk isHead reorg roll)
      (publishSteps chunk isHead reorg roll { t with heap }) := by
  cases isHead with
  | false => exact .done _ _
  | true =>
    rw [publish, if_pos rfl, publishSteps]
    cases hdiff : canonicalTxDiff heap t.head chunk with
    | none =>
      have hpeek : txDiffTo chunk { t with heap } = .error .panicked := by
        rw [txDiffTo, hdiff]
      rw [if_pos rfl, bind_error (peek_error hpeek)]
      exact .panicked _
    | some diff =>
      have hpeek : txDiffTo chunk { t with heap } = .ok diff := by
        rw [txDiffTo, hdiff]
      rw [if_pos rfl, bind_ok (peek_ok hpeek)]
      cases roll with
      | none | some job => exact .done _ _

theorem attachInnerSteps_run (t : Tree) (parentHash : Hash) (chunk window : ℕ) (linear : Bool) :
    AttachRun t (t.attachInner parentHash chunk window linear)
      (attachInnerSteps parentHash chunk window linear t) := by
  refine .peek_bind rfl fun height => .peek_bind rfl fun identity =>
    .peek_bind rfl fun parent => ?_
  rw [bind_ok (peek_ok (by rfl)), bind_ok (peek_ok (by rfl))]
  dsimp only
  split_ifs with hlinear
  · exact .failed _
  · rw [bind_ok (peek_ok (by rfl))]
    exact .peek_bind rfl fun roll => .link_bind fun heap =>
      publishSteps_run t heap chunk _ _ roll

theorem attachSideSteps_run (t : Tree) (parentHash : Hash) (chunk : ℕ) :
    AttachRun t ((t.attachSide parentHash chunk).map fun t' => ((), t'))
      (attachSideSteps parentHash chunk t) := by
  rw [attachSide, attachSideSteps]
  cases hheight : liftChunk (t.heap.blockHeight chunk) with
  | error e =>
    rw [bind_error (peek_error (by exact hheight))]
    exact .failed e
  | ok height =>
    rw [bind_ok (peek_ok (by exact hheight)), ok_bind]
    cases hid : identityOf t.heap chunk with
    | none =>
      rw [bind_error (peek_error (by rw [hid]))]
      exact .failed _
    | some identity =>
      rw [bind_ok (peek_ok (by rw [hid]))]
      dsimp only
      cases hlink : t.checkLink true false parentHash identity.hash height chunk with
      | error e =>
        rw [bind_error (peek_error (by exact hlink))]
        exact .failed e
      | ok parent =>
        rw [bind_ok (peek_ok (by exact hlink)), ok_bind]
        cases hattach : liftChunk (t.heap.attachBlockChild parent chunk) with
        | error e =>
          rw [onHeap_attachBlockChildSteps_error hattach]
          exact .failed e
        | ok heap =>
          rw [onHeap_attachBlockChildSteps_ok hattach]
          exact .done _ _

/-! ## All or nothing -/

/-- What a failed attach leaves: the cursors, the nodes, the links, and the candidate with its
body. -/
structure Untouched (t t' : Tree) (chunk : ℕ) : Prop where
  root : t'.root = t.root
  scheduledRoot : t'.scheduledRoot = t.scheduledRoot
  head : t'.head = t.head
  epoch : t'.epoch = t.epoch
  nodes : ∀ p, t'.InTree p ↔ t.InTree p
  parents : ∀ p, t'.heap.parent p = t.heap.parent p
  children : ∀ p, t'.heap.children p = t.heap.children p
  /-- A candidate that was writable is still writable, with the delta it had. -/
  writable : t'.heap.writable chunk = t.heap.writable chunk

theorem Untouched.refl (t : Tree) (chunk : ℕ) : Untouched t t chunk where
  root := rfl
  scheduledRoot := rfl
  head := rfl
  epoch := rfl
  nodes _ := Iff.rfl
  parents _ := rfl
  children _ := rfl
  writable := rfl

theorem AttachRun.untouched {α : Type} {x : Except TreeError (α × Tree)} {e : TreeError}
    (run : AttachRun t x (.error e t')) (hreturned : e ≠ .panicked) : Untouched t t' chunk := by
  cases run with
  | failed => exact .refl t chunk
  | panicked => exact absurd rfl hreturned

/-- The result of a run as that of a function on trees. -/
def returned {α : Type} : EStateM.Result TreeError Tree α → Except TreeError (α × Tree)
  | .ok a t => .ok (a, t)
  | .error e _ => .error e

theorem AttachRun.returned_eq {α : Type} {x : Except TreeError (α × Tree)}
    {r : EStateM.Result TreeError Tree α} (run : AttachRun t x r) : returned r = x := by
  cases run <;> rfl

/-- **Attaching is all or nothing.** The methods run statement by statement return what
`attachInner` and `attachSide` return; on an error the tree is untouched and the candidate as
writable as before. -/
theorem attach_all_or_nothing (t : Tree) (parentHash : Hash) (chunk window : ℕ)
    (linear : Bool) :
    (returned (attachInnerSteps parentHash chunk window linear t)
        = t.attachInner parentHash chunk window linear ∧
      ∀ e t', attachInnerSteps parentHash chunk window linear t = .error e t' →
        e ≠ .panicked → Untouched t t' chunk) ∧
    (returned (attachSideSteps parentHash chunk t)
        = (t.attachSide parentHash chunk).map (fun t' => ((), t')) ∧
      ∀ e t', attachSideSteps parentHash chunk t = .error e t' →
        e ≠ .panicked → Untouched t t' chunk) := by
  have hinner := attachInnerSteps_run t parentHash chunk window linear
  have hside := attachSideSteps_run t parentHash chunk
  refine ⟨⟨hinner.returned_eq, fun e t' herr => ?_⟩, hside.returned_eq, fun e t' herr => ?_⟩
  · rw [herr] at hinner
    exact hinner.untouched
  · rw [herr] at hside
    exact hside.untouched

/-- A candidate that was never executed on the named parent: the attach fails, and the executed
chunk stays writable. -/
theorem attach_all_or_nothing_sample :
    returned (attachInnerSteps (.fill 9) 2 1 false sampleTree)
        = .error (.parentNotInTree false 0 (.fill 9)) ∧
      ∃ t', attachInnerSteps (.fill 9) 2 1 false sampleTree
          = .error (.parentNotInTree false 0 (.fill 9)) t' ∧
        Untouched sampleTree t' 2 ∧ (t'.heap.writable 2).isSome := by
  have hfail : sampleTree.attachInner (.fill 9) 2 1 false
      = .error (.parentNotInTree false 0 (.fill 9)) := by rfl
  obtain ⟨⟨hsame, huntouched⟩, -⟩ := attach_all_or_nothing sampleTree (.fill 9) 2 1 false
  rw [hfail] at hsame
  refine ⟨hsame, ?_⟩
  cases hrun : attachInnerSteps (.fill 9) 2 1 false sampleTree with
  | ok ins t' =>
    rw [hrun] at hsame
    cases hsame
  | error e t' =>
    rw [hrun] at hsame
    cases hsame
    have kept := huntouched _ t' hrun (by decide)
    refine ⟨t', rfl, kept, ?_⟩
    rw [kept.writable]
    rfl

end Hacash
