import Hacash.State.Chunk

/-!
# What a memory update leaves alone

Frame lemmas for the updates of `Heap`, the equation of a layered read (`getState_eq`), and what
execution can do to memory (`Heap.Extends`).
-/

namespace Hacash

open Lib Option Function Heap

theorem ChunkBody.asWritable_eq_some {b : ChunkBody} {δ : ChunkDelta} :
    b.asWritable = some δ ↔ b = .writable δ := by
  cases b <;> simp [asWritable]

namespace Heap

variable {h h' : Heap} {p q r : ℕ}

/-! ## Cells -/

section

variable {origin : Origin} {source : Source} {body : ChunkBody}
  {horg : origin.Proper} {hsrc : ∀ q, source = .parent q → q < h.next}

@[simp] theorem cell_alloc_self :
    (h.alloc origin source body horg hsrc).cell h.next = some ⟨origin, source, body, []⟩ :=
  update_self ..

theorem cell_alloc_of_ne (hp : p ≠ h.next) :
    (h.alloc origin source body horg hsrc).cell p = h.cell p :=
  update_of_ne hp ..

/-- Allocation leaves allocated cells alone. -/
theorem cell_alloc_of_some {c : StateChunk} (hc : h.cell p = some c) :
    (h.alloc origin source body horg hsrc).cell p = some c := by
  rw [cell_alloc_of_ne (h.lt_next hc).ne, hc]

section

variable {c : StateChunk} {parent : ℕ} (hc : h.cell parent = some c)
include hc

/-- The chunk `new_root` allocates. -/
theorem cell_allocOn_self : (h.allocOn parent origin horg hc).2.cell h.next =
      some ⟨origin, .parent parent, .writable .default, []⟩ := update_self ..

theorem cell_allocOn_of_ne
    (hp : p ≠ h.next) : (h.allocOn parent origin horg hc).2.cell p = h.cell p :=
  update_of_ne hp ..

end

theorem cell_newRoot (h : Heap) (block : Block) :
    (h.newRoot block).2.cell h.next =
      some ⟨.block block.height (some ⟨block.hash, block, .fromHeight block.height⟩),
        .disk, .frozen .default, []⟩ := by
  simp only [newRoot, cell_alloc_self]

theorem cell_newRoot_of_ne (h : Heap) (block : Block) (hp : p ≠ h.next) :
    (h.newRoot block).2.cell p = h.cell p := by
  simp only [newRoot, cell_alloc_of_ne hp]

end

section

variable {f : StateChunk → StateChunk} {horg : ∀ c, (f c).origin = c.origin}
  {hsrc : ∀ c, (f c).source = c.source ∨ (f c).source = .disk}
  {hkids : ∀ c q, h.cell p = some c → q ∈ (f c).children → p < q ∧ q < h.next}

theorem cell_modify_self : (h.modify p f horg hsrc hkids).cell p = (h.cell p).map f :=
  update_self ..

theorem cell_modify_of_ne (hq : q ≠ p) : (h.modify p f horg hsrc hkids).cell q = h.cell q :=
  update_of_ne hq ..

/-- A view that `f` does not change is not changed by `modify`. -/
theorem view_modify {α : Type*} (view : StateChunk → α) (hf : ∀ c, view (f c) = view c) :
    ((h.modify p f horg hsrc hkids).cell q).map view = (h.cell q).map view := by
  by_cases hq : q = p
  · subst hq
    rw [cell_modify_self, map_map]
    congr 1
    exact funext hf
  · rw [cell_modify_of_ne hq]

end

/-! ## Views -/

variable {hpq : p < q} {hq : q < h.next} {b : ChunkBody} {c : StateChunk}

theorem cell_setBody_of_ne (hq : q ≠ p) : (h.setBody p b).cell q = h.cell q := by
  rw [setBody, cell_modify_of_ne hq]

theorem cell_setDisk_of_ne (hq : q ≠ p) : (h.setDisk p).cell q = h.cell q := by
  rw [setDisk, cell_modify_of_ne hq]

@[simp] theorem origin_setBody : (h.setBody p b).origin q = h.origin q :=
  view_modify StateChunk.origin fun _ => rfl

@[simp] theorem origin_setDisk : (h.setDisk p).origin q = h.origin q :=
  view_modify StateChunk.origin fun _ => rfl

@[simp] theorem origin_pushChild : (h.pushChild p q hpq hq).origin r = h.origin r :=
  view_modify StateChunk.origin fun _ => rfl

@[simp] theorem origin_dropChild : (h.dropChild p q).origin r = h.origin r :=
  view_modify StateChunk.origin fun _ => rfl

@[simp] theorem source_setBody : (h.setBody p b).source q = h.source q :=
  view_modify StateChunk.source fun _ => rfl

@[simp] theorem source_pushChild : (h.pushChild p q hpq hq).source r = h.source r :=
  view_modify StateChunk.source fun _ => rfl

@[simp] theorem source_dropChild : (h.dropChild p q).source r = h.source r :=
  view_modify StateChunk.source fun _ => rfl

theorem source_setDisk_of_ne (hq : q ≠ p) : (h.setDisk p).source q = h.source q := by
  simp only [source, setDisk, cell_modify_of_ne hq]

theorem source_setDisk_self (hc : h.cell p = some c) : (h.setDisk p).source p = some .disk := by
  simp only [source, setDisk, cell_modify_self, hc, map_some]

@[simp] theorem body_setDisk : (h.setDisk p).body q = h.body q :=
  view_modify StateChunk.body fun _ => rfl

@[simp] theorem body_pushChild : (h.pushChild p q hpq hq).body r = h.body r :=
  view_modify StateChunk.body fun _ => rfl

@[simp] theorem body_dropChild : (h.dropChild p q).body r = h.body r :=
  view_modify StateChunk.body fun _ => rfl

theorem body_setBody_self (hc : h.cell p = some c) : (h.setBody p b).body p = some b := by
  simp only [body, setBody, cell_modify_self, hc, map_some]

theorem body_setBody_of_ne (hq : q ≠ p) : (h.setBody p b).body q = h.body q := by
  simp only [body, setBody, cell_modify_of_ne hq]

@[simp] theorem children_setBody : (h.setBody p b).children q = h.children q :=
  congrArg (getD · [])
    (view_modify (f := fun c => { c with body := b }) StateChunk.children fun _ => rfl)

@[simp] theorem children_setDisk : (h.setDisk p).children q = h.children q :=
  congrArg (getD · [])
    (view_modify (f := fun c => { c with source := .disk }) StateChunk.children fun _ => rfl)

theorem children_pushChild_self (hc : h.cell p = some c) :
    (h.pushChild p q hpq hq).children p = h.children p ++ [q] := by
  simp only [children, pushChild, cell_modify_self, hc, map_some, getD_some]

theorem children_pushChild_of_ne (hr : r ≠ p) :
    (h.pushChild p q hpq hq).children r = h.children r := by
  simp only [children, pushChild, cell_modify_of_ne hr]

theorem children_dropChild_self : (h.dropChild p q).children p = (h.children p).filter (· ≠ q) := by
  simp only [children, dropChild, cell_modify_self]
  cases h.cell p <;> rfl

theorem children_dropChild_of_ne (hr : r ≠ p) : (h.dropChild p q).children r = h.children r := by
  simp only [children, dropChild, cell_modify_of_ne hr]

theorem cell_free_self : (h.free p).cell p = none := update_self ..

theorem cell_free_of_ne (hq : q ≠ p) : (h.free p).cell q = h.cell q :=
  update_of_ne hq ..

theorem isSome_cell_iff : (h.cell p).isSome ↔ (h.source p).isSome := by
  simp [source]

theorem parent_eq_some :
    h.parent p = some q ↔ h.source p = some (.parent q) ∧ (h.cell q).isSome := by
  unfold parent source
  cases hc : h.cell p with
  | none => simp
  | some c =>
    cases hs : c.source with
    | disk => simp [hs]
    | parent r =>
      by_cases hr : (h.cell r).isSome
      · simp only [hr, if_true, some.injEq, map_some, hs, Source.parent.injEq]
        exact ⟨fun e => ⟨e, e ▸ hr⟩, And.left⟩
      · simp only [hr, if_false, reduceCtorEq, false_iff, map_some, hs,
          some.injEq, Source.parent.injEq]
        rintro ⟨rfl, hq⟩
        exact hr hq

theorem parent_congr (hs : ∀ q, h'.source q = h.source q) : h'.parent p = h.parent p := by
  ext q
  simp only [parent_eq_some, isSome_cell_iff, hs]

theorem mem_children_lt (hq : q ∈ h.children p) : p < q ∧ q < h.next := by
  unfold children at hq
  cases hc : h.cell p with
  | none =>
    rw [hc] at hq
    cases hq
  | some c =>
    rw [hc] at hq
    exact h.younger hc hq

/-! ## Layered reads -/

/-- Enough fuel is enough: a parent chain from `p` has at most `p` links. -/
theorem getStateFrom_fuel (disk : Disk) (h : Heap) (k : Key) : ∀ {n m p : ℕ}, p < n → p < m →
      getStateFrom disk h k n p = getStateFrom disk h k m p := by
  intro n
  induction n with
  | zero =>
    intro m p hn
    omega
  | succ n ih =>
    intro m p hn hm
    obtain ⟨m, rfl⟩ : ∃ k, m = k + 1 := ⟨m - 1, by omega⟩
    simp only [getStateFrom]
    cases hc : h.cell p with
    | none => rfl
    | some c =>
      dsimp only
      cases c.body.layer k with
      | some v => rfl
      | none =>
        cases hs : c.source with
        | disk => rfl
        | parent q =>
          have hq := h.older hc hs
          exact ih (by omega) (by omega)

/-- **A layered read**: the chunk's own layer if it has the key, else its
source. -/
theorem getState_eq (disk : Disk) (h : Heap) (p : ℕ) (k : Key) :
    h.getState disk p k =
      match h.cell p with
      | none => none
      | some c =>
        match c.body.layer k with
        | some value => some value
        | none =>
          match c.source with
          | .disk => some (disk k)
          | .parent q => h.getState disk q k := by
  rw [getState, getStateFrom]
  cases hc : h.cell p with
  | none => rfl
  | some c =>
    dsimp only
    cases c.body.layer k with
    | some v => rfl
    | none =>
      cases hs : c.source with
      | disk => rfl
      | parent q =>
        have hq := h.older hc hs
        exact getStateFrom_fuel disk h k (by omega) (by omega)

/-! ## Execution -/

/-- One memory operation of the executor: a chunk is opened, written while writable, or closed. -/
inductive ExecStep : Heap → Heap → Prop
  | blockExec {h h' : Heap} {parent p : ℕ} {block : Block} {key : ForkChoiceKey} :
      h.blockExecOn parent block key = .ok (p, h') → ExecStep h h'
  | spawnTx {h h' : Heap} {self p : ℕ} {txHash : Hash} :
      h.spawnTxChild self txHash = .ok (p, h') → ExecStep h h'
  | spawnAst {h h' : Heap} {self p : ℕ} : h.spawnAstChild self = .ok (p, h') → ExecStep h h'
  | set {h h' : Heap} {p : ℕ} {k : Key} {v : Val} : h.set p k v = some h' → ExecStep h h'
  | del {h h' : Heap} {p : ℕ} {k : Key} : h.del p k = some h' → ExecStep h h'
  | emitLog {h h' : Heap} {p : ℕ} {entry : LogEntry} :
      h.emitLog p entry = some h' → ExecStep h h'
  | commit {h h' : Heap} {self p : ℕ} : h.commitToParent self = .ok (p, h') → ExecStep h h'
  | discard {h h' : Heap} {self : ℕ} : h.discard self = .ok h' → ExecStep h h'

/-- `h'` is `h` after some execution: chunks keep origin and links, a body changes only while it is
writable, and new chunks are childless. -/
structure Extends (h h' : Heap) : Prop where
  next_le : h.next ≤ h'.next
  keep : ∀ {p c}, h.cell p = some c → ∃ c', h'.cell p = some c' ∧ c'.origin = c.origin ∧
    c'.source = c.source ∧ c'.children = c.children ∧
    (c'.body = c.body ∨ c.body.asWritable.isSome)
  new : ∀ {p c'}, h'.cell p = some c' → h.cell p = none → h.next ≤ p ∧ c'.children = []

namespace Extends

theorem trans {h₁ h₂ h₃ : Heap} (e₁ : Extends h₁ h₂) (e₂ : Extends h₂ h₃) :
    Extends h₁ h₃ where
  next_le := e₁.next_le.trans e₂.next_le
  keep hc := by
    obtain ⟨c₂, hc₂, ho₂, hs₂, hk₂, hb₂⟩ := e₁.keep hc
    obtain ⟨c₃, hc₃, ho₃, hs₃, hk₃, hb₃⟩ := e₂.keep hc₂
    refine ⟨c₃, hc₃, ho₃.trans ho₂, hs₃.trans hs₂, hk₃.trans hk₂, ?_⟩
    rcases hb₂ with hb₂ | hw
    · rw [← hb₂]
      exact hb₃
    · exact Or.inr hw
  new {p c₃} hc₃ hn := by
    cases hc₂ : h₂.cell p with
    | none =>
      obtain ⟨hle, hk⟩ := e₂.new hc₃ hc₂
      exact ⟨e₁.next_le.trans hle, hk⟩
    | some c₂ =>
      obtain ⟨hle, hk⟩ := e₁.new hc₂ hn
      obtain ⟨c, hc, -, -, hk', -⟩ := e₂.keep hc₂
      rw [hc₃, some.injEq] at hc
      subst hc
      exact ⟨hle, hk'.trans hk⟩

theorem alloc {origin : Origin} {source : Source} {body : ChunkBody}
    {horg : origin.Proper} {hsrc : ∀ q, source = .parent q → q < h.next} :
    Extends h (h.alloc origin source body horg hsrc) where
  next_le := Nat.le_succ _
  keep hc := ⟨_, cell_alloc_of_some hc, rfl, rfl, rfl, Or.inl rfl⟩
  new {p c'} hc hn := by
    by_cases hp : p = h.next
    · subst hp
      rw [cell_alloc_self, some.injEq] at hc
      exact ⟨le_rfl, hc ▸ rfl⟩
    · rw [cell_alloc_of_ne hp, hn] at hc
      cases hc

theorem setBody {b : ChunkBody} {δ : ChunkDelta} (hw : h.writable p = some δ) :
    Extends h (h.setBody p b) where
  next_le := le_rfl
  keep {q c} hc := by
    by_cases hq : q = p
    · subst hq
      refine ⟨{ c with body := b }, ?_, rfl, rfl, rfl, Or.inr ?_⟩
      · rw [setBody, cell_modify_self, hc]
        rfl
      · simp only [writable, body, hc, map_some, bind_some] at hw
        simp [hw]
    · exact ⟨c, by rw [Heap.setBody, cell_modify_of_ne hq, hc], rfl, rfl, rfl, Or.inl rfl⟩
  new {q c'} hc hn := by
    by_cases hq : q = p
    · subst hq
      rw [setBody, cell_modify_self, hn] at hc
      cases hc
    · rw [Heap.setBody, cell_modify_of_ne hq, hn] at hc
      cases hc

variable (e : Extends h h') {c : StateChunk}
include e

/-- Nothing that is live becomes dead. -/
theorem isSome_cell (hl : (h.cell p).isSome) : (h'.cell p).isSome := by
  obtain ⟨c, hc⟩ := isSome_iff_exists.mp hl
  obtain ⟨c', hc', -⟩ := e.keep hc
  rw [hc']
  rfl

theorem children_eq : h'.children p = h.children p := by
  unfold children
  cases hc : h.cell p with
  | some c =>
    obtain ⟨c', hc', -, -, hk, -⟩ := e.keep hc
    simp [hc', hk]
  | none =>
    cases hc' : h'.cell p with
    | none => rfl
    | some c' => simp [(e.new hc' hc).2]

section

variable (hc : h.cell p = some c)
include hc

theorem origin_eq : h'.origin p = h.origin p := by
  obtain ⟨c', hc', ho, -⟩ := e.keep hc
  simp [origin, hc, hc', ho]

theorem source_eq : h'.source p = h.source p := by
  obtain ⟨c', hc', -, hs, -⟩ := e.keep hc
  simp [source, hc, hc', hs]

theorem body_eq (hb : c.body.asWritable = none) : h'.body p = h.body p := by
  obtain ⟨c', hc', -, -, -, hbody | hw⟩ := e.keep hc
  · simp [body, hc, hc', hbody]
  · rw [hb] at hw
    cases hw

theorem parent_eq : h'.parent p = h.parent p := by
  ext q
  rw [parent_eq_some, parent_eq_some, e.source_eq hc]
  refine and_congr_right fun hs => ⟨fun hq => ?_, e.isSome_cell⟩
  -- a parent that is live now was live before: it is older than `p`
  by_contra hdead
  obtain ⟨c', hc'⟩ := isSome_iff_exists.mp hq
  have hnew := (e.new hc' (not_isSome_iff_eq_none.mp hdead)).1
  simp only [source, hc, map_some, some.injEq] at hs
  have := h.older hc hs
  have := h.lt_next hc
  omega

end

end Extends

/-- What `block_exec_on` allocates. -/
theorem blockExecOn_ok {parent : ℕ} {block : Block} {key : ForkChoiceKey}
    (hs : h.blockExecOn parent block key = .ok (p, h')) : p = h.next ∧ h'.next = h.next + 1 ∧
      h'.cell h.next = some ⟨.block block.height (some ⟨block.hash, block, key⟩),
        .parent parent, .writable .default, []⟩ ∧ ∀ q, q ≠ h.next → h'.cell q = h.cell q := by
  unfold blockExecOn at hs
  split at hs
  · cases hs
  · split at hs
    · simp only [allocOn, Except.ok.injEq, Prod.mk.injEq] at hs
      obtain ⟨rfl, rfl⟩ := hs
      exact ⟨rfl, rfl, cell_alloc_self, fun q hq => cell_alloc_of_ne hq⟩
    · cases hs

/-- What a successful commit found and did. -/
theorem commitToParent_ok {self parent : ℕ} (hs : h.commitToParent self = .ok (parent, h')) :
    ∃ c pc target child, h.cell self = some c ∧ h.cell parent = some pc ∧
      c.source = .parent parent ∧ commitRelation c.origin pc.origin ∧
      pc.body = .writable target ∧ c.body = .writable child ∧
      h' = (h.setBody self .consumed).setBody parent
        (.writable (mergeDelta c.origin target child)) := by
  unfold commitToParent at hs
  split at hs
  · cases hs
  next c hc =>
    split at hs
    · cases hs
    split at hs
    · cases hs
    next q hq =>
      split at hs
      · cases hs
      next pc hpc =>
        split at hs
        · cases hs
        next hrel =>
          split at hs
          · cases hs
          next target htarget =>
            split at hs
            · cases hs
            next child hchild =>
              cases hs
              have hsrc := (parent_eq_some.mp hq).1
              simp only [source, hc, map_some, some.injEq] at hsrc
              refine ⟨c, pc, target, child, hc, hpc, hsrc, by simpa using hrel, ?_, ?_, rfl⟩
              · exact ChunkBody.asWritable_eq_some.mp htarget
              · exact ChunkBody.asWritable_eq_some.mp hchild

/-- What a successful discard found and did. -/
theorem discard_ok {self : ℕ} (hs : h.discard self = .ok h') :
    ∃ c child, h.cell self = some c ∧ c.origin.isExec ∧ c.body = .writable child ∧
      h' = h.setBody self .consumed := by
  unfold discard at hs
  split at hs
  · cases hs
  next c hc =>
    split at hs
    · cases hs
    next hexec =>
      split at hs
      · next hw =>
        cases hs
        obtain ⟨child, hchild⟩ := isSome_iff_exists.mp hw
        exact ⟨c, child, hc, by simpa using hexec, ChunkBody.asWritable_eq_some.mp hchild, rfl⟩
      · cases hs

theorem writable_eq_some {δ : ChunkDelta} :
    h.writable p = some δ ↔ ∃ c, h.cell p = some c ∧ c.body = .writable δ := by
  unfold writable body
  cases h.cell p with
  | none => simp
  | some c => simp [ChunkBody.asWritable_eq_some]

/-- **Execution only extends memory.** -/
theorem ExecStep.extends (s : ExecStep h h') : Extends h h' := by
  cases s with
  | blockExec hs =>
    unfold blockExecOn at hs
    split at hs
    · cases hs
    · split at hs
      · cases hs
        exact .alloc
      · cases hs
  | spawnTx hs =>
    unfold spawnTxChild at hs
    split at hs
    · cases hs
    · split at hs
      · cases hs
        exact .alloc
      · cases hs
  | spawnAst hs =>
    unfold spawnAstChild at hs
    split at hs
    · cases hs
    · next c hc =>
      cases hd : astDepth c.origin with
      | error e =>
        rw [hd] at hs
        cases hs
      | ok depth =>
        rw [hd] at hs
        dsimp only [Except.bind, bind] at hs
        split at hs
        · cases hs
          exact .alloc
        · cases hs
  | set hs | del hs | emitLog hs =>
    obtain ⟨δ, hδ, rfl⟩ := map_eq_some_iff.mp hs
    exact .setBody hδ
  | commit hs =>
    obtain ⟨c, pc, target, child, hc, hpc, hsrc, -, htarget, hchild, rfl⟩ :=
      commitToParent_ok hs
    have hne := (h.older hc hsrc).ne
    have htarget' : (h.setBody _ .consumed).writable _ = some target :=
      writable_eq_some.mpr ⟨pc, (cell_modify_of_ne hne).trans hpc, htarget⟩
    exact (Extends.setBody (writable_eq_some.mpr ⟨c, hc, hchild⟩)).trans (.setBody htarget')
  | discard hs =>
    obtain ⟨c, child, hc, -, hchild, rfl⟩ := discard_ok hs
    exact .setBody (writable_eq_some.mpr ⟨c, hc, hchild⟩)

end Heap

variable {h h' : Heap} {p q x par child : ℕ}

/-! ## Closed chunks -/

/-- A chunk that was allocated and is not writable any more. -/
def Settled (h : Heap) (x : ℕ) : Prop := x < h.next ∧ h.writable x = none

theorem Settled.asWritable {c : StateChunk} (hx : Settled h x) (hc : h.cell x = some c) :
    c.body.asWritable = none := by
  have := hx.2
  rwa [writable, body, hc, map_some, bind_some] at this

/-- Execution does not touch a settled chunk. -/
theorem Heap.Extends.cell_settled {c' : StateChunk} (ext : Heap.Extends h h')
    (hx : Settled h x) (hc' : h'.cell x = some c') :
    ∃ c, h.cell x = some c ∧ c'.origin = c.origin ∧ c'.source = c.source ∧ c'.body = c.body := by
  cases hc : h.cell x with
  | none => exact absurd (ext.new hc' hc).1 (not_le.mpr hx.1)
  | some c =>
    obtain ⟨c'', hc'', ho, hs, -, hbody⟩ := ext.keep hc
    rw [hc', some.injEq] at hc''
    subst hc''
    refine ⟨c, rfl, ho, hs, ?_⟩
    rcases hbody with hbody | hbody
    · exact hbody
    · rw [hx.asWritable hc] at hbody
      cases hbody

theorem Heap.Extends.settled (ext : Heap.Extends h h') (hx : Settled h x) : Settled h' x := by
  refine ⟨hx.1.trans_le ext.next_le, ?_⟩
  obtain hdead | ⟨c', hc'⟩ := eq_none_or_eq_some (h'.cell x)
  · rw [writable, body, hdead]
    rfl
  · obtain ⟨c, hc, -, -, hb⟩ := ext.cell_settled hx hc'
    rw [writable, body, hc', map_some, bind_some, hb]
    exact hx.asWritable hc

/-! ## Freezing and retaining a block -/

/-- `h'` is `h` after `child` was frozen and retained by `par`. -/
structure Linked (h h' : Heap) (par child : ℕ) : Prop where
  next_eq : h'.next = h.next
  origin_eq : ∀ q, h'.origin q = h.origin q
  source_eq : ∀ q, h'.source q = h.source q
  children_self : h'.children par = h.children par ++ [child]
  children_ne : ∀ {q}, q ≠ par → h'.children q = h.children q
  froze : ∃ δ, h.body child = some (.writable δ) ∧ h'.body child = some (.frozen δ)
  body_ne : ∀ {q}, q ≠ child → h'.body q = h.body q
  parent : h.parent child = some par
  identified : ∃ height identity, h.origin child = some (.block height (some identity))

theorem attachBlockChild_ok (hs : h.attachBlockChild par child = .ok h') :
    Linked h h' par child := by
  unfold attachBlockChild at hs
  split at hs
  · split at hs
    · cases hs
    · next q hq =>
      split at hs
      · next heq =>
        subst heq
        cases hid : h.blockIdentity child with
        | error e =>
          rw [hid] at hs
          cases hs
        | ok identity =>
          rw [hid] at hs
          dsimp only [bind, Except.bind] at hs
          split at hs
          · cases hs
          · next body hbody =>
            cases hs
            obtain ⟨hsrc, hlive⟩ := parent_eq_some.mp hq
            obtain ⟨c, hc⟩ : ∃ c, h.cell child = some c := by
              unfold source at hsrc
              cases hc : h.cell child with
              | none =>
                rw [hc] at hsrc
                cases hsrc
              | some c => exact ⟨c, rfl⟩
            obtain ⟨s, hs⟩ := isSome_iff_exists.mp hlive
            have hne : par ≠ child := (h.parent_lt hq).1.ne
            -- the frozen body keeps the delta it had
            obtain ⟨δ, hδ, rfl⟩ : ∃ δ, h.body child = some (.writable δ) ∧ body = .frozen δ := by
              cases hb : h.body child with
              | none =>
                rw [hb] at hbody
                cases hbody
              | some b =>
                rw [hb, bind_some] at hbody
                cases b with
                | writable δ =>
                  cases hbody
                  exact ⟨δ, rfl, rfl⟩
                | frozen δ | consumed => cases hbody
            exact
              { next_eq := rfl
                origin_eq := fun q => by simp
                source_eq := fun q => by simp
                children_self := by
                  rw [children_pushChild_self (c := s), children_setBody]
                  rw [setBody, cell_modify_of_ne hne, hs]
                children_ne := fun hq => by
                  rw [children_pushChild_of_ne hq, children_setBody]
                froze := ⟨δ, hδ, by rw [body_pushChild, body_setBody_self hc]⟩
                body_ne := fun hq => by
                  rw [body_pushChild, body_setBody_of_ne hq]
                parent := hq
                identified := by
                  unfold blockIdentity at hid
                  cases ho : h.origin child with
                  | none =>
                    rw [ho] at hid
                    cases hid
                  | some o =>
                    cases o with
                    | block height identity =>
                      cases identity with
                      | none =>
                        rw [ho] at hid
                        cases hid
                      | some identity => exact ⟨height, identity, rfl⟩
                    | tx _ =>
                      rw [ho] at hid
                      cases hid
                    | ast _ =>
                      rw [ho] at hid
                      cases hid }
      · cases hs
  · cases hs

end Hacash
