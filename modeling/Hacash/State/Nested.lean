import Hacash.State.Frame
import Mathlib.Data.Option.Basic
import Mathlib.Logic.Relation

/-!
# Chunks as nested transactions

The reference is a stack of layers over a flat map. **Key result**: `nested_transactions`.
-/

namespace Hacash

open Lib Heap List Option

/-! ## The reference -/

/-- What a layer was opened for. -/
inductive Scope where
  | block
  | tx (txHash : Hash)
  | ast (depth : ℕ)
  deriving DecidableEq

namespace Scope

/-- The scope of an AST opened inside this one. -/
def inner : Scope → Option Scope
  | block => none
  | tx _ => some (ast 1)
  | ast depth => if depth + 1 < 2 ^ 32 then some (ast (depth + 1)) else none

/-- The scopes that may stand on each other. -/
def inside : Scope → Scope → Bool
  | tx _, block => true
  | ast _, tx _ => true
  | ast _, ast _ => true
  | _, _ => false

/-- The hash a layer leaves behind when it is committed. -/
def hashes : Scope → List Hash
  | tx txHash => [txHash]
  | _ => []

/-- The scope of a chunk. -/
def ofOrigin : Origin → Scope
  | .block .. => block
  | .tx txHash => tx txHash
  | .ast depth => ast depth

end Scope

open Scope

namespace Scope

variable {o o' : Origin}

theorem isBlock_iff (o : Origin) : o.isBlock = true ↔ ofOrigin o = block := by
  cases o <;> simp [Origin.isBlock, ofOrigin]

theorem isExec_of_block (h : ofOrigin o = block) : o.isExec = false := by
  cases o <;> simp_all [Origin.isExec, ofOrigin]

theorem isExec_of_inside {s : Scope} (h : (ofOrigin o).inside s = true) : o.isExec = true := by
  cases o <;> simp_all [Origin.isExec, ofOrigin, inside]

theorem commitRelation_eq (o o' : Origin) :
    commitRelation o o' = (ofOrigin o).inside (ofOrigin o') := by
  cases o <;> cases o' <;> rfl

theorem commitHash_eq (o : Origin) : commitHash o = (ofOrigin o).hashes := by
  cases o <;> rfl

theorem astDepth_cases (o : Origin) :
    (∃ depth, astDepth o = .ok depth ∧ (ofOrigin o).inner = some (ofOrigin (.ast depth)) ∧
      (ofOrigin (.ast depth)).inside (ofOrigin o) = true) ∨
    ∃ e, astDepth o = .error e ∧ (ofOrigin o).inner = none := by
  cases o with
  | block height identity => exact Or.inr ⟨_, rfl, rfl⟩
  | tx txHash => exact Or.inl ⟨1, rfl, rfl, rfl⟩
  | ast depth =>
    by_cases hlt : depth + 1 < 2 ^ 32
    · exact Or.inl ⟨depth + 1, if_pos hlt, if_pos hlt, rfl⟩
    · exact Or.inr ⟨_, if_neg hlt, if_neg hlt⟩

end Scope

/-- One layer of the reference. -/
structure Layer where
  scope : Scope
  state : MemKV
  logs : List LogEntry
  txHashes : List Hash

namespace Layer

/-- A layer just opened. -/
def fresh (scope : Scope) : Layer := ⟨scope, Overlay.empty, [], []⟩

/-- The parent after `child` is committed into it. -/
def absorb (parent child : Layer) : Layer where
  scope := parent.scope
  state := child.state.onto parent.state
  logs := parent.logs ++ child.logs
  txHashes := parent.txHashes ++ (child.txHashes ++ child.scope.hashes)

/-- The contents of a layer as the delta of a chunk. -/
def delta (ℓ : Layer) : ChunkDelta := ⟨ℓ.state, ℓ.logs, ℓ.txHashes⟩

end Layer

/-- The operations of the executor. Writes go to any open layer; layers open and close at the inner
end. -/
inductive StateOp where
  | spawnTx (txHash : Hash)
  | spawnAst
  | set (i : ℕ) (k : Key) (v : Val)
  | del (i : ℕ) (k : Key)
  | emitLog (i : ℕ) (entry : LogEntry)
  | commit
  | discard

namespace Nested

/-- A read through a stack of layers, innermost first. -/
def read (base : Disk) : List Layer → Disk
  | [] => base
  | ℓ :: rest => ℓ.state.apply (read base rest)

/-- One operation of the reference; `none` where it is not allowed. -/
def step : StateOp → List Layer → Option (List Layer)
  | .spawnTx txHash, ℓ :: rest =>
    if ℓ.scope = .block then some (.fresh (.tx txHash) :: ℓ :: rest) else none
  | .spawnAst, ℓ :: rest => ℓ.scope.inner.map fun scope => .fresh scope :: ℓ :: rest
  | .set i k v, ls => (ls[i]?).map fun ℓ => ls.set i { ℓ with state := ℓ.state.put k v }
  | .del i k, ls => (ls[i]?).map fun ℓ => ls.set i { ℓ with state := ℓ.state.del k }
  | .emitLog i entry, ls => (ls[i]?).map fun ℓ => ls.set i { ℓ with logs := ℓ.logs ++ [entry] }
  | .commit, child :: parent :: rest => some (parent.absorb child :: rest)
  | .discard, _ :: parent :: rest => some (parent :: rest)
  | _, _ => none

/-- A sequence of operations. -/
def run : List StateOp → List Layer → Option (List Layer)
  | [], ls => some ls
  | op :: ops, ls => (step op ls).bind (run ops)

end Nested

/-! ## The chunks -/

/-- The memory and the open chunks, innermost first. -/
abbrev ChunkStack : Type := Heap × List ℕ

namespace ChunkStack

/-- One operation on the open chunks, with the calls of chunk.rs. -/
def step : StateOp → ChunkStack → Option ChunkStack
  | .spawnTx txHash, (h, p :: rest) =>
    (h.spawnTxChild p txHash).toOption.map fun (q, h') => (h', q :: p :: rest)
  | .spawnAst, (h, p :: rest) =>
    (h.spawnAstChild p).toOption.map fun (q, h') => (h', q :: p :: rest)
  | .set i k v, (h, ptrs) => (ptrs[i]?).bind fun p => (h.set p k v).map (·, ptrs)
  | .del i k, (h, ptrs) => (ptrs[i]?).bind fun p => (h.del p k).map (·, ptrs)
  | .emitLog i entry, (h, ptrs) => (ptrs[i]?).bind fun p => (h.emitLog p entry).map (·, ptrs)
  | .commit, (h, p :: rest) =>
    (h.commitToParent p).toOption.map fun (parent, h') => (h', parent :: rest.tail)
  | .discard, (h, p :: rest) => (h.discard p).toOption.map fun h' => (h', rest)
  | _, (_, []) => none

/-- A sequence of operations. -/
def run : List StateOp → ChunkStack → Option ChunkStack
  | [], s => some s
  | op :: ops, s => (step op s).bind (run ops)

end ChunkStack

open ChunkStack

/-- What a chunk without a layer of its own would read. -/
def sourceRead (disk : Disk) (h : Heap) : Source → Key → Option (Option Val)
  | .disk, k => some (disk k)
  | .parent q, k => h.getState disk q k

/-- The chunk at `p` is open, reads from `source` and has the contents of `ℓ`. -/
def Holds (h : Heap) (p : ℕ) (source : Source) (ℓ : Layer) : Prop :=
  ∃ c, h.cell p = some c ∧ ofOrigin c.origin = ℓ.scope ∧ c.source = source ∧
    c.body = .writable ℓ.delta

/-- The open chunks are the layers: each reads from the next, and the block from `base`. -/
def Layered (disk base : Disk) (h : Heap) : List ℕ → List Layer → Prop
  | [p], [ℓ] => ℓ.scope = .block ∧
    ∃ source, Holds h p source ℓ ∧ ∀ k, sourceRead disk h source k = some (base k)
  | p :: q :: ps, ℓ :: ℓ' :: ls => ℓ.scope.inside ℓ'.scope = true ∧
    Holds h p (.parent q) ℓ ∧ Layered disk base h (q :: ps) (ℓ' :: ls)
  | _, _ => False

variable {disk base : Disk} {h h' : Heap} {p q b : ℕ} {ps ptrs : List ℕ} {ℓ : Layer}
  {ls : List Layer} {k : Key}

/-- A read from `p` only looks at chunks that are as old as `p`. -/
theorem getState_congr (disk : Disk) (k : Key) : ∀ {p : ℕ},
    (∀ q ≤ p, h'.cell q = h.cell q) → h'.getState disk p k = h.getState disk p k := by
  intro p
  induction p using Nat.strong_induction_on with
  | _ p ih =>
    intro hcell
    rw [getState_eq, getState_eq, hcell p le_rfl]
    cases hc : h.cell p with
    | none => rfl
    | some c =>
      dsimp only
      cases c.body.layer k with
      | some v => rfl
      | none =>
        cases hs : c.source with
        | disk => rfl
        | parent q =>
          have hlt := h.older hc hs
          exact ih q hlt fun r hr => hcell r (hr.trans hlt.le)

theorem Holds.congr {source : Source} (hh : Holds h p source ℓ)
    (hcell : h'.cell p = h.cell p) : Holds h' p source ℓ := by
  obtain ⟨c, hc, hrest⟩ := hh
  exact ⟨c, hcell.trans hc, hrest⟩

/-- A parent is older. -/
theorem Holds.lt (hh : Holds h p (.parent q) ℓ) : q < p := by
  obtain ⟨c, hc, -, hs, -⟩ := hh
  exact h.older hc hs

namespace Layered

theorem cases_cons (hl : Layered disk base h ptrs ls) :
    ∃ p ps ℓ rest source, ptrs = p :: ps ∧ ls = ℓ :: rest ∧ Holds h p source ℓ := by
  match ptrs, ls, hl with
  | [p], [ℓ], ⟨_, source, hh, _⟩ => exact ⟨p, [], ℓ, [], source, rfl, rfl, hh⟩
  | p :: q :: ps, ℓ :: ℓ' :: ls, ⟨_, hh, _⟩ => exact ⟨p, _, ℓ, _, _, rfl, rfl, hh⟩

theorem le_head : ∀ {ps : List ℕ} {p : ℕ} {ls : List Layer},
    Layered disk base h (p :: ps) ls → ∀ {r}, r ∈ p :: ps → r ≤ p
  | [], p, _, _, r, hr => (mem_singleton.mp hr).le
  | q :: ps, p, ℓ :: ℓ' :: ls, hl, r, hr => by
    rcases mem_cons.mp hr with rfl | hr
    · exact le_rfl
    · exact (le_head hl.2.2 hr).trans hl.2.1.lt.le

theorem congr : ∀ {ps : List ℕ} {p : ℕ} {ls : List Layer},
    Layered disk base h (p :: ps) ls → (∀ q ≤ p, h'.cell q = h.cell q) →
      Layered disk base h' (p :: ps) ls
  | [], p, [ℓ], hl, hcell => by
    obtain ⟨hscope, source, hh, hbase⟩ := hl
    refine ⟨hscope, source, hh.congr (hcell p le_rfl), fun k => ?_⟩
    rw [← hbase k]
    cases source with
    | disk => rfl
    | parent q => exact getState_congr disk k fun r hr => hcell r (hr.trans hh.lt.le)
  | q :: ps, p, ℓ :: ℓ' :: ls, hl, hcell => by
    obtain ⟨hin, hh, hrest⟩ := hl
    exact ⟨hin, hh.congr (hcell p le_rfl),
      hrest.congr fun r hr => hcell r (hr.trans hh.lt.le)⟩

/-- **A read at the top of a stack is the read of the reference.** -/
theorem getState_top : ∀ {ps : List ℕ} {p : ℕ} {ls : List Layer},
    Layered disk base h (p :: ps) ls → h.getState disk p k = some (Nested.read base ls k)
  | [], p, [ℓ], hl => by
    obtain ⟨-, source, ⟨c, hc, -, hs, hb⟩, hbase⟩ := hl
    rw [getState_eq, hc]
    simp only [hb, hs, ChunkBody.layer, Layer.delta, Nested.read, Overlay.apply]
    cases hk : ℓ.state k with
    | some v => rfl
    | none =>
      have := hbase k
      cases source with
      | disk | parent q => exact this
  | q :: ps, p, ℓ :: ℓ' :: ls, hl => by
    obtain ⟨-, ⟨c, hc, -, hs, hb⟩, hrest⟩ := hl
    rw [getState_eq, hc]
    simp only [hb, hs, ChunkBody.layer, Layer.delta, Nested.read, Overlay.apply]
    cases hk : ℓ.state k with
    | some v => rfl
    | none => exact hrest.getState_top

theorem drop : ∀ {i : ℕ} {ptrs : List ℕ} {ls : List Layer}, Layered disk base h ptrs ls →
    i < ptrs.length → Layered disk base h (ptrs.drop i) (ls.drop i)
  | 0, _, _, hl, _ => hl
  | _ + 1, [_], [_], _, hi => absurd hi (by simp)
  | i + 1, p :: q :: ps, ℓ :: ℓ' :: ls, hl, hi => hl.2.2.drop (by simpa using hi)

theorem length_eq : ∀ {ptrs : List ℕ} {ls : List Layer}, Layered disk base h ptrs ls →
    ptrs.length = ls.length
  | [_], [_], _ => rfl
  | _ :: _ :: _, _ :: _ :: _, hl => congrArg (· + 1) hl.2.2.length_eq

/-- The contents of an open chunk. -/
theorem holds_get : ∀ {i : ℕ} {ptrs : List ℕ} {ls : List Layer}, Layered disk base h ptrs ls →
    ptrs[i]? = some p → ls[i]? = some ℓ → ∃ source, Holds h p source ℓ := by
  intro i ptrs ls hl hp hℓ
  have hlt : i < ptrs.length := (List.getElem?_eq_some_iff.mp hp).1
  obtain ⟨p', ps, ℓ', rest, source, hps, hls, hh⟩ := (hl.drop hlt).cases_cons
  have h1 : ptrs[i]? = some p' := by rw [← List.head?_drop, hps, List.head?_cons]
  have h2 : ls[i]? = some ℓ' := by rw [← List.head?_drop, hls, List.head?_cons]
  rw [hp, some.injEq] at h1
  rw [hℓ, some.injEq] at h2
  exact ⟨source, h1 ▸ h2 ▸ hh⟩

theorem shape (hl : Layered disk base h ptrs ls) : (∃ p ℓ, ptrs = [p] ∧ ls = [ℓ]) ∨
    ∃ p q ps ℓ ℓ' ls', ptrs = p :: q :: ps ∧ ls = ℓ :: ℓ' :: ls' := by
  rcases ptrs with _ | ⟨p, _ | ⟨q, ps⟩⟩ <;> rcases ls with _ | ⟨ℓ, _ | ⟨ℓ', ls⟩⟩
  case cons.nil.cons.nil => exact Or.inl ⟨p, ℓ, rfl, rfl⟩
  case cons.cons.cons.cons => exact Or.inr ⟨p, q, ps, ℓ, ℓ', ls, rfl, rfl⟩
  all_goals exact False.elim hl

theorem write {ℓ' : Layer} (hscope : ℓ'.scope = ℓ.scope) :
    ∀ {i : ℕ} {ptrs : List ℕ} {ls : List Layer}, Layered disk base h ptrs ls →
      ptrs[i]? = some p → ls[i]? = some ℓ →
      Layered disk base (h.setBody p (.writable ℓ'.delta)) ptrs (ls.set i ℓ') := by
  have hhead : ∀ {source}, Holds h p source ℓ →
      Holds (h.setBody p (.writable ℓ'.delta)) p source ℓ' := by
    rintro source ⟨c, hc, ho, hs, -⟩
    refine ⟨{ c with body := .writable ℓ'.delta }, ?_, ho.trans hscope.symm, hs, rfl⟩
    rw [setBody, cell_modify_self, hc]
    rfl
  intro i
  induction i with
  | zero =>
    intro ptrs ls hl hp hℓ
    obtain ⟨p', ℓ₀, rfl, rfl⟩ | ⟨p', q, ps, ℓ₀, ℓ₁, ls, rfl, rfl⟩ := hl.shape
    · cases hp
      cases hℓ
      obtain ⟨hs, source, hh, hbase⟩ := hl
      refine ⟨hscope.trans hs, source, hhead hh, fun k => ?_⟩
      rw [← hbase k]
      cases source with
      | disk => rfl
      | parent q =>
        have hlt := hh.lt
        exact getState_congr disk k fun r hr => cell_setBody_of_ne (by omega)
    · cases hp
      cases hℓ
      obtain ⟨hin, hh, hrest⟩ := hl
      have hlt := hh.lt
      exact ⟨hscope ▸ hin, hhead hh,
        hrest.congr fun r hr => cell_setBody_of_ne (by omega)⟩
  | succ i ih =>
    intro ptrs ls hl hp hℓ
    obtain ⟨p', ℓ₀, rfl, rfl⟩ | ⟨p', q, ps, ℓ₀, ℓ₁, ls, rfl, rfl⟩ := hl.shape
    · cases hp
    · obtain ⟨hin, hh, hrest⟩ := hl
      have hp' : (q :: ps)[i]? = some p := hp
      have hℓ' : (ℓ₁ :: ls)[i]? = some ℓ := hℓ
      have hle := hrest.le_head (mem_of_getElem? hp')
      have hlt := hh.lt
      have hne : p' ≠ p := by omega
      have hset := ih hrest hp' hℓ'
      have hh' : Holds (h.setBody p (.writable ℓ'.delta)) p' (.parent q) ℓ₀ :=
        hh.congr (cell_setBody_of_ne hne)
      cases i with
      | zero =>
        cases hℓ'
        exact ⟨hscope.symm ▸ hin, hh', hset⟩
      | succ i => exact ⟨hin, hh', hset⟩

end Layered

/-! ## Every operation agrees -/

/-- A run of the chunks and one of the reference both fail, or end in related states. -/
inductive Agree (disk base : Disk) : Option ChunkStack → Option (List Layer) → Prop
  | fail : Agree disk base none none
  | done {h : Heap} {ptrs : List ℕ} {ls : List Layer} (hl : Layered disk base h ptrs ls) :
      Agree disk base (some (h, ptrs)) (some ls)

/-- A chunk just opened on the top of a stack. -/
theorem Layered.push {origin : Origin} {horg : origin.Proper} {c : StateChunk}
    (hl : Layered disk base h (p :: ps) (ℓ :: ls)) (hc : h.cell p = some c)
    (hin : (ofOrigin origin).inside ℓ.scope = true) :
    Layered disk base (h.allocOn p origin horg hc).2 ((h.allocOn p origin horg hc).1 :: p :: ps)
      (.fresh (ofOrigin origin) :: ℓ :: ls) := by
  have hlt := h.lt_next hc
  exact ⟨hin, ⟨_, cell_allocOn_self hc, rfl, rfl, rfl⟩,
    hl.congr fun r hr => cell_allocOn_of_ne hc (by omega)⟩

theorem agree_write {i : ℕ} {f : ChunkDelta → ChunkDelta} {g : Layer → Layer}
    (hfg : ∀ ℓ, (g ℓ).delta = f ℓ.delta) (hscope : ∀ ℓ, (g ℓ).scope = ℓ.scope)
    (hl : Layered disk base h ptrs ls) :
    Agree disk base
      ((ptrs[i]?).bind fun p => ((h.writable p).map fun δ =>
        h.setBody p (.writable (f δ))).map (·, ptrs)) ((ls[i]?).map fun ℓ => ls.set i (g ℓ)) := by
  have hlen := hl.length_eq
  cases hp : ptrs[i]? with
  | none =>
    have hls : ls[i]? = none := by
      rw [getElem?_eq_none_iff] at hp ⊢
      omega
    rw [hls]
    exact .fail
  | some p =>
    obtain ⟨ℓ, hℓ⟩ : ∃ ℓ, ls[i]? = some ℓ := by
      have := (List.getElem?_eq_some_iff.mp hp).1
      exact ⟨ls[i], List.getElem?_eq_getElem (by omega)⟩
    obtain ⟨source, c, hc, -, -, hb⟩ := hl.holds_get hp hℓ
    have hw : h.writable p = some ℓ.delta := writable_eq_some.mpr ⟨c, hc, hb⟩
    rw [hℓ, bind_some, hw, map_some, map_some, map_some]
    have := hl.write (hscope ℓ) hp hℓ
    rw [hfg] at this
    exact .done this

section

variable (hl : Layered disk base h ptrs ls)
include hl

theorem agree_spawnTx {txHash : Hash} :
    Agree disk base (step (.spawnTx txHash) (h, ptrs)) (Nested.step (.spawnTx txHash) ls) := by
  obtain ⟨p, ps, ℓ, rest, source, rfl, rfl, c, hc, ho, -, hb⟩ := hl.cases_cons
  have hwrit : c.body.asWritable.isSome = true := by rw [hb]; rfl
  simp only [step, Nested.step, spawnTxChild]
  split
  · next hnone => simp [hnone] at hc
  next c' hc' =>
    obtain rfl : c' = c := some.inj (hc'.symm.trans hc)
    by_cases hblock : ℓ.scope = .block
    · have horg : c'.origin.isBlock = true := (isBlock_iff _).mpr (ho.trans hblock)
      rw [if_pos hblock, if_pos (by rw [horg, hwrit]; rfl)]
      exact .done (hl.push hc' (by rw [hblock]; rfl))
    · have horg : c'.origin.isBlock = false :=
        Bool.eq_false_iff.mpr fun hb => hblock (ho.symm.trans ((isBlock_iff _).mp hb))
      rw [if_neg hblock, if_neg (by rw [horg]; simp)]
      exact .fail

theorem agree_spawnAst : Agree disk base (step .spawnAst (h, ptrs)) (Nested.step .spawnAst ls) := by
  obtain ⟨p, ps, ℓ, rest, source, rfl, rfl, c, hc, ho, -, hb⟩ := hl.cases_cons
  have hwrit : c.body.asWritable.isSome = true := by rw [hb]; rfl
  simp only [step, Nested.step, spawnAstChild]
  split
  · next hnone => simp [hnone] at hc
  next c' hc' =>
    obtain rfl : c' = c := some.inj (hc'.symm.trans hc)
    rcases astDepth_cases c'.origin with ⟨depth, hd, hinner, hin⟩ | ⟨e, hd, hinner⟩
    · rw [ho] at hinner hin
      rw [hd, hinner]
      simp only [Except.bind, bind, hwrit, if_true]
      exact .done (hl.push hc' hin)
    · rw [ho] at hinner
      rw [hd, hinner]
      exact .fail

theorem agree_commit : Agree disk base (step .commit (h, ptrs)) (Nested.step .commit ls) := by
  match ptrs, ls, hl with
  | [p], [ℓ], ⟨hscope, _, ⟨c, hc, ho, _, _⟩, _⟩ =>
    have hexec : c.origin.isExec = false := isExec_of_block (ho.trans hscope)
    have herr : h.commitToParent p = .error .commitNotExec := by
      simp [commitToParent, hc, hexec]
    simp only [step, Nested.step, herr]
    exact .fail
  | p :: q :: ps, ℓ :: ℓ' :: ls, hl =>
    obtain ⟨hin, ⟨c, hc, ho, hs, hb⟩, hrest⟩ := hl
    obtain ⟨q', qs, ℓ₁, rest, source, hq, hℓ, pc, hpc, hpo, hps, hpb⟩ := hrest.cases_cons
    cases hq
    cases hℓ
    have hlt : q < p := h.older hc hs
    have hparent : h.parent p = some q := by
      rw [parent_eq_some, Heap.source, hc, hpc]
      exact ⟨congrArg some hs, rfl⟩
    have hrel : Heap.commitRelation c.origin pc.origin = true := by
      rw [commitRelation_eq, ho, hpo]
      exact hin
    have hexec : c.origin.isExec = true := isExec_of_inside (s := ℓ'.scope) (ho ▸ hin)
    have hcommit : h.commitToParent p = .ok (q, (h.setBody p .consumed).setBody q
        (.writable (mergeDelta c.origin ℓ'.delta ℓ.delta))) := by
      simp [commitToParent, hc, hpc, hparent, hrel, hexec, hb, hpb, ChunkBody.asWritable]
    have hmerge : mergeDelta c.origin ℓ'.delta ℓ.delta = (ℓ'.absorb ℓ).delta := by
      rw [mergeDelta, commitHash_eq, ho]
      rfl
    have hlow : Layered disk base (h.setBody p .consumed) (q :: ps) (ℓ' :: ls) :=
      hrest.congr fun r hr => cell_setBody_of_ne (by omega)
    have hscope : (ℓ'.absorb ℓ).scope = ℓ'.scope := rfl
    have hset := hlow.write (i := 0) hscope rfl rfl
    simp only [step, Nested.step, hcommit, hmerge]
    exact .done hset

/-- A discarded chunk leaves the stack below it. -/
theorem agree_discard : Agree disk base (step .discard (h, ptrs)) (Nested.step .discard ls) := by
  match ptrs, ls, hl with
  | [p], [ℓ], ⟨hscope, _, ⟨c, hc, ho, _, _⟩, _⟩ =>
    have hexec : c.origin.isExec = false := isExec_of_block (ho.trans hscope)
    have herr : h.discard p = .error .discardNotExec := by
      simp [Heap.discard, hc, hexec]
    simp only [step, Nested.step, herr]
    exact .fail
  | p :: q :: ps, ℓ :: ℓ' :: ls, hl =>
    obtain ⟨hin, ⟨c, hc, ho, hs, hb⟩, hrest⟩ := hl
    have hlt : q < p := h.older hc hs
    have hexec : c.origin.isExec = true := isExec_of_inside (s := ℓ'.scope) (ho ▸ hin)
    have hdiscard : h.discard p = .ok (h.setBody p .consumed) := by
      simp [Heap.discard, hc, hexec, hb, ChunkBody.asWritable]
    simp only [step, Nested.step, hdiscard]
    exact .done (hrest.congr fun r hr => cell_setBody_of_ne (by omega))

end

/-- **Every operation agrees with the reference.** -/
theorem layered_step (op : StateOp) (hl : Layered disk base h ptrs ls) :
    Agree disk base (step op (h, ptrs)) (Nested.step op ls) := by
  cases op with
  | spawnTx txHash => exact agree_spawnTx hl
  | spawnAst => exact agree_spawnAst hl
  | set i k v =>
    exact agree_write (g := fun ℓ => { ℓ with state := ℓ.state.put k v }) (fun _ => rfl)
      (fun _ => rfl) hl
  | del i k =>
    exact agree_write (g := fun ℓ => { ℓ with state := ℓ.state.del k }) (fun _ => rfl)
      (fun _ => rfl) hl
  | emitLog i entry =>
    exact agree_write (g := fun ℓ => { ℓ with logs := ℓ.logs ++ [entry] }) (fun _ => rfl)
      (fun _ => rfl) hl
  | commit => exact agree_commit hl
  | discard => exact agree_discard hl

/-- **Every sequence of operations agrees with the reference.** -/
theorem layered_run : ∀ (ops : List StateOp) {h : Heap} {ptrs : List ℕ} {ls : List Layer},
    Layered disk base h ptrs ls →
      Agree disk base (run ops (h, ptrs)) (Nested.run ops ls)
  | [], _, _, _, hl => .done hl
  | op :: ops, h, ptrs, ls, hl => by
    have hstep := layered_step op hl
    rw [run, Nested.run]
    revert hstep
    generalize step op (h, ptrs) = s
    generalize Nested.step op ls = r
    intro hstep
    cases hstep with
    | fail => exact .fail
    | done hl' => exact layered_run ops hl'

/-! ## The operations on the top chunk

What each operation does to a stack with a known top, for code that works on one chunk at
a time. -/

namespace Layered

/-- A write to the top chunk. -/
theorem writeTop {f : ChunkDelta → ChunkDelta} {g : Layer → Layer}
    (hfg : ∀ ℓ, (g ℓ).delta = f ℓ.delta) (hscope : ∀ ℓ, (g ℓ).scope = ℓ.scope)
    (hl : Layered disk base h (p :: ps) (ℓ :: ls)) :
    ∃ h', ((h.writable p).map fun δ => h.setBody p (.writable (f δ))) = some h' ∧
      Layered disk base h' (p :: ps) (g ℓ :: ls) := by
  obtain ⟨source, c, hc, -, -, hb⟩ := hl.holds_get (i := 0) rfl rfl
  have hw : h.writable p = some ℓ.delta := writable_eq_some.mpr ⟨c, hc, hb⟩
  have hwrite := hl.write (i := 0) (hscope ℓ) rfl rfl
  rw [hfg] at hwrite
  exact ⟨_, by rw [hw, map_some], hwrite⟩

theorem spawnAst (hl : Layered disk base h (p :: ps) (ℓ :: ls)) :
    (∃ q h' scope, h.spawnAstChild p = .ok (q, h') ∧ ℓ.scope.inner = some scope ∧
      Layered disk base h' (q :: p :: ps) (.fresh scope :: ℓ :: ls)) ∨
    ∃ e, h.spawnAstChild p = .error e ∧ ℓ.scope.inner = none := by
  have hagree := agree_spawnAst hl
  simp only [step, Nested.step] at hagree
  cases hr : h.spawnAstChild p with
  | error e =>
    rw [hr] at hagree
    cases hs : ℓ.scope.inner with
    | none => exact Or.inr ⟨e, rfl, rfl⟩
    | some scope => rw [hs] at hagree; cases hagree
  | ok r =>
    rw [hr] at hagree
    cases hs : ℓ.scope.inner with
    | none => rw [hs] at hagree; cases hagree
    | some scope =>
      rw [hs] at hagree
      cases hagree with
      | done hl' => exact Or.inl ⟨r.1, r.2, scope, rfl, rfl, hl'⟩

section

variable {ℓ' : Layer} (hl : Layered disk base h (p :: q :: ps) (ℓ :: ℓ' :: ls))
include hl

theorem commitTop : ∃ h', h.commitToParent p = .ok (q, h') ∧
      Layered disk base h' (q :: ps) (ℓ'.absorb ℓ :: ls) := by
  have hagree := agree_commit hl
  simp only [step, Nested.step] at hagree
  cases hr : h.commitToParent p with
  | error e => rw [hr] at hagree; cases hagree
  | ok r =>
    obtain ⟨parent, h'⟩ := r
    obtain ⟨c, hc, -, hs, -⟩ := hl.2.1
    obtain ⟨c', _, _, _, hc', -, hs', -⟩ := commitToParent_ok hr
    obtain rfl : c = c' := some.inj (hc.symm.trans hc')
    obtain rfl : q = parent := by
      rw [hs] at hs'
      cases hs'
      rfl
    rw [hr] at hagree
    cases hagree with
    | done hl' => exact ⟨h', rfl, hl'⟩

/-- The top chunk is discarded. -/
theorem discardTop : ∃ h', h.discard p = .ok h' ∧ Layered disk base h' (q :: ps) (ℓ' :: ls) := by
  have hagree := agree_discard hl
  simp only [step, Nested.step] at hagree
  cases hr : h.discard p with
  | error e => rw [hr] at hagree; cases hagree
  | ok h' =>
    rw [hr] at hagree
    cases hagree with
    | done hl' => exact ⟨h', rfl, hl'⟩

end

end Layered

/-! ## Closed for good -/

/-- What can happen to the memory: execution, the links of blocks, rolls, resets and release. Drafts
are not modelled: `block_draft_on` opens a block chunk without identity, and `take_draft_delta`
takes the delta out of one that is still writable. -/
inductive MemStep : Heap → Heap → Prop
  | exec {h h' : Heap} (ok : Heap.ExecStep h h') : MemStep h h'
  | attach {h h' : Heap} {par child : ℕ} (ok : h.attachBlockChild par child = .ok h') :
      MemStep h h'
  | detach {h : Heap} (par child : ℕ) : MemStep h (h.removeBlockChild par child).2
  | promote {h h' : Heap} {p : ℕ} (ok : h.promoteToRoot p = .ok h') : MemStep h h'
  | newRoot {h : Heap} (block : Block) : MemStep h (h.newRoot block).2
  | free {h : Heap} (p : ℕ) : MemStep h (h.free p)

theorem Settled.step (hp : Settled h p) (hs : MemStep h h') : Settled h' p := by
  cases hs with
  | exec ok => exact ok.extends.settled hp
  | @attach _ par child ok =>
    have hl := attachBlockChild_ok ok
    refine ⟨hl.next_eq ▸ hp.1, ?_⟩
    by_cases hc : p = child
    · obtain ⟨δ, -, hfrozen⟩ := hl.froze
      rw [hc, writable, hfrozen]
      rfl
    · rw [writable, hl.body_ne hc]
      exact hp.2
  | detach par child =>
    refine ⟨hp.1, ?_⟩
    show (h.dropChild par child).writable p = none
    rw [writable, body_dropChild]
    exact hp.2
  | @promote _ r ok =>
    have heq : h' = h.setDisk r := by
      unfold promoteToRoot at ok
      split at ok
      · cases ok
      · split_ifs at ok
        cases ok
        rfl
    rw [heq]
    refine ⟨hp.1, ?_⟩
    rw [writable, body_setDisk]
    exact hp.2
  | newRoot block =>
    refine ⟨Nat.lt_succ_of_lt hp.1, ?_⟩
    rw [writable, body, cell_newRoot_of_ne h block hp.1.ne]
    exact hp.2
  | free r =>
    refine ⟨hp.1, ?_⟩
    by_cases hr : p = r
    · rw [hr, writable, body, cell_free_self]
      rfl
    · rw [writable, body, cell_free_of_ne hr]
      exact hp.2

theorem Settled.steps (hp : Settled h p) (hs : Relation.ReflTransGen MemStep h h') :
    Settled h' p := by
  induction hs with
  | refl => exact hp
  | tail _ hstep ih => exact ih.step hstep

/-- Every write, commit and discard of the chunk at `p` fails. -/
def Refuses (h : Heap) (p : ℕ) : Prop :=
  (∀ k v, h.set p k v = none) ∧ (∀ k, h.del p k = none) ∧ (∀ entry, h.emitLog p entry = none) ∧
    (∃ e, h.commitToParent p = .error e) ∧ ∃ e, h.discard p = .error e

theorem Settled.refuses (hp : Settled h p) : Refuses h p := by
  have hclosed : ∀ {c δ}, h.cell p = some c → c.body ≠ .writable δ := by
    intro c δ hc hb
    have := hp.asWritable hc
    rw [hb] at this
    cases this
  refine ⟨fun k v => ?_, fun k => ?_, fun entry => ?_, ?_, ?_⟩
  · rw [Heap.set, hp.2]
    rfl
  · rw [Heap.del, hp.2]
    rfl
  · rw [emitLog, hp.2]
    rfl
  · cases hr : h.commitToParent p with
    | error e => exact ⟨e, rfl⟩
    | ok r =>
      obtain ⟨c, _, _, child, hc, -, -, -, -, hb, -⟩ := commitToParent_ok hr
      exact absurd hb (hclosed hc)
  · cases hr : h.discard p with
    | error e => exact ⟨e, rfl⟩
    | ok r =>
      obtain ⟨c, child, hc, -, hb, -⟩ := discard_ok hr
      exact absurd hb (hclosed hc)

/-- What closes a chunk. -/
inductive Closes (p : ℕ) : Heap → Heap → Prop
  | commit {h h' : Heap} {parent : ℕ} (ok : h.commitToParent p = .ok (parent, h')) :
      Closes p h h'
  | discard {h h' : Heap} (ok : h.discard p = .ok h') : Closes p h h'
  | freeze {h h' : Heap} {par : ℕ} (ok : h.attachBlockChild par p = .ok h') : Closes p h h'

theorem Closes.settled (hs : Closes p h h') : Settled h' p := by
  have hconsumed : ∀ {c : StateChunk}, h.cell p = some c →
      Settled (h.setBody p .consumed) p := by
    intro c hc
    refine ⟨h.lt_next hc, ?_⟩
    rw [writable, body_setBody_self hc]
    rfl
  cases hs with
  | commit ok =>
    obtain ⟨c, pc, target, child, hc, -, hs, -, -, -, rfl⟩ := commitToParent_ok ok
    have hne : p ≠ _ := (h.older hc hs).ne'
    refine ⟨(hconsumed hc).1, ?_⟩
    rw [writable, body_setBody_of_ne hne]
    exact (hconsumed hc).2
  | discard ok =>
    obtain ⟨c, -, hc, -, -, rfl⟩ := discard_ok ok
    exact hconsumed hc
  | freeze ok =>
    have hl := attachBlockChild_ok ok
    obtain ⟨δ, hδ, hfrozen⟩ := hl.froze
    obtain ⟨c, hc, -⟩ := map_eq_some_iff.mp hδ
    refine ⟨hl.next_eq ▸ h.lt_next hc, ?_⟩
    rw [writable, hfrozen]
    rfl

/-! ## The result -/

/-- What an open chunk shows: its reads, its logs and its transaction hashes. -/
structure Shows (disk : Disk) (h : Heap) (p : ℕ) (view : Disk) (logs : List LogEntry)
    (txHashes : List Hash) : Prop where
  read : ∀ k, h.getState disk p k = some (view k)
  logs : h.blockLogs p = logs
  txHashes : h.blockTxHashes p = txHashes

theorem Layered.shows {i : ℕ} (hl : Layered disk base h ptrs ls) (hp : ptrs[i]? = some p)
    (hℓ : ls[i]? = some ℓ) : Shows disk h p (Nested.read base (ls.drop i)) ℓ.logs ℓ.txHashes := by
  obtain ⟨source, c, hc, -, -, hb⟩ := hl.holds_get hp hℓ
  have hlt : i < ptrs.length := (List.getElem?_eq_some_iff.mp hp).1
  refine ⟨fun k => ?_, ?_, ?_⟩
  · have hdrop := hl.drop hlt
    have hhead : ptrs.drop i = p :: ptrs.drop (i + 1) := by
      rw [drop_eq_getElem_cons hlt, (List.getElem?_eq_some_iff.mp hp).2]
    rw [hhead] at hdrop
    exact hdrop.getState_top
  · simp [blockLogs, body, hc, hb, ChunkBody.logs, Layer.delta]
  · simp [blockTxHashes, body, hc, hb, ChunkBody.txHashes, Layer.delta]

theorem commitToParent_appends {parent : ℕ} {txHash : List Hash}
    (ok : h.commitToParent p = .ok (parent, h')) (htx : (h.origin p).map commitHash = some txHash) :
    h'.blockLogs parent = h.blockLogs parent ++ h.blockLogs p ∧
      h'.blockTxHashes parent = h.blockTxHashes parent ++ (h.blockTxHashes p ++ txHash) := by
  obtain ⟨c, pc, target, child, hc, hpc, hs, -, hpb, hb, rfl⟩ := commitToParent_ok ok
  have hne : parent ≠ p := (h.older hc hs).ne
  have hpc' : (h.setBody p .consumed).cell parent = some pc :=
    (cell_setBody_of_ne hne).trans hpc
  have htx' : commitHash c.origin = txHash := by simpa [origin, hc] using htx
  have hbody := body_setBody_self
    (b := .writable (mergeDelta c.origin target child)) hpc'
  have hself : h.body p = some (.writable child) := by rw [body, hc, map_some, hb]
  have hpar : h.body parent = some (.writable target) := by
    rw [body, hpc, map_some, hpb]
  constructor
  · rw [blockLogs, hbody, blockLogs, hpar, blockLogs, hself]
    rfl
  · rw [blockTxHashes, hbody, blockTxHashes, hpar, blockTxHashes, hself, ← htx']
    rfl

theorem discard_keeps (disk : Disk) (ok : h.discard p = .ok h') (hq : q < p) :
    (∀ k, h'.getState disk q k = h.getState disk q k) ∧
      h'.blockLogs q = h.blockLogs q ∧ h'.blockTxHashes q = h.blockTxHashes q := by
  obtain ⟨c, child, hc, -, hb, rfl⟩ := discard_ok ok
  have hcell : ∀ r ≤ q, (h.setBody p .consumed).cell r = h.cell r :=
    fun r hr => cell_setBody_of_ne (by omega)
  refine ⟨fun k => getState_congr disk k hcell, ?_, ?_⟩
  · rw [blockLogs, body, hcell q le_rfl]
    rfl
  · rw [blockTxHashes, body, hcell q le_rfl]
    rfl

theorem layered_blockExecOn {parent : ℕ} {block : Block} {key : ForkChoiceKey}
    (ok : h.blockExecOn parent block key = .ok (b, h'))
    (hbase : ∀ k, h.getState disk parent k = some (base k)) :
    Layered disk base h' [b] [.fresh .block] := by
  obtain ⟨rfl, -, hcell, hother⟩ := blockExecOn_ok ok
  have hlt : parent < h.next := by
    cases hc : h.cell parent with
    | none =>
      have := hbase []
      rw [getState_eq, hc] at this
      cases this
    | some c => exact h.lt_next hc
  refine ⟨rfl, .parent parent, ⟨_, hcell, rfl, rfl, rfl⟩, fun k => ?_⟩
  rw [← hbase k]
  exact getState_congr disk k fun r hr => hother r (by omega)

/-- **Chunks are nested transactions.** Every sequence of operations on the open chunks of a block
does what it does on the reference, and every open chunk shows its layer. A commit appends logs
and hashes to the parent's; a discard changes nothing there; a chunk that was committed,
discarded or frozen stays closed. -/
theorem nested_transactions (hstart : Layered disk base h [b] [ℓ]) :
    (∀ ops,
      (run ops (h, [b]) = none ↔ Nested.run ops [ℓ] = none) ∧
      ∀ h' ptrs ls, run ops (h, [b]) = some (h', ptrs) → Nested.run ops [ℓ] = some ls →
        ptrs.length = ls.length ∧ ∀ i p ℓ', ptrs[i]? = some p → ls[i]? = some ℓ' →
          Shows disk h' p (Nested.read base (ls.drop i)) ℓ'.logs ℓ'.txHashes) ∧
    (∀ (h h' : Heap) p parent txHash, h.commitToParent p = .ok (parent, h') →
      (h.origin p).map commitHash = some txHash →
      h'.blockLogs parent = h.blockLogs parent ++ h.blockLogs p ∧
        h'.blockTxHashes parent = h.blockTxHashes parent ++ (h.blockTxHashes p ++ txHash)) ∧
    (∀ (h h' : Heap) p parent, h.discard p = .ok h' → h.parent p = some parent →
      (∀ k, h'.getState disk parent k = h.getState disk parent k) ∧
        h'.blockLogs parent = h.blockLogs parent ∧
        h'.blockTxHashes parent = h.blockTxHashes parent) ∧
    ∀ (h h' h'' : Heap) p, Closes p h h' → Relation.ReflTransGen MemStep h' h'' →
      Refuses h'' p := by
  refine ⟨fun ops => ?_, fun h h' p parent txHash => commitToParent_appends,
    fun h h' p parent ok hpar => discard_keeps disk ok (h.parent_lt hpar).1,
    fun h h' h'' p hc hs => (hc.settled.steps hs).refuses⟩
  have hagree := layered_run ops hstart
  generalize run ops (h, [b]) = s at hagree
  generalize Nested.run ops [ℓ] = r at hagree
  cases hagree with
  | fail => exact ⟨by simp, by simp⟩
  | done hl =>
    refine ⟨by simp, ?_⟩
    intro h' ptrs' ls' hs hr
    cases hs
    cases hr
    exact ⟨hl.length_eq, fun i p ℓ' hp hℓ => hl.shows hp hℓ⟩

/-- A transaction that writes and is committed, and one that deletes and is discarded. -/
def sampleOps : List StateOp :=
  [.spawnTx (.fill 1), .set 0 [1] [2], .commit, .spawnTx (.fill 2), .del 0 [1], .discard]

/-- A block opened on an empty database, after `sampleOps`. -/
theorem nested_transactions_sampleOps :
    ∃ h b h' p, Layered (fun _ => none) (fun _ => none) h [b] [.fresh .block] ∧
      run sampleOps (h, [b]) = some (h', [p]) ∧
      h'.getState (fun _ => none) p [1] = some (some [2]) ∧
      h'.blockTxHashes p = [.fill 1] := by
  let root : Block := .sample 0 1 0
  let child : Block := .sample 1 2 1
  have hok : ((empty.newRoot root).2.blockExecOn 0 child (.fromHeight 1)).isOk = true := by
    decide
  cases hexec : (empty.newRoot root).2.blockExecOn 0 child (.fromHeight 1) with
  | error e =>
    rw [hexec] at hok
    cases hok
  | ok r =>
    obtain ⟨b, h⟩ := r
    have hstart : Layered (fun _ => none) (fun _ => none) h [b] [.fresh .block] :=
      layered_blockExecOn hexec fun k => rfl
    obtain ⟨hiff, hshow⟩ := (nested_transactions hstart).1 sampleOps
    obtain ⟨ls, href⟩ : ∃ ls, Nested.run sampleOps [.fresh .block] = some ls := ⟨_, rfl⟩
    cases hrun : run sampleOps (h, [b]) with
    | none =>
      rw [hiff.mp hrun] at href
      cases href
    | some r =>
      obtain ⟨h', ptrs⟩ := r
      obtain ⟨hlen, hget⟩ := hshow h' ptrs ls hrun href
      cases href
      obtain ⟨p, rfl⟩ := length_eq_one_iff.mp hlen
      have hp := hget 0 p _ rfl rfl
      exact ⟨h, b, h', p, hstart, hrun, hp.read [1], hp.txHashes⟩

end Hacash
