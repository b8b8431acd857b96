import Mathlib.Data.Set.Card
import Hacash.Ledger.DiamondMint

/-!
# The index of diamond ownership (`base::ledger`, `mint_core::exec`)

Who owns which diamond is stored in four records that have to agree. **Key result**:
`diamondIndex_run`; a mint may write no buffer (`mint_without_form`).
-/

namespace Hacash

open Function

open List

open CoreState Hacash.Lib

/-! ## Agreement of the records -/

/-- The names of the diamonds whose record names the address. -/
def CoreState.diamondsOf (s : CoreState) (a : Address) : Set DiamondName :=
  { name | ∃ d, s.diamond name = some d ∧ d.address = a }

/-- A list has the names of the diamonds of an address, each once. -/
structure CoreState.Owns (s : CoreState) (a : Address) (names : List DiamondName) : Prop where
  nodup : names.Nodup
  mem : ∀ name, name ∈ names ↔ name ∈ s.diamondsOf a

/-- **The records of diamonds agree.** -/
structure DiamondIndex (s : CoreState) : Prop where
  /-- The count of a balance is the number of records that name the address. -/
  count : ∀ a, (s.balanceOf a).diamond = (s.diamondsOf a).ncard
  /-- The buffer of an address has the names of its diamonds, each once. -/
  owned : ∀ a, ∃ names, (s.ownedForm a).Lists names ∧ s.Owns a names
  /-- The numbers in use are those up to the latest one. -/
  minted : ∀ n, (∃ name, s.diamondName n = some name) ↔ 1 ≤ n ∧ n ≤ s.latestNumber
  /-- A diamond has one number. -/
  unique : ∀ n m name, s.diamondName n = some name → s.diamondName m = some name → n = m
  /-- The names with a number are those of the diamonds that exist. -/
  exist : ∀ name, (∃ n, s.diamondName n = some name) ↔ ∃ d, s.diamond name = some d

theorem CoreState.Owns.ncard {s : CoreState} {a : Address} {names : List DiamondName}
    (h : s.Owns a names) : (s.diamondsOf a).ncard = names.length := by
  classical
  have hset : s.diamondsOf a = (names.toFinset : Set DiamondName) := by
    ext name
    rw [← h.mem name, Finset.mem_coe, mem_toFinset]
  rw [hset, Set.ncard_coe_finset, toFinset_card_of_nodup h.nodup]

theorem DiamondIndex.count_of {s : CoreState} (hs : DiamondIndex s) {a : Address}
    {names : List DiamondName} (h : s.Owns a names) : (s.balanceOf a).diamond = names.length := by
  rw [hs.count, h.ncard]

/-! ## Transfers -/

section

variable {s s' : CoreState} {src dst : Address} {names : List DiamondName}

section

variable (h : MovedDiamonds s s' src dst names)
include h

theorem MovedDiamonds.diamondsOf_src (hne : src ≠ dst) (name : DiamondName) :
    name ∈ s'.diamondsOf src ↔ name ∈ s.diamondsOf src ∧ name ∉ names := by
  by_cases hname : name ∈ names
  · obtain ⟨d, -, -, hd'⟩ := h.moved name hname
    constructor
    · rintro ⟨e, he, haddr⟩
      rw [hd'] at he
      cases he
      exact absurd haddr.symm hne
    · exact fun hsrc => absurd hname hsrc.2
  · rw [diamondsOf, diamondsOf, Set.mem_ofPred_eq, Set.mem_ofPred_eq,
      h.kept name hname]
    exact ⟨fun hsrc => ⟨hsrc, hname⟩, fun hsrc => hsrc.1⟩

theorem MovedDiamonds.diamondsOf_dst (name : DiamondName) :
    name ∈ s'.diamondsOf dst ↔ name ∈ s.diamondsOf dst ∨ name ∈ names := by
  by_cases hname : name ∈ names
  · obtain ⟨d, -, -, hd'⟩ := h.moved name hname
    exact ⟨fun _ => .inr hname, fun _ => ⟨_, hd', rfl⟩⟩
  · rw [diamondsOf, diamondsOf, Set.mem_ofPred_eq, Set.mem_ofPred_eq,
      h.kept name hname]
    exact ⟨.inl, fun hdst => hdst.resolve_right hname⟩

theorem MovedDiamonds.diamondsOf_other {a : Address}
    (hsrc : a ≠ src) (hdst : a ≠ dst) : s'.diamondsOf a = s.diamondsOf a := by
  ext name
  by_cases hname : name ∈ names
  · obtain ⟨d, hd, haddr, hd'⟩ := h.moved name hname
    constructor
    · rintro ⟨e, he, heq⟩
      rw [hd'] at he
      cases he
      exact absurd heq.symm hdst
    · rintro ⟨e, he, heq⟩
      rw [hd] at he
      cases he
      exact absurd (heq.symm.trans haddr) hsrc
  · rw [diamondsOf, diamondsOf, Set.mem_ofPred_eq, Set.mem_ofPred_eq,
      h.kept name hname]

theorem MovedDiamonds.exist (name : DiamondName) :
    (∃ d, s'.diamond name = some d) ↔ ∃ d, s.diamond name = some d := by
  by_cases hname : name ∈ names
  · obtain ⟨d, hd, -, hd'⟩ := h.moved name hname
    exact ⟨fun _ => ⟨d, hd⟩, fun _ => ⟨_, hd'⟩⟩
  · rw [h.kept name hname]

theorem MovedDiamonds.mem_src {name : DiamondName}
    (hname : name ∈ names) : name ∈ s.diamondsOf src := by
  obtain ⟨d, hd, haddr, -⟩ := h.moved name hname
  exact ⟨d, hd, haddr⟩

end

section

variable (h : HacdTransferred s s' src dst names true) (hs : DiamondIndex s)
include h hs

theorem HacdTransferred.owns_src : ∃ left, (s'.ownedForm src).Lists left ∧ s'.Owns src left ∧
      left.length + names.length = (s.balanceOf src).diamond := by
  obtain ⟨owned, owned', hdrop, -, hforms⟩ := h.owned rfl
  obtain ⟨had, hlists, hown⟩ := hs.owned src
  obtain ⟨left, hleft, hnodup, hmem⟩ := hlists.drop hown.nodup hdrop
  have howns : s'.Owns src left := ⟨hnodup, fun name => by
    rw [hmem, hown.mem, h.moved.diamondsOf_src h.ne]⟩
  refine ⟨left, ?_, howns, ?_⟩
  · rw [hforms, update_of_ne h.ne, update_self]
    exact hleft
  · have hdisj : (names ++ left).Nodup := by
      refine nodup_append.mpr ⟨h.nodup, hnodup, ?_⟩
      rintro n hn m hm rfl
      exact ((hmem n).mp hm).2 hn
    have hperm : had.Perm (names ++ left) := by
      rw [perm_ext_iff_of_nodup hown.nodup hdisj]
      intro n
      rw [mem_append, hmem]
      constructor
      · intro hn
        by_cases hmoved : n ∈ names
        · exact .inl hmoved
        · exact .inr ⟨hn, hmoved⟩
      · rintro (hn | hn)
        · exact (hown.mem n).mpr (h.moved.mem_src hn)
        · exact hn.1
    rw [hs.count_of hown, hperm.length_eq, length_append, Nat.add_comm]

theorem HacdTransferred.owns_dst : ∃ all, (s'.ownedForm dst).Lists all ∧ s'.Owns dst all ∧
      all.length = (s.balanceOf dst).diamond + names.length := by
  obtain ⟨owned, owned', -, hpush, hforms⟩ := h.owned rfl
  obtain ⟨had, hlists, hown⟩ := hs.owned dst
  obtain ⟨all, hall, hnodup, hmem⟩ := hlists.push hown.nodup hpush
  have howns : s'.Owns dst all := ⟨hnodup, fun name => by
    rw [hmem, hown.mem, h.moved.diamondsOf_dst]⟩
  refine ⟨all, ?_, howns, ?_⟩
  · rw [hforms, update_self]
    exact hall
  · have hdisj : (had ++ names).Nodup := by
      refine nodup_append.mpr ⟨hown.nodup, h.nodup, ?_⟩
      rintro n hn m hm rfl
      -- a name cannot be the sender's and the recipient's
      obtain ⟨d, hd, haddr⟩ := (hown.mem n).mp hn
      obtain ⟨e, he, haddr'⟩ := h.moved.mem_src hm
      rw [hd] at he
      cases he
      exact h.ne (haddr'.symm.trans haddr)
    have hperm : all.Perm (had ++ names) := by
      rw [perm_ext_iff_of_nodup hnodup hdisj]
      intro n
      rw [mem_append, hmem]
    rw [hperm.length_eq, length_append, hs.count_of hown]

end

/-- **A transfer keeps the records in agreement.** -/
theorem DiamondIndex.transfer (hs : DiamondIndex s)
    (h : HacdTransferred s s' src dst names true) : DiamondIndex s' := by
  obtain ⟨left, hleft, howns, hcount⟩ := h.owns_src hs
  obtain ⟨all, hall, howns', hcount'⟩ := h.owns_dst hs
  refine ⟨fun a => ?_, fun a => ?_, ?_, ?_, fun name => ?_⟩
  · by_cases hsrc : a = src
    · subst hsrc
      have := h.count_src
      rw [howns.ncard]
      omega
    by_cases hdst : a = dst
    · subst hdst
      rw [howns'.ncard, h.count_dst, hcount']
    · rw [h.count_other a hsrc hdst, h.moved.diamondsOf_other hsrc hdst, hs.count]
  · by_cases hsrc : a = src
    · subst hsrc
      exact ⟨left, hleft, howns⟩
    by_cases hdst : a = dst
    · subst hdst
      exact ⟨all, hall, howns'⟩
    · obtain ⟨owned, owned', -, -, hforms⟩ := h.owned rfl
      obtain ⟨had, hlists, hown⟩ := hs.owned a
      refine ⟨had, ?_, hown.nodup, fun name => ?_⟩
      · rw [hforms, update_of_ne hdst, update_of_ne hsrc]
        exact hlists
      · rw [hown.mem, h.moved.diamondsOf_other hsrc hdst]
  · rw [latestNumber, h.diamondName, h.latestDiamond]
    exact hs.minted
  · rw [h.diamondName]
    exact hs.unique
  · rw [h.diamondName, h.moved.exist, hs.exist]

end

/-! ## Mints -/

section

variable {x : X16rs} {env : MintEnv} {act : HacdMintData} {s s' : CoreState}

section

variable (h : Minted env act s s')
include h

theorem Minted.diamondsOf_owner (name : DiamondName) :
    name ∈ s'.diamondsOf act.address ↔ name ∈ s.diamondsOf act.address ∨ name = act.diamond := by
  show (∃ d, s'.diamond name = some d ∧ d.address = act.address) ↔ _
  rw [h.diamond]
  by_cases hname : name = act.diamond
  · subst hname
    rw [update_self]
    exact ⟨fun _ => .inr rfl, fun _ => ⟨_, rfl, rfl⟩⟩
  · rw [update_of_ne hname]
    exact ⟨.inl, fun hor => hor.resolve_right hname⟩

theorem Minted.diamondsOf_other {a : Address} (ha : a ≠ act.address) :
    s'.diamondsOf a = s.diamondsOf a := by
  ext name
  show (∃ d, s'.diamond name = some d ∧ d.address = a) ↔ _
  rw [h.diamond]
  by_cases hname : name = act.diamond
  · subst hname
    rw [update_self]
    constructor
    · rintro ⟨d, hd, haddr⟩
      cases hd
      exact absurd haddr.symm ha
    · rintro ⟨d, hd, -⟩
      rw [h.fresh] at hd
      cases hd
  · rw [update_of_ne hname]
    exact .rfl

section

variable (hs : DiamondIndex s)
include hs

/-- The number of the mint was in no use. -/
theorem Minted.number_free {name : DiamondName}
    (hname : s.diamondName act.number.uint = some name) : False := by
  have hle := ((hs.minted act.number.uint).mp ⟨name, hname⟩).2
  have hnumber := h.number
  omega

theorem Minted.name_free {n : ℕ} (hn : s.diamondName n = some act.diamond) : False := by
  obtain ⟨d, hd⟩ := (hs.exist act.diamond).mp ⟨n, hn⟩
  rw [h.fresh] at hd
  cases hd

theorem Minted.diamondName_iff (n : ℕ) (name : DiamondName) : s'.diamondName n = some name ↔
      (n = act.number.uint ∧ name = act.diamond) ∨ s.diamondName n = some name := by
  rw [h.diamondName]
  by_cases hn : n = act.number.uint
  · subst hn
    rw [update_self]
    constructor
    · intro heq
      cases heq
      exact .inl ⟨rfl, rfl⟩
    · rintro (⟨-, rfl⟩ | hold)
      · rfl
      · exact (h.number_free hs hold).elim
  · rw [update_of_ne hn]
    exact ⟨.inr, fun hor => hor.resolve_left fun hnew => hn hnew.1⟩

theorem Minted.owns (hform : env.diamondForm = true) : ∃ all, (s'.ownedForm act.address).Lists all ∧
      s'.Owns act.address all := by
  obtain ⟨form, hpush, hset⟩ := h.form_on hform
  obtain ⟨had, hlists, hown⟩ := hs.owned act.address
  obtain ⟨all, hall, hnodup, hmem⟩ := hlists.pushOne hown.nodup hpush
  refine ⟨all, ?_, hnodup, fun name => ?_⟩
  · rw [hset, update_self]
    exact hall
  · rw [hmem, hown.mem, h.diamondsOf_owner]

theorem Minted.ncard :
    (s'.diamondsOf act.address).ncard = (s.balanceOf act.address).diamond + 1 := by
  obtain ⟨had, -, hown⟩ := hs.owned act.address
  have hnew : act.diamond ∉ had := fun hmem => by
    obtain ⟨d, hd, -⟩ := (hown.mem _).mp hmem
    rw [h.fresh] at hd
    cases hd
  have howns : s'.Owns act.address (act.diamond :: had) := by
    refine ⟨nodup_cons.mpr ⟨hnew, hown.nodup⟩, fun name => ?_⟩
    rw [h.diamondsOf_owner, mem_cons, hown.mem, or_comm]
  rw [howns.ncard, length_cons, hs.count_of hown]

end

end

/-- **A strict mint with the form on keeps the records in agreement.** -/
theorem DiamondIndex.mint (hs : DiamondIndex s) (h : Minted env act s s')
    (hform : env.diamondForm = true) : DiamondIndex s' := by
  have hnumber := h.number
  refine ⟨fun a => ?_, fun a => ?_, fun n => ?_, fun n m name hn hm => ?_, fun name => ?_⟩
  · rw [h.count]
    by_cases ha : a = act.address
    · rw [if_pos ha, ha, h.ncard hs]
    · rw [if_neg ha, h.diamondsOf_other ha, hs.count]
  · by_cases ha : a = act.address
    · rw [ha]
      exact h.owns hs hform
    · obtain ⟨form, -, hset⟩ := h.form_on hform
      obtain ⟨had, hlists, hown⟩ := hs.owned a
      refine ⟨had, ?_, hown.nodup, ?_⟩
      · rw [hset, update_of_ne ha]
        exact hlists
      · rw [h.diamondsOf_other ha]
        exact hown.mem
  · rw [h.latest]
    have hold := hs.minted n
    constructor
    · rintro ⟨name, hname⟩
      rcases (h.diamondName_iff hs n name).mp hname with ⟨rfl, -⟩ | hname
      · omega
      · have := hold.mp ⟨name, hname⟩
        omega
    · rintro ⟨hpos, hle⟩
      by_cases hn : n = act.number.uint
      · exact ⟨act.diamond, (h.diamondName_iff hs n _).mpr (.inl ⟨hn, rfl⟩)⟩
      · obtain ⟨name, hname⟩ := hold.mpr ⟨hpos, by omega⟩
        exact ⟨name, (h.diamondName_iff hs n name).mpr (.inr hname)⟩
  · rcases (h.diamondName_iff hs n name).mp hn with ⟨hn, hname⟩ | hn
    · rcases (h.diamondName_iff hs m name).mp hm with ⟨hm, -⟩ | hm
      · rw [hn, hm]
      · rw [hname] at hm
        exact (h.name_free hs hm).elim
    · rcases (h.diamondName_iff hs m name).mp hm with ⟨-, hname⟩ | hm
      · rw [hname] at hn
        exact (h.name_free hs hn).elim
      · exact hs.unique n m name hn hm
  · rw [h.diamond]
    by_cases hname : name = act.diamond
    · subst hname
      rw [update_self]
      exact ⟨fun _ => ⟨_, rfl⟩,
        fun _ => ⟨_, (h.diamondName_iff hs _ _).mpr (.inl ⟨rfl, rfl⟩)⟩⟩
    · rw [update_of_ne hname, ← hs.exist]
      constructor
      · rintro ⟨n, hn⟩
        exact ⟨n, ((h.diamondName_iff hs n name).mp hn).resolve_left fun hnew => hname hnew.2⟩
      · rintro ⟨n, hn⟩
        exact ⟨n, (h.diamondName_iff hs n name).mpr (.inr hn)⟩

theorem DiamondIndex.not_mint_form_off (hs : DiamondIndex s) (h : Minted env act s s')
    (hform : env.diamondForm = false) : ¬ DiamondIndex s' := by
  intro hs'
  obtain ⟨had, hlists, hown⟩ := hs.owned act.address
  obtain ⟨had', hlists', hown'⟩ := hs'.owned act.address
  have hcount := h.count act.address
  rw [if_pos rfl, hs.count_of hown, hs'.count_of hown'] at hcount
  -- the buffer did not grow, but the count did
  have hlen := hlists.length
  have hlen' := hlists'.length
  rw [h.form_off hform, hlen] at hlen'
  omega

end

/-! ## Runs -/

/-- A change of the diamonds: a transfer or the execution of a `HacdMint`. -/
inductive DiamondOp where
  | transfer (src dst : Address) (names : List DiamondName) (diamondForm : Bool)
  | mint (env : MintEnv) (act : HacdMintData)

/-- The change of the state. -/
def DiamondOp.exec (x : X16rs) (s : CoreState) : DiamondOp → Ret CoreState
  | .transfer src dst names diamondForm => hacdTransfer s src dst names diamondForm
  | .mint env act => diamondMint x env act s

/-- Strict mode, a new owner other than the blackhole, and the diamond form on. -/
def DiamondOp.Indexed : DiamondOp → Prop
  | .transfer _ dst _ diamondForm => diamondForm = true ∧ dst ≠ blackholeAddr
  | .mint env act =>
    env.fastSync = false ∧ act.address ≠ blackholeAddr ∧ env.diamondForm = true

theorem DiamondIndex.exec {x : X16rs} {s s' : CoreState} {op : DiamondOp} (hs : DiamondIndex s)
    (hop : op.Indexed) (h : op.exec x s = .ok s') : DiamondIndex s' := by
  cases op with
  | transfer src dst names diamondForm =>
    obtain ⟨rfl, hhole⟩ := hop
    exact hs.transfer (hacdTransfer_ok h hhole)
  | mint env act =>
    obtain ⟨hstrict, hhole, hform⟩ := hop
    exact hs.mint (diamondMint_ok h hstrict hhole) hform

/-- **Every interleaving of transfers and mints keeps the records of diamonds in agreement.** -/
theorem diamondIndex_run (x : X16rs) {ops : List DiamondOp} {s s' : CoreState}
    (hs : DiamondIndex s) (hops : ∀ op ∈ ops, op.Indexed)
    (h : ops.foldlM (DiamondOp.exec x) s = .ok s') : DiamondIndex s' := by
  induction ops generalizing s with
  | nil =>
    cases h
    exact hs
  | cons op ops ih =>
    rw [foldlM_cons] at h
    obtain ⟨mid, hmid, h⟩ := bind_eq_ok h
    exact ih (hs.exec (hops op mem_cons_self) hmid)
      (fun op hop => hops op (mem_cons_of_mem _ hop)) h

/-! ### A first diamond -/

theorem diamondIndex_empty : DiamondIndex .empty where
  count a := by
    have hnone : empty.diamondsOf a = ∅ := by
      ext name
      exact ⟨fun ⟨_, hd, _⟩ => (Option.some_ne_none _ hd.symm).elim, False.elim⟩
    rw [hnone, Set.ncard_empty]
    rfl
  owned a := ⟨[], rfl, nodup_nil, fun name =>
    ⟨nofun, fun ⟨_, hd, _⟩ => (Option.some_ne_none _ hd.symm).elim⟩⟩
  minted n := by
    constructor
    · rintro ⟨name, hname⟩
      cases hname
    · rintro ⟨hpos, hle⟩
      have hlatest : empty.latestNumber = 0 := rfl
      omega
  unique _ _ _ h := (Option.some_ne_none _ h.symm).elim
  exist _ := ⟨fun ⟨_, h⟩ => (Option.some_ne_none _ h.symm).elim,
    fun ⟨_, h⟩ => (Option.some_ne_none _ h.symm).elim⟩

/-- Hash functions that mine the name `BBBBBB`. -/
def luckyX16rs : X16rs where
  calculateHash _ := .fill 0
  x16rsHash _ _ := ⟨replicate 20 0 ++ replicate 12 1, by decide⟩

/-- The address of a miner. -/
def minerAddr (n : UInt8) : Address := .privkey n

/-- The name that is mined. -/
def minedName : DiamondName := ⟨replicate 6 66, by decide⟩

/-- The first mint, on the main network but for the flags. -/
def firstMint (consensusFlags : ℕ) : DiamondOp :=
  .mint
    { fastSync := false, consensusFlags := consensusFlags, height := 5, hash := .fill 7,
      txType := 2, fee := .zero, feeGot := .zero, diamondFormFlag := 1, txType2 := 2,
      rules := ⟨20000, 30000, 40000, 40000, 41000⟩ }
    { diamond := minedName, number := 1, prevHash := .fill 0,
      nonce := ⟨replicate 8 0, by decide⟩, address := minerAddr 1, customMessage := .fill 0 }

/-- The first diamond is minted and given away. -/
theorem diamondIndex_run_sample : ∃ s', [firstMint 1,
      .transfer (minerAddr 1) (minerAddr 2) [minedName] true].foldlM
        (DiamondOp.exec luckyX16rs) .empty = .ok s' ∧ DiamondIndex s' := by
  have hok : ([firstMint 1, .transfer (minerAddr 1) (minerAddr 2) [minedName] true].foldlM
      (DiamondOp.exec luckyX16rs) .empty).isOk = true := by decide +kernel
  obtain ⟨s', h⟩ := exists_of_isOk hok
  refine ⟨s', h, diamondIndex_run luckyX16rs diamondIndex_empty ?_ h⟩
  intro op hop
  rcases mem_pair.mp hop with rfl | rfl
  · exact ⟨rfl, by decide, by decide⟩
  · exact ⟨rfl, by decide⟩

/-- **A strict mint with the diamond form off** succeeds and leaves the records in
disagreement. -/
theorem mint_without_form : DiamondIndex .empty ∧ ∃ s',
    (firstMint 0).exec luckyX16rs .empty = .ok s' ∧ ¬ DiamondIndex s' := by
  have hok : ((firstMint 0).exec luckyX16rs .empty).isOk = true := by decide +kernel
  obtain ⟨s', h⟩ := exists_of_isOk hok
  refine ⟨diamondIndex_empty, s', h, ?_⟩
  exact diamondIndex_empty.not_mint_form_off (diamondMint_ok h rfl (by decide)) rfl

end Hacash
