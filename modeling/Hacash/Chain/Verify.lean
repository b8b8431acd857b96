import Hacash.Codec.Merkle

/-!
# Structural validation of a block (`chain::verify`)

`verify_block` computes the merkle root by its own loop over the chunks of a layer. **Key results**:
`mrkl_paths_agree` and `mrklroot_binds`.
-/

namespace Hacash

open Lib List Decoder BlockV1

variable {L : Type}

/-! ## What is read of a transaction -/

namespace Tx

def ty : Tx L → ℕ
  | coinbase _ => 0
  | std tx => tx.ty.uint

def isBlockPrelude : Tx L → Bool
  | coinbase _ => true
  | std _ => false

def actions : Tx L → List (ActionTree L)
  | coinbase _ => []
  | std tx => tx.actions

def actionCount (tx : Tx L) : ℕ := tx.actions.length

def timestamp : Tx L → ℕ
  | coinbase _ => 0
  | std tx => tx.timestamp.uint

def hashWithFee (cr : Crypto) (reg : Registry L) : Tx L → Hash
  | coinbase tx => cr.calculateHash tx.encode
  | std tx => tx.hashEx cr reg tx.fee.encode

end Tx

def txExceedsMaxSize (size max : ℕ) : Bool := 0 < max && max < size

/-! ## `merkle_root` -/

def chunks {α : Type} (n : ℕ) : ℕ → List α → List (List α)
  | 0, _ => []
  | fuel + 1, list => if list = [] then [] else list.take n :: chunks n fuel (list.drop n)

namespace Crypto

variable (cr : Crypto)

/-- The body of the inner loop of `merkle_root`: the node over one chunk. -/
def chunkNode (pair : List Hash) : Hash :=
  let left := pair.headD (.fill 0)
  let right := (pair[1]?).getD left
  cr.calculateHash (left.bytes ++ right.bytes)

/-- The body of the loop of `merkle_root`. -/
def merkleNext (layer : List Hash) : List Hash :=
  (chunks 2 layer.length layer).map cr.chunkNode

def merkleRoot (list : List Hash) : Hash :=
  if list = [] then .fill 0
  else (climb cr.merkleNext list.length list).headD (.fill 0)

theorem map_chunkNode_chunks (layer : List Hash) {fuel : ℕ} (hfuel : layer.length ≤ fuel) :
    (chunks 2 fuel layer).map cr.chunkNode = pairUp cr.mrklNode layer := by
  induction layer using pairs.induct generalizing fuel with
  | case1 => cases fuel <;> rfl
  | case2 a =>
    cases fuel with
    | zero => exact absurd hfuel (Nat.not_succ_le_zero _)
    | succ fuel =>
      have hrest : chunks 2 fuel ([] : List Hash) = [] := by cases fuel <;> rfl
      show cr.mrklNode a a :: (chunks 2 fuel []).map cr.chunkNode = _
      rw [hrest]
      rfl
  | case3 a b rest ih =>
    cases fuel with
    | zero => exact absurd hfuel (Nat.not_succ_le_zero _)
    | succ fuel =>
      show cr.mrklNode a b :: (chunks 2 fuel rest).map cr.chunkNode = _
      rw [ih (by simp only [length_cons] at hfuel; omega)]
      rfl

theorem merkleNext_eq : cr.merkleNext = cr.mrklMerge := by
  rw [mrklMerge_eq]
  funext layer
  exact cr.map_chunkNode_chunks layer le_rfl

/-- **The paths to a merkle root agree**: updating the kept path with another coinbase hash gives
the root of the list with that hash, and the chain's own loop computes the root of the protocol. -/
theorem mrkl_paths_agree :
    (∀ (first : Hash) (rest : List Hash) (c : Hash),
        (cr.calculateMrklPreludeModify (first :: rest)).map (cr.calculateMrklPreludeUpdate c) =
          some (cr.calculateMrklroot (c :: rest))) ∧
      ∀ list : List Hash, cr.merkleRoot list = cr.calculateMrklroot list := by
  constructor
  · intro first rest c
    obtain ⟨path, hpath, htop⟩ := cr.calculateMrklPreludeModify_top first rest c
    rw [hpath, cr.calculateMrklroot_eq htop]
    rfl
  · intro list
    rw [merkleRoot, merkleNext_eq]
    rfl

end Crypto

/-! ## `verify_block` -/

/-- What `verify_block` reads of `mint_params`. -/
structure SizeParams where
  maxTxSize : ℕ
  maxBlockSize : ℕ

/-- `Block::transaction_count`: the number of transactions as a `u32`, whatever the header
carries. -/
def BlockV1.blockTransactionCount (blk : BlockV1 L) : ℕ := blk.transactions.length % 2 ^ 32

def BlockV1.hash (hasher : ℕ → List UInt8 → Hash) (blk : BlockV1 L) : Hash :=
  hasher blk.height.uint blk.encodeIntro

/-- The checks made of every transaction but the first. -/
def verifyLater (preludeTy now idx : ℕ) (tx : Tx L) : Ret Unit :=
  if idx = 0 then .ok () else do
  ensure (tx.isBlockPrelude = false) (.fault "prelude transaction cannot appear at index")
  ensure (tx.ty ≠ preludeTy) (.fault "tx must not repeat the prelude type")
  ensure (tx.actionCount = tx.actions.length)
    (.fault "tx action count does not match its decoded actions")
  ensure (tx.timestamp ≤ now) (.fault "tx timestamp is in the future")

/-- The loop over the transactions: the hashes so far and the sizes so far. -/
def verifyTxs (cr : Crypto) (reg : Registry L) (params : SizeParams) (preludeTy now : ℕ) :
    ℕ → List (Tx L) → List Hash → ℕ → Ret (List Hash × ℕ)
  | _, [], hashes, total => .ok (hashes, total)
  | idx, tx :: txs, hashes, total => do
    verifyLater preludeTy now idx tx
    let size := tx.size reg
    ensure (txExceedsMaxSize size params.maxTxSize = false) (.fault "tx size exceeds max")
    verifyTxs cr reg params preludeTy now (idx + 1) txs (hashes ++ [tx.hashWithFee cr reg])
      (total + size)

/-- Not of the future, and later than the parent; `fast-same-second-blocks` allows the same second.
-/
def verifyTimestamp (sameSecond : Bool) (now timestamp prevTimestamp : ℕ) : Ret Unit := do
  ensure (timestamp ≤ now) (.fault "block timestamp is in the future")
  if sameSecond then
    ensure (prevTimestamp ≤ timestamp)
      (.fault "block timestamp must not precede parent timestamp")
  else
    ensure (prevTimestamp < timestamp)
      (.fault "block timestamp must be later than parent timestamp")

/-- `verify_block`; `now` is the clock. -/
def verifyBlock (cr : Crypto) (reg : Registry L) (hasher : ℕ → List UInt8 → Hash)
    (sameSecond : Bool) (params : SizeParams) (now : ℕ) (blk prev : BlockV1 L) : Ret Unit := do
  match blk.transactions with
  | [] => errf "block has no transactions; a prelude transaction is required"
  | first :: _ =>
    ensure (blk.blockTransactionCount = blk.transactions.length)
      (.fault "block tx count is not the number of decoded transactions")
    ensure (first.isBlockPrelude = true)
      (.fault "block first transaction must be a prelude transaction")
    ensure (blk.prevhash = prev.hash hasher) (.fault "block prev hash does not match parent")
    verifyTimestamp sameSecond now blk.timestamp.uint prev.timestamp.uint
    let (hashes, total) ← verifyTxs cr reg params first.ty now 0 blk.transactions [] 0
    ensure (params.maxBlockSize = 0 ∨ total ≤ params.maxBlockSize)
      (.fault "block transaction payload exceeds max")
    ensure (cr.merkleRoot hashes = blk.mrklroot)
      (.fault "block merkle root does not match its transactions")

theorem verifyTxs_hashes {cr : Crypto} {reg : Registry L} {params : SizeParams}
    {preludeTy now idx total : ℕ} {txs : List (Tx L)} {hashes : List Hash}
    {out : List Hash × ℕ}
    (h : verifyTxs cr reg params preludeTy now idx txs hashes total = .ok out) :
    out.1 = hashes ++ txs.map (Tx.hashWithFee cr reg) := by
  induction txs generalizing idx hashes total with
  | nil =>
    cases h
    exact (append_nil hashes).symm
  | cons tx txs ih =>
    rw [verifyTxs] at h
    obtain ⟨-, -, h⟩ := bind_eq_ok h
    obtain ⟨-, -, h⟩ := bind_eq_ok h
    rw [ih h, map_cons, append_assoc]
    rfl

theorem root_of_verifyBlock {cr : Crypto} {reg : Registry L} {hasher : ℕ → List UInt8 → Hash}
    {sameSecond : Bool} {params : SizeParams} {now : ℕ} {blk prev : BlockV1 L}
    (h : verifyBlock cr reg hasher sameSecond params now blk prev = .ok ()) :
    cr.calculateMrklroot (blk.transactions.map (Tx.hashWithFee cr reg)) = blk.mrklroot := by
  rw [verifyBlock] at h
  split at h
  · cases h
  · obtain ⟨-, -, h⟩ := bind_eq_ok h
    obtain ⟨-, -, h⟩ := bind_eq_ok h
    obtain ⟨-, -, h⟩ := bind_eq_ok h
    obtain ⟨-, -, h⟩ := bind_eq_ok h
    obtain ⟨⟨hashes, total⟩, htxs, h⟩ := bind_eq_ok h
    obtain ⟨-, -, h⟩ := bind_eq_ok h
    have hhashes : hashes = _ := verifyTxs_hashes htxs
    rw [nil_append] at hhashes
    rw [← hhashes, ← of_ensure h, Crypto.merkleRoot, Crypto.merkleNext_eq]
    rfl

/-! ## The header binds the transactions -/

theorem BlockV1.encodeIntro_inj {a b : BlockV1 L} (h : a.encodeIntro = b.encodeIntro) :
    a.mrklroot = b.mrklroot ∧ a.transactionCount = b.transactionCount := by
  unfold encodeIntro at h
  -- from the right: stage, difficulty, nonce, count, root
  obtain ⟨h, -⟩ := append_inj' h (by rw [a.witnessStage.size, b.witnessStage.size])
  obtain ⟨h, -⟩ := append_inj' h (by rw [Uint.encode_length, Uint.encode_length])
  obtain ⟨h, -⟩ := append_inj' h (by rw [Uint.encode_length, Uint.encode_length])
  obtain ⟨h, hcount⟩ := append_inj' h (by rw [Uint.encode_length, Uint.encode_length])
  obtain ⟨-, hroot⟩ := append_inj' h (by rw [a.mrklroot.size, b.mrklroot.size])
  refine ⟨Hash.eq_of_bytes hroot, ?_⟩
  have ha := (Uint.codes 4).accepts a.transactionCount trivial []
  rw [hcount, (Uint.codes 4).accepts b.transactionCount trivial []] at ha
  injection ha with ha
  exact (Prod.mk.inj ha).1.symm

theorem count_of_createStdBlock {reg : Registry L} {buf : List UInt8} {blk : BlockV1 L} {n : ℕ}
    (h : createStdBlock reg buf = .ok (blk, n)) :
    blk.transactions.length = blk.transactionCount.uint := by
  unfold createStdBlock at h
  obtain ⟨_, _, _, -, h, -⟩ := of_bind h
  obtain ⟨_, _, _, -, h, -⟩ := of_bind h
  obtain ⟨_, _, _, -, h, -⟩ := of_bind h
  obtain ⟨_, _, _, -, h, -⟩ := of_bind h
  obtain ⟨_, _, _, -, h, -⟩ := of_bind h
  obtain ⟨_, _, _, -, h, -⟩ := of_bind h
  obtain ⟨count, _, _, -, h, -⟩ := of_bind h
  obtain ⟨_, _, _, -, h, -⟩ := of_bind h
  obtain ⟨_, _, _, -, h, -⟩ := of_bind h
  obtain ⟨_, _, _, -, h, -⟩ := of_bind h
  obtain ⟨txs, _, _, htxs, h, -⟩ := of_bind h
  cases h
  exact length_of_many htxs

/-- **The header commits to the transaction list.** Let the hash be injective on `S`, which has the
inputs hashed for the roots at hand. Lists of one length with the same root are equal, and decoded
blocks with the same header that pass `verifyBlock` have the same transaction hashes. An odd list
shares its root with the list that repeats its last hash. -/
theorem mrklroot_binds (cr : Crypto) (reg : Registry L) (S : Set (List UInt8))
    (hinj : Set.InjOn cr.calculateHash S) :
    (∀ list : List Hash, ∀ x ∈ cr.mrklInputs list, x.length = 64) ∧
    (∀ l₁ l₂ : List Hash, l₁.length = l₂.length →
      (∀ x ∈ cr.mrklInputs l₁, x ∈ S) → (∀ x ∈ cr.mrklInputs l₂, x ∈ S) →
      cr.calculateMrklroot l₁ = cr.calculateMrklroot l₂ → l₁ = l₂) ∧
    (∀ (buf₁ buf₂ : List UInt8) (blk₁ blk₂ prev₁ prev₂ : BlockV1 L) (n₁ n₂ : ℕ)
      (hasher : ℕ → List UInt8 → Hash) (same₁ same₂ : Bool) (params₁ params₂ : SizeParams)
      (now₁ now₂ : ℕ),
      createStdBlock reg buf₁ = .ok (blk₁, n₁) →
      createStdBlock reg buf₂ = .ok (blk₂, n₂) →
      verifyBlock cr reg hasher same₁ params₁ now₁ blk₁ prev₁ = .ok () →
      verifyBlock cr reg hasher same₂ params₂ now₂ blk₂ prev₂ = .ok () →
      (∀ x ∈ cr.mrklInputs (blk₁.transactions.map (Tx.hashWithFee cr reg)), x ∈ S) →
      (∀ x ∈ cr.mrklInputs (blk₂.transactions.map (Tx.hashWithFee cr reg)), x ∈ S) →
      blk₁.encodeIntro = blk₂.encodeIntro →
      blk₁.transactions.map (Tx.hashWithFee cr reg)
        = blk₂.transactions.map (Tx.hashWithFee cr reg)) ∧
    ∀ (list : List Hash) (last : Hash), list ≠ [] → (list ++ [last]).length % 2 = 1 →
      cr.calculateMrklroot (list ++ [last] ++ [last]) = cr.calculateMrklroot (list ++ [last]) := by
  refine ⟨fun _ _ => cr.length_of_mem_mrklInputs, ?_, ?_, ?_⟩
  · intro l₁ l₂ hlen hS₁ hS₂ hroot
    exact cr.calculateMrklroot_inj hinj hlen hS₁ hS₂ hroot
  · intro buf₁ buf₂ blk₁ blk₂ prev₁ prev₂ n₁ n₂ hasher same₁ same₂ params₁ params₂ now₁ now₂
      hdec₁ hdec₂ hver₁ hver₂ hS₁ hS₂ hintro
    obtain ⟨hroot, hcount⟩ := encodeIntro_inj hintro
    refine cr.calculateMrklroot_inj hinj ?_ hS₁ hS₂ ?_
    · rw [length_map, length_map, count_of_createStdBlock hdec₁,
        count_of_createStdBlock hdec₂, hcount]
    · rw [root_of_verifyBlock hver₁, root_of_verifyBlock hver₂, hroot]
  · intro list last hne hodd
    exact cr.calculateMrklroot_concat_last hne hodd

/-- A hash function made of the first and the last byte. -/
def endsCrypto : Crypto :=
  ⟨fun bytes => .fill (16 * bytes.headD 0 + bytes.getLastD 0), fun _ => .fill 0, fun _ _ _ => true⟩

/-- A coinbase transaction. -/
def sampleCoinbase : CoinbaseTx where
  ty := 0
  address := .fill 0
  reward := Amount.zero
  message := .fill 0
  extend := ⟨false, none⟩

/-- A block of this coinbase transaction alone. -/
def preludeBlock : BlockV1 (Uint 1) where
  version := 1
  height := 1
  timestamp := 2
  prevhash := .fill 0
  mrklroot := .fill 0
  transactionCount := 1
  nonce := 0
  difficulty := 0
  witnessStage := .fill 0
  transactions := [.coinbase sampleCoinbase]

/-- Three hashes. -/
def threeHashes : List Hash := [.fill 1, .fill 2, .fill 3]

theorem mrklroot_binds_sample :
    endsCrypto.mrklInputs threeHashes = [pairBytes (.fill 1) (.fill 2),
        pairBytes (.fill 3) (.fill 3), pairBytes (.fill 18) (.fill 51)] ∧
      threeHashes = [.fill 1, .fill 2, .fill 3] ∧
      preludeBlock.transactions.map (Tx.hashWithFee endsCrypto sampleRegistry) = [.fill 0] ∧
      endsCrypto.calculateMrklroot [.fill 1, .fill 2, .fill 3, .fill 3]
        = endsCrypto.calculateMrklroot threeHashes := by
  have hinputs : endsCrypto.mrklInputs threeHashes = [pairBytes (.fill 1) (.fill 2),
      pairBytes (.fill 3) (.fill 3), pairBytes (.fill 18) (.fill 51)] := by decide +kernel
  have hinj : Set.InjOn endsCrypto.calculateHash {x | x ∈ endsCrypto.mrklInputs threeHashes} := by
    have h : ∀ x ∈ endsCrypto.mrklInputs threeHashes, ∀ y ∈ endsCrypto.mrklInputs threeHashes,
        endsCrypto.calculateHash x = endsCrypto.calculateHash y → x = y := by decide +kernel
    exact fun x hx y hy hxy => h x hx y hy hxy
  have hverify : verifyBlock endsCrypto sampleRegistry (fun _ _ => .fill 0) false ⟨0, 0⟩ 2
      preludeBlock { preludeBlock with timestamp := ⟨1, by decide⟩ } = .ok () := by
    decide +kernel
  have hvalid : preludeBlock.Valid fun _ => True := by
    refine ⟨rfl, rfl, ?_⟩
    rintro tx (_ | ⟨_, ⟨⟩⟩)
    exact ⟨rfl, ⟨by decide, rfl⟩⟩
  have hdecode := (codes sampleRegistry_lawful).accepts preludeBlock hvalid []
  obtain ⟨-, hlists, hblocks, hodd⟩ := mrklroot_binds endsCrypto sampleRegistry _ hinj
  have hblock := hblocks _ _ preludeBlock preludeBlock _ _ _ _ _ _ _ _ _ _ _ hdecode hdecode
    hverify hverify (by decide +kernel) (by decide +kernel) rfl
  exact ⟨hinputs, hlists threeHashes _ rfl (fun _ h => h) (fun _ h => h) rfl,
    hblock.trans (by decide +kernel), hodd [.fill 1, .fill 2] (.fill 3) (by decide) (by decide)⟩

end Hacash
