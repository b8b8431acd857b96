import Hacash.Codec.Action

/-!
# The wire format of transactions and blocks (`protocol::codec`, `mint::action`)

The type byte at the head of a transaction says which codec reads it. **Key result**:
`wire_canonical`, for addresses of a supported version.
-/

namespace Hacash

open Lib List Decoder Amount

variable {L : Type}

/-! ## Transactions of a user -/

/-- `StdTransaction`. -/
structure StdTransaction (L : Type) where
  ty : Uint 1
  timestamp : Uint 5
  addrlist : AddrOrList
  fee : Amount
  actions : List (ActionTree L)
  signs : List Sign
  gasMax : Uint 1
  anoMark : Fixed 1

open StdTransaction

def encodeActionList (reg : Registry L) (actions : List (ActionTree L)) : List UInt8 :=
  beBytes 2 actions.length ++ encodeActions reg actions

def actionListSize (reg : Registry L) (actions : List (ActionTree L)) : ℕ :=
  2 + sizeActions reg actions

def decodeActionList (reg : Registry L) : Decode (List (ActionTree L)) :=
  decodeListW 2 (decodeAction reg astMaxDepth)

/-- `SignW2::size`. -/
def signsSize (signs : List Sign) : ℕ := 2 + (signs.map Sign.size).sum

namespace StdTransaction

/-- `encode_to`. -/
def encode (reg : Registry L) (tx : StdTransaction L) : List UInt8 :=
  tx.ty.encode ++ tx.timestamp.encode ++ tx.addrlist.encode ++ tx.fee.encode
    ++ encodeActionList reg tx.actions ++ encodeListW 2 Sign.encode tx.signs ++ tx.gasMax.encode
    ++ tx.anoMark.bytes

def size (reg : Registry L) (tx : StdTransaction L) : ℕ :=
  1 + 5 + tx.addrlist.size + tx.fee.size + actionListSize reg tx.actions + signsSize tx.signs
    + 1 + 1

def decodeStdTx (reg : Registry L) : Decode (StdTransaction L) := do
  let ty ← Uint.decode 1
  let timestamp ← Uint.decode 5
  let addrlist ← AddrOrList.decode
  let fee ← decode
  let actions ← decodeActionList reg
  let signs ← decodeListW 2 Sign.decode
  let gasMax ← Uint.decode 1
  let anoMark ← Fixed.decode 1
  return { ty, timestamp, addrlist, fee, actions, signs, gasMax, anoMark }

/-- The counts fit, the actions are well formed, and the addresses of supported versions. -/
structure Valid (wf : L → Prop) (tx : StdTransaction L) : Prop where
  addrlist : tx.addrlist.Valid
  actions_count : tx.actions.length < 256 ^ 2
  actions : ∀ act ∈ tx.actions, ActionTree.Valid wf astMaxDepth act
  signs_count : tx.signs.length < 256 ^ 2

end StdTransaction

def createStdTxOfType (reg : Registry L) (expected : ℕ) : Decode (StdTransaction L) := do
  let tx ← decodeStdTx reg
  Decoder.guard (tx.ty.uint = expected) (.normal "transaction type codec got another type")
  return tx

/-! ## The coinbase -/

/-- `CoinbaseExtendDataV1`. -/
structure CoinbaseExtendDataV1 where
  minerNonce : Hash
  witnessCount : Uint 1

/-- `CoinbaseExtend`. -/
structure CoinbaseExtend where
  exist : Bool
  extend : Option CoinbaseExtendDataV1

/-- `CoinbaseTx`. -/
structure CoinbaseTx where
  ty : Uint 1
  address : Address
  reward : Amount
  message : Fixed 16
  extend : CoinbaseExtend

open CoinbaseTx

namespace CoinbaseExtendDataV1

/-- `encode_to`. -/
def encode (x : CoinbaseExtendDataV1) : List UInt8 := x.minerNonce.bytes ++ x.witnessCount.encode

def size (_ : CoinbaseExtendDataV1) : ℕ := 32 + 1

/-- The reads of the data in `create_coinbase`. -/
def decode : Decode CoinbaseExtendDataV1 := do
  let minerNonce ← Hash.decode
  let witnessCount ← Uint.decode 1
  return { minerNonce, witnessCount }

end CoinbaseExtendDataV1

namespace CoinbaseExtend

/-- `encode_to`. It unwraps the data of an extension that exists. -/
def encode (x : CoinbaseExtend) : List UInt8 :=
  encodeBool x.exist ++
    if x.exist then (x.extend.map CoinbaseExtendDataV1.encode).getD [] else []

def size (x : CoinbaseExtend) : ℕ :=
  1 + if x.exist then (x.extend.map CoinbaseExtendDataV1.size).getD 0 else 0

/-- The reads of the extension in `create_coinbase`. -/
def decode : Decode CoinbaseExtend := do
  let exist ← decodeBool
  if exist then do
    let data ← CoinbaseExtendDataV1.decode
    return { exist, extend := some data }
  else return { exist, extend := none }

end CoinbaseExtend

namespace CoinbaseTx

/-- `encode_to`. -/
def encode (tx : CoinbaseTx) : List UInt8 :=
  tx.ty.encode ++ tx.address.bytes ++ tx.reward.encode ++ tx.message.bytes ++ tx.extend.encode

def size (tx : CoinbaseTx) : ℕ := 1 + 21 + tx.reward.size + 16 + tx.extend.size

def createCoinbase : Decode CoinbaseTx := do
  let ty ← Uint.decode 1
  let address ← Address.decode
  let reward ← decode
  let message ← Fixed.decode 16
  let extend ← CoinbaseExtend.decode
  return { ty, address, reward, message, extend }

/-- The address has a supported version, and the flag says whether there is an extension. -/
structure Valid (tx : CoinbaseTx) : Prop where
  address : tx.address.isSupported = true
  extend : tx.extend.exist = tx.extend.extend.isSome

end CoinbaseTx

/-! ## Transactions of a block -/

/-- A transaction behind `TxRef`. -/
inductive Tx (L : Type) where
  | coinbase (tx : CoinbaseTx)
  | std (tx : StdTransaction L)

namespace Tx

/-- `encode_to`. -/
def encode (reg : Registry L) : Tx L → List UInt8
  | coinbase tx => tx.encode
  | std tx => tx.encode reg

def size (reg : Registry L) : Tx L → ℕ
  | coinbase tx => tx.size
  | std tx => tx.size reg

/-- `decode_transaction`: the codec registered for the type. -/
def decodeTransaction (reg : Registry L) : Decode (Tx L) :=
  peek (Uint.decode 1) fun ty =>
    if ty.uint = 0 then do return coinbase (← createCoinbase)
    else if ty.uint = 1 ∨ ty.uint = 2 ∨ ty.uint = 3 then do
      return std (← createStdTxOfType reg ty.uint)
    else Decoder.fail (.normal "transaction type not registered")

/-- The transaction is well formed and has a type that is registered for it. -/
def Valid (wf : L → Prop) : Tx L → Prop
  | coinbase tx => tx.ty.uint = 0 ∧ tx.Valid
  | std tx => (tx.ty.uint = 1 ∨ tx.ty.uint = 2 ∨ tx.ty.uint = 3) ∧ tx.Valid wf

end Tx

/-! ## Blocks -/

/-- `BlockV1`, without its hash function. -/
structure BlockV1 (L : Type) where
  version : Uint 1
  height : Uint 5
  timestamp : Uint 5
  prevhash : Hash
  mrklroot : Hash
  transactionCount : Uint 4
  nonce : Uint 4
  difficulty : Uint 4
  witnessStage : Fixed 2
  transactions : List (Tx L)

namespace BlockV1

def introSize : ℕ := 1 + 5 + 5 + 32 + 32 + 4 + 4 + 4 + 2

/-- `encode_intro_to`. -/
def encodeIntro (blk : BlockV1 L) : List UInt8 :=
  blk.version.encode ++ blk.height.encode ++ blk.timestamp.encode ++ blk.prevhash.bytes
    ++ blk.mrklroot.bytes ++ blk.transactionCount.encode ++ blk.nonce.encode
    ++ blk.difficulty.encode ++ blk.witnessStage.bytes

/-- `encode_to`. It panics if the count of the intro is not the number of transactions. -/
def encode (reg : Registry L) (blk : BlockV1 L) : List UInt8 :=
  blk.encodeIntro ++ blk.transactions.flatMap (Tx.encode reg)

def size (reg : Registry L) (blk : BlockV1 L) : ℕ :=
  introSize + (blk.transactions.map (Tx.size reg)).sum

def createStdBlock (reg : Registry L) : Decode (BlockV1 L) := do
  let version ← Uint.decode 1
  Decoder.guard (version.uint = 1) (.normal "block version not supported")
  let height ← Uint.decode 5
  let timestamp ← Uint.decode 5
  let prevhash ← Hash.decode
  let mrklroot ← Hash.decode
  let transactionCount ← Uint.decode 4
  let nonce ← Uint.decode 4
  let difficulty ← Uint.decode 4
  let witnessStage ← Fixed.decode 2
  let transactions ← (Tx.decodeTransaction reg).many transactionCount.uint
  return { version, height, timestamp, prevhash, mrklroot, transactionCount, nonce, difficulty,
           witnessStage, transactions }

/-- The block has the version of this format, its count is that of its transactions, and these
are well formed. -/
structure Valid (wf : L → Prop) (blk : BlockV1 L) : Prop where
  version : blk.version.uint = 1
  count : blk.transactions.length = blk.transactionCount.uint
  transactions : ∀ tx ∈ blk.transactions, tx.Valid wf

end BlockV1

/-! ## The formats are canonical -/

section

variable {reg : Registry L} {wf : L → Prop}

theorem decodeActionList_codes (hreg : reg.Lawful wf) :
    Codes (decodeActionList reg) (encodeActionList reg) fun actions =>
      actions.length < 256 ^ 2 ∧ ∀ act ∈ actions, ActionTree.Valid wf astMaxDepth act := by
  have henc : encodeActionList reg = encodeListW 2 (ActionTree.encode reg) := by
    funext actions
    rw [encodeActionList, encodeActions_eq, encodeListW]
  rw [henc]
  exact decodeListW_codes (decodeAction_codes hreg astMaxDepth)

theorem StdTransaction.codes (hreg : reg.Lawful wf) :
    Codes (decodeStdTx reg) (encode reg)
      (StdTransaction.Valid wf) where
  reads := by
    refine reads_bind (Uint.codes 1).reads fun ty b₁ h₁ =>
      reads_bind (Uint.codes 5).reads fun timestamp b₂ h₂ =>
      reads_bind AddrOrList.codes.reads fun addrlist b₃ h₃ =>
      reads_bind Amount.codes.reads fun fee b₄ h₄ =>
      reads_bind (decodeActionList_codes hreg).reads fun actions b₅ h₅ =>
      reads_bind (decodeListW_codes Sign.codes).reads fun signs b₆ h₆ =>
      reads_bind (Uint.codes 1).reads fun gasMax b₇ h₇ =>
      reads_bind (Fixed.codes 1).reads fun anoMark b₈ h₈ => reads_pure ?_
    refine ⟨?_, h₃.2, h₅.2.1, h₅.2.2, h₆.2.1⟩
    simp only [encode, h₁.1, h₂.1, h₃.1, h₄.1, h₅.1, h₆.1, h₇.1, h₈.1,
      append_assoc, append_nil]
  accepts tx htx := by
    simp only [encode, append_assoc]
    exact accepts_bind ((Uint.codes 1).accepts _ trivial) <|
      accepts_bind ((Uint.codes 5).accepts _ trivial) <|
      accepts_bind (AddrOrList.codes.accepts _ htx.addrlist) <|
      accepts_bind (Amount.codes.accepts _ trivial) <|
      accepts_bind
        ((decodeActionList_codes hreg).accepts _ ⟨htx.actions_count, htx.actions⟩) <|
      accepts_bind
        ((decodeListW_codes Sign.codes).accepts _ ⟨htx.signs_count, fun _ _ => trivial⟩) <|
      accepts_bind ((Uint.codes 1).accepts _ trivial) <|
      accepts_last ((Fixed.codes 1).accepts _ trivial) rfl

theorem createStdTxOfType_codes (hreg : reg.Lawful wf) (expected : ℕ) :
    Codes (createStdTxOfType reg expected) (encode reg) fun tx =>
      tx.ty.uint = expected ∧ tx.Valid wf where
  reads := by
    refine reads_bind (codes hreg).reads fun tx u hu =>
      reads_bind (reads_guard _) fun _ v hv => reads_pure ?_
    obtain ⟨hty, rfl⟩ := hv
    exact ⟨by rw [append_nil, append_nil, hu.1], hty, hu.2⟩
  accepts tx htx := by
    rw [← append_nil (tx.encode reg)]
    exact accepts_bind ((codes hreg).accepts tx htx.2)
      (accepts_last (accepts_guard _ htx.1) rfl)

theorem CoinbaseExtendDataV1.codes :
    Codes CoinbaseExtendDataV1.decode CoinbaseExtendDataV1.encode fun _ => True where
  reads := by
    refine reads_bind Hash.codes.reads fun nonce u hu =>
      reads_bind (Uint.codes 1).reads fun count v hv => reads_pure ?_
    exact ⟨by rw [append_nil, hu.1, hv.1]; rfl, trivial⟩
  accepts x _ :=
    accepts_bind (Hash.codes.accepts _ trivial)
      (accepts_last ((Uint.codes 1).accepts _ trivial) rfl)

theorem CoinbaseExtend.codes :
    Codes CoinbaseExtend.decode CoinbaseExtend.encode fun x => x.exist = x.extend.isSome where
  reads := by
    refine reads_bind decodeBool_codes.reads fun exist u hu => ?_
    cases exist with
    | true =>
      refine reads_bind CoinbaseExtendDataV1.codes.reads fun data v hv =>
        reads_pure ?_
      exact ⟨by rw [append_nil, hu.1, hv.1]; rfl, rfl⟩
    | false => exact reads_pure ⟨by rw [hu.1]; rfl, rfl⟩
  accepts x hx := by
    obtain ⟨exist, extend⟩ := x
    obtain rfl : exist = extend.isSome := hx
    cases extend with
    | some data =>
      exact accepts_bind (decodeBool_codes.accepts true trivial)
        (accepts_last (CoinbaseExtendDataV1.codes.accepts data trivial) rfl)
    | none =>
      exact accepts_bind (decodeBool_codes.accepts false trivial)
        (accepts_pure _)

theorem CoinbaseTx.codes : Codes createCoinbase encode CoinbaseTx.Valid where
  reads := by
    refine reads_bind (Uint.codes 1).reads fun ty b₁ h₁ =>
      reads_bind Address.codes.reads fun address b₂ h₂ =>
      reads_bind Amount.codes.reads fun reward b₃ h₃ =>
      reads_bind (Fixed.codes 16).reads fun message b₄ h₄ =>
      reads_bind CoinbaseExtend.codes.reads fun extend b₅ h₅ => reads_pure ?_
    refine ⟨?_, h₂.2, h₅.2⟩
    simp only [encode, h₁.1, h₂.1, h₃.1, h₄.1, h₅.1, append_assoc,
      append_nil]
  accepts tx htx := by
    simp only [encode, append_assoc]
    exact accepts_bind ((Uint.codes 1).accepts _ trivial) <|
      accepts_bind (Address.codes.accepts _ htx.address) <|
      accepts_bind (Amount.codes.accepts _ trivial) <|
      accepts_bind ((Fixed.codes 16).accepts _ trivial) <|
      accepts_last (CoinbaseExtend.codes.accepts _ htx.extend) rfl

/-- The type at the head of an encoding, as `decode_transaction` looks at it. -/
theorem decode_ty_of_starts {bytes body : List UInt8} {ty : Uint 1}
    (h : bytes = ty.encode ++ body) (rest : List UInt8) :
    Uint.decode 1 (bytes ++ rest) = .ok (ty, 1) := by
  rw [h, append_assoc]
  have := (Uint.codes 1).accepts ty trivial (body ++ rest)
  rwa [Uint.encode_length] at this

theorem CoinbaseTx.starts (tx : CoinbaseTx) : tx.encode = tx.ty.encode ++
    (tx.address.bytes ++ (tx.reward.encode ++ (tx.message.bytes ++ tx.extend.encode))) := by
  simp only [encode, append_assoc]

theorem StdTransaction.starts (reg : Registry L) (tx : StdTransaction L) :
    ∃ body, tx.encode reg = tx.ty.encode ++ body := by
  simp only [encode, append_assoc]
  exact ⟨_, rfl⟩

theorem Tx.codes (hreg : reg.Lawful wf) :
    Codes (Tx.decodeTransaction reg) (Tx.encode reg) (Tx.Valid wf) where
  reads := by
    -- `create_coinbase` does not check the type it reads: it is the one that was looked at
    let R : Uint 1 → Tx L → List UInt8 → Prop := fun ty tx bytes => bytes = tx.encode reg ∧
      match tx with
      | .coinbase tx => ty.uint = 0 ∧ tx.Valid
      | .std tx => tx.Valid wf ∧ (tx.ty.uint = 1 ∨ tx.ty.uint = 2 ∨ tx.ty.uint = 3)
    refine reads_peek_of (R := R) (fun ty => ?_) fun ty tx bytes rest n hR hty => ?_
    · by_cases hzero : ty.uint = 0
      · rw [if_pos hzero]
        refine reads_bind CoinbaseTx.codes.reads fun tx u hu => reads_pure ?_
        exact ⟨by rw [append_nil, hu.1]; rfl, hzero, hu.2⟩
      rw [if_neg hzero]
      by_cases hstd : ty.uint = 1 ∨ ty.uint = 2 ∨ ty.uint = 3
      · rw [if_pos hstd]
        refine reads_bind (createStdTxOfType_codes hreg ty.uint).reads fun tx u hu =>
          reads_pure ?_
        exact ⟨by rw [append_nil, hu.1]; rfl, hu.2.2, hu.2.1 ▸ hstd⟩
      · rw [if_neg hstd]
        exact reads_fail _
    · obtain ⟨rfl, htx⟩ := hR
      refine ⟨rfl, ?_⟩
      cases tx with
      | coinbase tx =>
        have hlook := decode_ty_of_starts tx.starts rest
        rw [Tx.encode, hlook] at hty
        cases hty
        exact htx
      | std tx => exact htx.symm
  accepts tx htx := by
    cases tx with
    | coinbase tx =>
      refine accepts_peek (decode_ty_of_starts tx.starts) ?_
      rw [if_pos htx.1]
      exact accepts_last (CoinbaseTx.codes.accepts tx htx.2) rfl
    | std tx =>
      obtain ⟨hty, hvalid⟩ := htx
      obtain ⟨body, hbody⟩ := starts reg tx
      refine accepts_peek (decode_ty_of_starts hbody) ?_
      rw [if_neg (by omega), if_pos hty]
      exact accepts_last ((createStdTxOfType_codes hreg _).accepts tx ⟨rfl, hvalid⟩) rfl

theorem BlockV1.codes (hreg : reg.Lawful wf) :
    Codes (BlockV1.createStdBlock reg) (BlockV1.encode reg) (BlockV1.Valid wf) where
  reads := by
    refine reads_bind (Uint.codes 1).reads fun version b₁ h₁ =>
      reads_bind (reads_guard _) fun _ b₀ h₀ =>
      reads_bind (Uint.codes 5).reads fun height b₂ h₂ =>
      reads_bind (Uint.codes 5).reads fun timestamp b₃ h₃ =>
      reads_bind Hash.codes.reads fun prevhash b₄ h₄ =>
      reads_bind Hash.codes.reads fun mrklroot b₅ h₅ =>
      reads_bind (Uint.codes 4).reads fun transactionCount b₆ h₆ =>
      reads_bind (Uint.codes 4).reads fun nonce b₇ h₇ =>
      reads_bind (Uint.codes 4).reads fun difficulty b₈ h₈ =>
      reads_bind (Fixed.codes 2).reads fun witnessStage b₉ h₉ =>
      reads_bind ((Tx.codes hreg).many _).reads fun transactions b h =>
        reads_pure ?_
    refine ⟨?_, h₀.1, h.2.1, h.2.2⟩
    simp only [BlockV1.encode, BlockV1.encodeIntro, h₀.2, h₁.1, h₂.1, h₃.1, h₄.1, h₅.1, h₆.1,
      h₇.1, h₈.1, h₉.1, h.1, append_assoc, append_nil, nil_append]
  accepts blk hblk := by
    have hmany := ((Tx.codes hreg).many blk.transactionCount.uint).accepts blk.transactions
      ⟨hblk.count, hblk.transactions⟩
    simp only [BlockV1.encode, BlockV1.encodeIntro, append_assoc]
    refine accepts_bind ((Uint.codes 1).accepts _ trivial) ?_
    rw [← nil_append (blk.height.encode ++ _)]
    exact accepts_bind (accepts_guard _ hblk.version) <|
      accepts_bind ((Uint.codes 5).accepts _ trivial) <|
      accepts_bind ((Uint.codes 5).accepts _ trivial) <|
      accepts_bind (Hash.codes.accepts _ trivial) <|
      accepts_bind (Hash.codes.accepts _ trivial) <|
      accepts_bind ((Uint.codes 4).accepts _ trivial) <|
      accepts_bind ((Uint.codes 4).accepts _ trivial) <|
      accepts_bind ((Uint.codes 4).accepts _ trivial) <|
      accepts_bind ((Fixed.codes 2).accepts _ trivial) <|
      accepts_last hmany rfl

/-! ## Sizes -/

theorem signsSize_eq (signs : List Sign) :
    signsSize signs = (encodeListW 2 Sign.encode signs).length := by
  have hsum : (signs.flatMap Sign.encode).length = (signs.map Sign.size).sum := by
    rw [length_flatMap]
    exact congrArg List.sum (map_congr_left fun s _ => s.encode_length)
  rw [signsSize, encodeListW, length_append, beBytes_length, hsum]

theorem StdTransaction.Valid.size_eq {tx : StdTransaction L} (hreg : reg.Lawful wf)
    (htx : tx.Valid wf) : tx.size reg = (tx.encode reg).length := by
  have hactions : actionListSize reg tx.actions = (encodeActionList reg tx.actions).length := by
    rw [actionListSize, encodeActionList, length_append, beBytes_length, sizeActions_of]
    exact fun act ha => (Hacash.size_eq hreg astMaxDepth).2 act (htx.actions act ha)
  simp only [StdTransaction.size, encode, length_append, Uint.encode_length,
    AddrOrList.encode_length, encode_length, hactions, signsSize_eq, tx.anoMark.size]

theorem CoinbaseExtend.size_eq (x : CoinbaseExtend) : x.size = x.encode.length := by
  obtain ⟨exist, extend⟩ := x
  rw [CoinbaseExtend.size, CoinbaseExtend.encode, encodeBool, length_append, beBytes_length]
  cases exist with
  | false => rfl
  | true =>
    cases extend with
    | none => rfl
    | some data =>
      simp [CoinbaseExtendDataV1.size, CoinbaseExtendDataV1.encode, data.minerNonce.size]

theorem CoinbaseTx.size_eq (tx : CoinbaseTx) : tx.size = tx.encode.length := by
  simp only [CoinbaseTx.size, encode, length_append, Uint.encode_length,
    encode_length, CoinbaseExtend.size_eq, tx.address.size, tx.message.size]

theorem Tx.size_eq {tx : Tx L} (hreg : reg.Lawful wf) (htx : tx.Valid wf) :
    tx.size reg = (tx.encode reg).length := by
  cases tx with
  | coinbase tx => exact tx.size_eq
  | std tx => exact htx.2.size_eq hreg

theorem BlockV1.Valid.size_eq {blk : BlockV1 L} (hreg : reg.Lawful wf) (hblk : blk.Valid wf) :
    blk.size reg = (blk.encode reg).length := by
  have hsum : (blk.transactions.map (Tx.size reg)).sum
      = (blk.transactions.flatMap (Tx.encode reg)).length := by
    rw [length_flatMap]
    exact congrArg List.sum
      (map_congr_left fun tx htx => Tx.size_eq hreg (hblk.transactions tx htx))
  simp only [BlockV1.size, BlockV1.encode, BlockV1.encodeIntro, BlockV1.introSize,
    length_append, Uint.encode_length, blk.prevhash.size, blk.mrklroot.size,
    blk.witnessStage.size, hsum]

/-- **The wire format is canonical.** What is decoded from `n` bytes has `size` `n` and encodes to
these bytes; what is well formed is decoded from its encoding, whatever follows. -/
theorem wire_canonical (hreg : reg.Lawful wf) :
    (∀ buf tx n, decodeStdTx reg buf = .ok (tx, n) →
      tx.encode reg = buf.take n ∧ tx.size reg = n ∧ n ≤ buf.length) ∧
    (∀ buf blk n, BlockV1.createStdBlock reg buf = .ok (blk, n) →
      blk.encode reg = buf.take n ∧ blk.size reg = n ∧ n ≤ buf.length) ∧
    (∀ tx : StdTransaction L, tx.Valid wf → ∀ suffix,
      decodeStdTx reg (tx.encode reg ++ suffix)
        = .ok (tx, (tx.encode reg).length)) ∧
    ∀ blk : BlockV1 L, blk.Valid wf → ∀ suffix,
      BlockV1.createStdBlock reg (blk.encode reg ++ suffix)
        = .ok (blk, (blk.encode reg).length) := by
  refine ⟨fun buf tx n h => ?_, fun buf blk n h => ?_, (codes hreg).accepts,
    (BlockV1.codes hreg).accepts⟩
  · obtain ⟨hn, henc, hvalid⟩ := (codes hreg).reads h
    refine ⟨henc.symm, ?_, hn⟩
    rw [hvalid.size_eq hreg, ← henc, length_take_of_le hn]
  · obtain ⟨hn, henc, hvalid⟩ := (BlockV1.codes hreg).reads h
    refine ⟨henc.symm, ?_, hn⟩
    rw [hvalid.size_eq hreg, ← henc, length_take_of_le hn]

end

/-- A registry with one leaf action, of kind 1 and with one byte of data. -/
def sampleRegistry : Registry (Uint 1) where
  kind _ := 1
  encode act := beBytes 2 1 ++ act.encode
  size _ := 3
  codec k := if k = 1 then some (do decodeKind 1; Uint.decode 1) else none

theorem sampleRegistry_lawful : sampleRegistry.Lawful fun _ => True where
  codes k d h := by
    rw [sampleRegistry] at h
    dsimp only at h
    split_ifs at h with hk
    cases h
    exact {
      reads := reads_bind (decodeKind_reads 1) fun _ u hu =>
        reads_mono (Uint.codes 1).reads fun act v hv =>
          ⟨by rw [hu, hv.1]; rfl, trivial, hk.symm⟩
      accepts := fun act _ =>
        accepts_bind (decodeKind_accepts (by decide)) ((Uint.codes 1).accepts act trivial) }
  registered _ _ := ⟨_, rfl⟩
  starts act _ := ⟨act.encode, rfl⟩
  size act _ := by
    rw [sampleRegistry, length_append, beBytes_length, Uint.encode_length]
  not_select := rfl
  not_astIf := rfl

/-- A transaction of the address with version `v`, with a leaf and a select of two leaves. -/
def wireTx (v : UInt8) : StdTransaction (Uint 1) where
  ty := 3
  timestamp := 0
  addrlist := .single ⟨v :: List.replicate 20 0, rfl⟩
  fee := .zero
  actions := [.leaf 5, .select ⟨1, 2,
    [.leaf 6, .leaf 7]⟩]
  signs := []
  gasMax := 0
  anoMark := .fill 0

theorem wireTx_actions (v : UInt8) : (wireTx v).actions.length < 256 ^ 2 ∧
      (∀ act ∈ (wireTx v).actions, ActionTree.Valid (fun _ => True) astMaxDepth act) ∧
      (wireTx v).signs.length < 256 ^ 2 := by
  refine ⟨(by decide : 2 < 256 ^ 2), ?_, (by decide : 0 < 256 ^ 2)⟩
  simp [wireTx, ActionTree.Valid, AstSelect.Holds, astMaxDepth]

theorem wire_canonical_sample :
    ((wireTx 0).encode sampleRegistry).length = 49 ∧
      decodeStdTx sampleRegistry ((wireTx 0).encode sampleRegistry ++ [1, 2, 3])
        = .ok (wireTx 0, 49) := by
  obtain ⟨hcount, hactions, hsigns⟩ := wireTx_actions 0
  have hlen : ((wireTx 0).encode sampleRegistry).length = 49 := by decide +kernel
  refine ⟨hlen, ?_⟩
  rw [← hlen]
  exact (wire_canonical sampleRegistry_lawful).2.2.1 (wireTx 0)
    ⟨rfl, hcount, hactions, hsigns⟩ [1, 2, 3]

/-- **A transaction of an address with an unsupported version cannot be read back.** -/
theorem unsupported_address_rejected :
    ((wireTx 3).actions.length < 256 ^ 2 ∧
      (∀ act ∈ (wireTx 3).actions, ActionTree.Valid (fun _ => True) astMaxDepth act) ∧
      (wireTx 3).signs.length < 256 ^ 2) ∧
    sampleRegistry.Lawful (fun _ => True) ∧
    ∃ e, decodeStdTx sampleRegistry ((wireTx 3).encode sampleRegistry)
      = .error e := by
  have hno : (decodeStdTx sampleRegistry
      ((wireTx 3).encode sampleRegistry)).isOk = false := by decide +kernel
  refine ⟨wireTx_actions 3, sampleRegistry_lawful, ?_⟩
  cases hdecode : decodeStdTx sampleRegistry
      ((wireTx 3).encode sampleRegistry) with
  | error e => exact ⟨e, rfl⟩
  | ok r => rw [hdecode] at hno; cases hno

end Hacash
