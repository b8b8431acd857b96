import Hacash.Codec.Tx
import Hacash.Lib.Table

/-!
# Block download sessions (`node`, sync_pipeline.rs, p2p/syncwire.rs)

A session keeps a few requests in flight, buffers the responses that come out of order, and hands
contiguous batches to the queue of the apply thread.
-/

namespace Hacash

open Lib

variable {L : Type}

/-! ## Wire format (p2p/syncwire.rs) -/

def syncWindow : ℕ := 3

def defaultMaxBlocks : ℕ := 10000

def blocksHeaderSize : ℕ := 44

def blocksHdrVersion : ℕ := 1

/-- `BlocksHeader`. -/
structure BlocksHeader where
  remoteTip : ℕ
  startHeight : ℕ
  endHeight : ℕ
  count : ℕ
  requestId : ℕ
  more : Bool
  flags : UInt8
  hdrVersion : ℕ

namespace BlocksHeader

def encode (hdr : BlocksHeader) : List UInt8 :=
  beBytes 8 hdr.remoteTip ++ beBytes 8 hdr.startHeight ++ beBytes 8 hdr.endHeight
    ++ beBytes 8 hdr.count ++ beBytes 8 hdr.requestId
    ++ [if hdr.more then 1 else 0, hdr.flags] ++ beBytes 2 hdr.hdrVersion

/-- The bytes of `body` from `off`, as a number. -/
def uintAt (body : List UInt8) (off len : ℕ) : ℕ := beValue ((body.drop off).take len)

/-- The fields of a body that is long enough. -/
def ofBytes (body : List UInt8) : BlocksHeader where
  remoteTip := uintAt body 0 8
  startHeight := uintAt body 8 8
  endHeight := uintAt body 16 8
  count := uintAt body 24 8
  requestId := uintAt body 32 8
  more := decide (uintAt body 40 1 ≠ 0)
  flags := body.getD 41 0
  hdrVersion := uintAt body 42 2

/-- The checks of `decode` on the fields. -/
def checked (hdr : BlocksHeader) : Ret BlocksHeader := do
  ensure (hdr.hdrVersion = blocksHdrVersion) (.fault "BLOCKS hdr_version unsupported")
  ensure (¬ (hdr.startHeight = 0 ∨ hdr.endHeight < hdr.startHeight))
    (.fault "BLOCKS invalid span")
  ensure (¬ (hdr.count = 0 ∨ 10000 < hdr.count
      ∨ hdr.count ≠ hdr.endHeight - hdr.startHeight + 1))
    (.fault "BLOCKS count invalid")
  return hdr

/-- `decode`: the header and the rest of the body. -/
def decode (body : List UInt8) : Ret (BlocksHeader × List UInt8) := do
  ensure (blocksHeaderSize ≤ body.length) (.fault "BLOCKS body too short")
  let hdr ← (ofBytes body).checked
  return (hdr, body.drop blocksHeaderSize)

end BlocksHeader

/-! ## The blocks of a response (sync_pipeline.rs:674–727) -/

/-- The loop of `validate_blocks_payload`: offsets and blocks so far, with `left` to go. -/
def validateBlocksLoop (reg : Registry L) (blocks : List UInt8) (startHeight : ℕ) :
    (left idx off : ℕ) → List ℕ → List (BlockV1 L) → Ret (ℕ × List ℕ × List (BlockV1 L))
  | 0, _, off, offsets, decoded => .ok (off, offsets, decoded)
  | left + 1, idx, off, offsets, decoded => do
    ensure (off < blocks.length) (.fault "BLOCKS payload ended before declared block")
    ensure (off < 2 ^ 32) (.fault "BLOCKS payload offset exceeds u32")
    let (block, used) ← BlockV1.createStdBlock reg (blocks.drop off)
    ensure (¬ (used = 0 ∨ blocks.length < off + used))
      (.fault "BLOCKS payload has incomplete block")
    ensure (block.height.uint = satAdd64 startHeight idx)
      (.fault "BLOCKS payload block height mismatch")
    validateBlocksLoop reg blocks startHeight left (idx + 1) (off + used)
      (offsets ++ [off]) (decoded ++ [block])

/-- `validate_blocks_payload`: the offsets and the blocks. -/
def validateBlocksPayload (reg : Registry L) (blocks : List UInt8) (count startHeight : ℕ) :
    Ret (List ℕ × List (BlockV1 L)) := do
  ensure (blocks ≠ []) (.fault "BLOCKS payload is empty")
  ensure (count ≤ blocks.length) (.fault "BLOCKS declared count exceeds payload byte length")
  let (off, offsets, decoded) ← validateBlocksLoop reg blocks startHeight count 0 0 [] []
  ensure (off = blocks.length) (.fault "BLOCKS payload has trailing bytes")
  return (offsets, decoded)

/-! ## Sessions (sync_pipeline.rs:82–128) -/

/-- A response that passed the checks. -/
structure BlocksItem (L : Type) where
  hdr : BlocksHeader
  blocks : List UInt8
  offsets : List ℕ
  decodedBlocks : List (BlockV1 L)

/-- `SyncSession`, without its handles: `inflight` by request id, `pending` by start. -/
structure SyncSession (L : Type) where
  nextReqId : ℕ
  nextStart : ℕ
  remoteTip : ℕ
  inflight : Table ℕ (ℕ × ℕ)
  pending : Table ℕ (BlocksItem L)
  nextApplyStart : ℕ

/-- `BlockBatch`. -/
structure BlockBatch (L : Type) where
  bytes : List UInt8
  remoteHeight : ℕ
  blockCount : ℕ
  blockOffsets : List ℕ
  decodedBlocks : List (BlockV1 L)

/-- The batch of a response. -/
def BlocksItem.batch (item : BlocksItem L) : BlockBatch L where
  bytes := item.blocks
  remoteHeight := item.hdr.remoteTip
  blockCount := item.hdr.count
  blockOffsets := item.offsets
  decodedBlocks := item.decodedBlocks

namespace SyncSession

/-- The session of `start_sync_pipe`. -/
def start (startHeight remoteTip : ℕ) : SyncSession L where
  nextReqId := 1
  nextStart := startHeight
  remoteTip := remoteTip
  inflight := ∅
  pending := ∅
  nextApplyStart := startHeight

def canFillWireWindow (sess : SyncSession L) : Bool :=
  decide (sess.inflight.size < syncWindow ∧ sess.nextStart ≤ sess.remoteTip)

/-- The start after a request at `start`. The `u64` sum wraps in a release build. -/
def startAfter (start : ℕ) : ℕ :=
  if satAdd64 start defaultMaxBlocks ≤ start then (start + 1) % 2 ^ 64
  else satAdd64 start defaultMaxBlocks

/-- What one turn of `sync_fill_window` does if the window has room. -/
def fill (sess : SyncSession L) : SyncSession L :=
  { sess with
    nextReqId := satAdd64 sess.nextReqId 1
    nextStart := startAfter sess.nextStart
    inflight := sess.inflight.insert sess.nextReqId (sess.nextStart, defaultMaxBlocks) }

@[simp] theorem fill_nextStart (sess : SyncSession L) :
    sess.fill.nextStart = startAfter sess.nextStart := by
  simp only [fill]

/-- The response is short of what was planned and of what the peer has. -/
def isShort (sess : SyncSession L) (item : BlocksItem L) : Bool :=
  decide (item.hdr.endHeight
    < min (satAdd64 sess.nextApplyStart defaultMaxBlocks - 1) sess.remoteTip)

/-- Requests beyond a short response leave a gap: forget them and resume after it. -/
def resumeAt (sess : SyncSession L) (next : ℕ) : SyncSession L :=
  { sess with
    inflight := sess.inflight.retain fun _ planned => decide (planned.1 < next)
    pending := sess.pending.retain fun start _ => decide (start < next)
    nextStart := next }

/-- The loop that takes responses off the buffer in order: the session and what is ready, or the
session it leaves when a response does not advance. A turn removes an entry, which bounds `fuel`. -/
def drain : (fuel : ℕ) → SyncSession L → List (BlocksItem L) →
    Except (SyncSession L) (SyncSession L × List (BlocksItem L))
  | 0, sess, ready => .ok (sess, ready)
  | fuel + 1, sess, ready =>
    match sess.pending.lookup sess.nextApplyStart with
    | none => .ok (sess, ready)
    | some item =>
      let taken := { sess with pending := sess.pending.erase sess.nextApplyStart }
      let next := satAdd64 item.hdr.endHeight 1
      if next ≤ sess.nextApplyStart then .error taken
      else if sess.isShort item then
        .ok (({ taken with nextApplyStart := next }).resumeAt next, ready ++ [item])
      else drain fuel { taken with nextApplyStart := next } (ready ++ [item])

def caughtUp (sess : SyncSession L) : Bool :=
  decide (sess.remoteTip ≤ sess.nextApplyStart - 1 ∧ sess.inflight.size = 0
    ∧ sess.pending.size = 0)

/-- The session with a response in the buffer. -/
def receive (sess : SyncSession L) (item : BlocksItem L) : SyncSession L :=
  { sess with
    inflight := sess.inflight.erase item.hdr.requestId
    remoteTip := max sess.remoteTip item.hdr.remoteTip
    pending := sess.pending.insert item.hdr.startHeight item }

end SyncSession

/-- A message is ignored, stops the session, does not advance it, or has responses ready. -/
inductive Handled (L : Type) where
  | ignored
  | stop (e : Error)
  | stuck (sess : SyncSession L) (tip : ℕ)
  | planned (sess : SyncSession L) (ready : List (BlocksItem L)) (tip : ℕ)

namespace SyncSession

/-- A response that answers a request. -/
def accept (sess : SyncSession L) (item : BlocksItem L) : Handled L :=
  match (sess.receive item).drain (sess.receive item).pending.size [] with
  | .error left => .stuck left item.hdr.remoteTip
  | .ok (next, ready) => .planned next ready item.hdr.remoteTip

/-- `handle_blocks_message`, up to the end of the session lock. -/
def handleBlocks (reg : Registry L) (sess : SyncSession L) (body : List UInt8) : Handled L :=
  match BlocksHeader.decode body with
  | .error e => .stop e
  | .ok (hdr, blocks) =>
    match validateBlocksPayload reg blocks hdr.count hdr.startHeight with
    | .error e => .stop e
    | .ok (offsets, decodedBlocks) =>
      -- request id 0 belongs to the recovery of orphans
      if hdr.requestId = 0 ∧ hdr.count = 1 then .ignored
      else
        match sess.inflight.lookup hdr.requestId with
        | none => .ignored
        | some (plannedStart, plannedMaxBlocks) =>
          if hdr.startHeight ≠ plannedStart then .stop (.fault "BLOCKS start mismatch")
          else if plannedMaxBlocks < hdr.count then
            .stop (.fault "BLOCKS count exceeds request limit")
          else sess.accept ⟨hdr, blocks, offsets, decodedBlocks⟩

end SyncSession

/-! ## Interleavings -/

/-- Where a session stands. -/
inductive SyncPhase where
  | running
  | finished
  | failed
  deriving DecidableEq

/-- A session, the batches it has queued, the tips it was told of and the number of requests
issued. -/
structure SyncState (L : Type) where
  session : SyncSession L
  queue : List (BlockBatch L)
  phase : SyncPhase
  advertised : List ℕ
  issued : ℕ

namespace SyncState

/-- The start of a session. -/
def init (startHeight remoteTip : ℕ) : SyncState L where
  session := .start startHeight remoteTip
  queue := []
  phase := .running
  advertised := []
  issued := 0

/-- The heights of the blocks in the queue, in order. -/
def queuedHeights (st : SyncState L) : List ℕ :=
  st.queue.flatMap fun batch => batch.decodedBlocks.map fun block => block.height.uint

/-- The session after a plan: batches are pushed, and a session that has caught up finishes. -/
def planned (st : SyncState L) (sess : SyncSession L) (ready : List (BlocksItem L)) (tip : ℕ) :
    SyncState L :=
  { st with
    session := sess
    queue := st.queue ++ ready.map BlocksItem.batch
    phase := if sess.caughtUp then .finished else st.phase
    advertised := st.advertised ++ [tip] }

end SyncState

/-- What can happen to a session while it is in its slot. -/
inductive SyncStep (reg : Registry L) : SyncState L → SyncState L → Prop where
  /-- A turn of `sync_fill_window`, by a handler or by the watchdog. -/
  | fill {st : SyncState L} (hlive : st.phase ≠ .failed)
      (hroom : st.session.canFillWireWindow = true) :
      SyncStep reg st { st with session := st.session.fill, issued := st.issued + 1 }
  /-- A response that answers a request. -/
  | respond {st : SyncState L} {body : List UInt8} {sess : SyncSession L}
      {ready : List (BlocksItem L)} {tip : ℕ} (hlive : st.phase ≠ .failed)
      (hhandled : st.session.handleBlocks reg body = .planned sess ready tip) :
      SyncStep reg st (st.planned sess ready tip)
  /-- A response that does not advance: the handler returns an error and nothing is queued. -/
  | stuck {st : SyncState L} {body : List UInt8} {sess : SyncSession L} {tip : ℕ}
      (hlive : st.phase ≠ .failed)
      (hhandled : st.session.handleBlocks reg body = .stuck sess tip) :
      SyncStep reg st { st with session := sess, advertised := st.advertised ++ [tip] }
  /-- The push after the first `n` batches fails, and the session is stopped. -/
  | pushFails {st : SyncState L} {body : List UInt8} {sess : SyncSession L}
      {ready : List (BlocksItem L)} {tip : ℕ} (n : ℕ) (hlive : st.phase ≠ .failed)
      (hhandled : st.session.handleBlocks reg body = .planned sess ready tip) :
      SyncStep reg st { (st.planned sess (ready.take n) tip) with phase := .failed }
  /-- A response that is not valid, a request that cannot be sent, a stall, or a failure of
  the apply thread. -/
  | stop {st : SyncState L} : SyncStep reg st { st with phase := .failed }

/-- The states of a session that starts at a height below or at the tip of its peer. -/
inductive SyncReachable (reg : Registry L) (startHeight remoteTip : ℕ) : SyncState L → Prop where
  | init (hstart : startHeight ≠ 0) (htip : startHeight ≤ remoteTip) :
      SyncReachable reg startHeight remoteTip (.init startHeight remoteTip)
  | step {st st' : SyncState L} (h : SyncReachable reg startHeight remoteTip st)
      (hstep : SyncStep reg st st') : SyncReachable reg startHeight remoteTip st'

/-! ## Responses with one block -/

open List BlockV1 SyncSession

namespace BlocksHeader

/-- The fields fit their widths. -/
structure Fits (hdr : BlocksHeader) : Prop where
  remoteTip : hdr.remoteTip ≤ u64Max
  startHeight : hdr.startHeight ≤ u64Max
  endHeight : hdr.endHeight ≤ u64Max
  count : hdr.count ≤ u64Max
  requestId : hdr.requestId ≤ u64Max
  hdrVersion : hdr.hdrVersion < 256 ^ 2

theorem drop_beBytes {w n k : ℕ} (h : w ≤ k) : (beBytes w n).drop k = [] :=
  drop_eq_nil_of_le (by rw [beBytes_length]; exact h)

theorem beValue_beBytes_u64 {n : ℕ} (h : n ≤ u64Max) : beValue (beBytes 8 n) = n :=
  beValue_beBytes (lt_of_le_of_lt h (by norm_num [u64Max]))

theorem ofBytes_encode {hdr : BlocksHeader} (h : hdr.Fits) (rest : List UInt8) :
    ofBytes (hdr.encode ++ rest) = hdr := by
  have htip : uintAt (hdr.encode ++ rest) 0 8 = hdr.remoteTip := by
    rw [← beValue_beBytes_u64 h.remoteTip]
    simp [uintAt, encode]
  have hstart : uintAt (hdr.encode ++ rest) 8 8 = hdr.startHeight := by
    rw [← beValue_beBytes_u64 h.startHeight]
    simp [uintAt, encode]
  have hend : uintAt (hdr.encode ++ rest) 16 8 = hdr.endHeight := by
    rw [← beValue_beBytes_u64 h.endHeight]
    simp [uintAt, encode, drop_append, drop_beBytes]
  have hcount : uintAt (hdr.encode ++ rest) 24 8 = hdr.count := by
    rw [← beValue_beBytes_u64 h.count]
    simp [uintAt, encode, drop_append, drop_beBytes]
  have hid : uintAt (hdr.encode ++ rest) 32 8 = hdr.requestId := by
    rw [← beValue_beBytes_u64 h.requestId]
    simp [uintAt, encode, drop_append, drop_beBytes]
  have hmore : decide (uintAt (hdr.encode ++ rest) 40 1 ≠ 0) = hdr.more := by
    cases hm : hdr.more with
    | false | true => simp [uintAt, encode, hm, drop_append, drop_beBytes, beValue]
  have hflags : (hdr.encode ++ rest).getD 41 0 = hdr.flags := by
    simp [encode, List.getElem?_append]
  have hversion : uintAt (hdr.encode ++ rest) 42 2 = hdr.hdrVersion := by
    rw [← beValue_beBytes h.hdrVersion]
    simp [uintAt, encode, drop_append, drop_beBytes]
  rw [ofBytes, htip, hstart, hend, hcount, hid, hmore, hflags, hversion]

theorem encode_length (hdr : BlocksHeader) : hdr.encode.length = blocksHeaderSize := by
  simp [encode, blocksHeaderSize]

theorem decode_encode {hdr : BlocksHeader} (h : hdr.Fits) (hchecked : hdr.checked = .ok hdr)
    (rest : List UInt8) : decode (hdr.encode ++ rest) = .ok (hdr, rest) := by
  have hlen := hdr.encode_length
  have hdrop : (hdr.encode ++ rest).drop blocksHeaderSize = rest := by
    rw [← hlen, drop_left]
  rw [decode, ensure_of _ (by rw [length_append]; omega), ok_bind, ofBytes_encode h, hdrop,
    hchecked]
  rfl

end BlocksHeader

open BlocksHeader

def emptyBlock (height : Uint 5) : BlockV1 (Uint 1) where
  version := 1
  height := height
  timestamp := 0
  prevhash := .fill 0
  mrklroot := .fill 0
  transactionCount := 0
  nonce := 0
  difficulty := 0
  witnessStage := .fill 0
  transactions := []

theorem emptyBlock_valid (height : Uint 5) : (emptyBlock height).Valid fun _ => True :=
  ⟨rfl, rfl, nofun⟩

def emptyBytes (height : Uint 5) : List UInt8 := (emptyBlock height).encode sampleRegistry

theorem emptyBytes_length (height : Uint 5) : (emptyBytes height).length = 89 := by
  simp only [emptyBytes, BlockV1.encode, BlockV1.encodeIntro, length_append,
    Uint.encode_length, Hash.size, Fixed.size]
  rfl

theorem validateBlocksPayload_empty (height : Uint 5) :
    validateBlocksPayload sampleRegistry (emptyBytes height) 1 height.uint
      = .ok ([0], [emptyBlock height]) := by
  have hdecode : createStdBlock sampleRegistry (emptyBytes height)
      = .ok (emptyBlock height, 89) := by
    have h := (codes sampleRegistry_lawful).accepts _ (emptyBlock_valid height) []
    have hlen : ((emptyBlock height).encode sampleRegistry).length = 89 :=
      emptyBytes_length height
    rw [append_nil, hlen] at h
    exact h
  have hlen := emptyBytes_length height
  have hne : emptyBytes height ≠ [] := by
    intro hnil
    rw [hnil] at hlen
    cases hlen
  have hheight : (emptyBlock height).height.uint = satAdd64 height.uint 0 := by
    have := height.lt
    rw [satAdd64, u64Max]
    show height.uint = _
    omega
  rw [validateBlocksPayload, ensure_of _ hne, ok_bind, ensure_of _ (by omega), ok_bind,
    validateBlocksLoop, ensure_of _ (by omega), ok_bind, ensure_of _ (by decide), ok_bind,
    drop_zero, hdecode, ok_bind]
  dsimp only
  rw [ensure_of _ (by omega), ok_bind, ensure_of _ hheight, ok_bind, validateBlocksLoop, ok_bind]
  dsimp only
  rw [ensure_of _ (by omega), ok_bind]
  rfl

/-- The header of a response to request `id` with the one block at `height`. -/
def oneHeader (tip id : ℕ) (height : Uint 5) : BlocksHeader where
  remoteTip := tip
  startHeight := height.uint
  endHeight := height.uint
  count := 1
  requestId := id
  more := false
  flags := 0
  hdrVersion := blocksHdrVersion

def oneItem (tip id : ℕ) (height : Uint 5) : BlocksItem (Uint 1) where
  hdr := oneHeader tip id height
  blocks := emptyBytes height
  offsets := [0]
  decodedBlocks := [emptyBlock height]

def oneBody (tip id : ℕ) (height : Uint 5) : List UInt8 :=
  (oneHeader tip id height).encode ++ emptyBytes height

variable {tip id : ℕ} {height : Uint 5}

theorem oneHeader_fits (height : Uint 5) (htip : tip ≤ u64Max) (hid : id ≤ u64Max) :
    (oneHeader tip id height).Fits := by
  have hheight : height.uint ≤ u64Max := by
    have := height.lt
    rw [u64Max]
    omega
  exact ⟨htip, hheight, hheight, show 1 ≤ u64Max by decide, hid,
    show blocksHdrVersion < 256 ^ 2 by decide⟩

theorem oneHeader_checked (hheight : height.uint ≠ 0) :
    (oneHeader tip id height).checked = .ok (oneHeader tip id height) := by
  have hversion : (oneHeader tip id height).hdrVersion = blocksHdrVersion := rfl
  rw [checked, ensure_of _ hversion, ok_bind,
    ensure_of _ (by simp [oneHeader, hheight]), ok_bind,
    ensure_of _ (by simp [oneHeader]), ok_bind]
  rfl

theorem decode_oneBody (htip : tip ≤ u64Max) (hid : id ≤ u64Max) (hheight : height.uint ≠ 0) :
    decode (oneBody tip id height) = .ok (oneHeader tip id height, emptyBytes height) :=
  decode_encode (oneHeader_fits height htip hid) (oneHeader_checked hheight) _

theorem handleBlocks_accepts {reg : Registry L} {sess : SyncSession L} {body blocks : List UInt8}
    {hdr : BlocksHeader} {offsets : List ℕ} {decoded : List (BlockV1 L)} {limit : ℕ}
    (hdecode : decode body = .ok (hdr, blocks))
    (hvalid : validateBlocksPayload reg blocks hdr.count hdr.startHeight
      = .ok (offsets, decoded))
    (hid : hdr.requestId ≠ 0)
    (hlookup : sess.inflight.lookup hdr.requestId = some (hdr.startHeight, limit))
    (hcount : hdr.count ≤ limit) :
    sess.handleBlocks reg body = sess.accept ⟨hdr, blocks, offsets, decoded⟩ := by
  rw [handleBlocks, hdecode]
  dsimp only
  rw [hvalid]
  dsimp only
  rw [if_neg fun h => hid h.1, hlookup]
  dsimp only
  rw [if_neg fun h => h rfl, if_neg (not_lt.mpr hcount)]

theorem handleBlocks_oneBody {sess : SyncSession (Uint 1)}
    (htip : tip ≤ u64Max) (hid : id ≤ u64Max) (hid0 : id ≠ 0) (hheight : height.uint ≠ 0)
    (hlookup : sess.inflight.lookup id = some (height.uint, defaultMaxBlocks)) :
    sess.handleBlocks sampleRegistry (oneBody tip id height)
      = sess.accept (oneItem tip id height) :=
  handleBlocks_accepts (decode_oneBody htip hid hheight) (validateBlocksPayload_empty height)
    hid0 hlookup (show 1 ≤ defaultMaxBlocks by decide)

end Hacash
