import Hacash.Field.Wire

/-!
# Search for the fork point (`node`, protocol.rs)

A node compares the hashes of a peer's last blocks with its own and downloads from above the first
height at which they agree. **Key result**: `fork_point_found`.
-/

namespace Hacash

open Lib List

/-- What the handlers read of a node: its height, and its blocks by height (`block_hash`). -/
structure ChainView where
  latestHeight : Uint 8
  blockHash : ℕ → Ret (Option Hash)

/-- What `handle_block_hash_message` does. `outOfBounds` is the panic of a slice. -/
inductive BlockHashOutcome where
  | outOfBounds
  | failed (e : Error)
  | ignored
  | download (startHeight remoteTip : ℕ)
  deriving DecidableEq

namespace ChainView

variable (view : ChainView)

/-! ## The request (protocol.rs:107–138) -/

/-- The hashes of `count` blocks from `height` down; `none` where a block is not there. -/
def collectHashes : (count height : ℕ) → List UInt8 → Ret (Option (List UInt8))
  | 0, _, res => .ok (some res)
  | count + 1, height, res => do
    match ← view.blockHash height with
    | none => return none
    | some hash => collectHashes count (height - 1) (res ++ hash.bytes)

/-- `handle_req_block_hash_message`: the reply, if there is one. -/
def handleReqBlockHash (body : List UInt8) : Ret (Option (List UInt8)) := do
  ensure (body.length = 9) (.fault "p2p req block hash message length invalid")
  let num := beValue (body.take 1)
  let endHeight := beValue (body.drop 1)
  if 80 < num ∨ view.latestHeight.uint < endHeight then return none
  let startHeight := if endHeight ≤ num then 1 else endHeight - num
  view.collectHashes (endHeight + 1 - startHeight) endHeight (beBytes 8 endHeight)

/-! ## The reply (protocol.rs:140–182) -/

/-- The slice of 32 bytes at `off`. -/
def hashAt (hashes : List UInt8) (off : ℕ) : Option Hash :=
  if h : off + 32 ≤ hashes.length then
    some ⟨(hashes.drop off).take 32, by rw [length_take, length_drop]; omega⟩
  else none

/-- The loop over the `left` heights down from `endHeight - idx`. -/
def scanHashes (hashes : List UInt8) (endHeight : ℕ) (activeRemoteHeight : Option ℕ) :
    (left idx : ℕ) → BlockHashOutcome
  | 0, _ => .ignored
  | left + 1, idx =>
    let height := endHeight - idx
    match view.blockHash height with
    | .error e => .failed e
    | .ok none => .ignored
    | .ok (some localHash) =>
      match hashAt hashes (idx * 32) with
      | none => .outOfBounds
      | some remoteHash =>
        if remoteHash = localHash then
          .download (height + 1) (max (activeRemoteHeight.getD endHeight) (height + 1))
        else scanHashes hashes endHeight activeRemoteHeight left (idx + 1)

/-- `max_num`: how many heights are compared. -/
def maxNum (unstableBlock : ℕ) (hashes : List UInt8) : ℕ :=
  min ((unstableBlock + 1) % 2 ^ 64) (hashes.length / 32)

/-- `handle_block_hash_message`. -/
def handleBlockHash (unstableBlock : ℕ) (sessionActive : Bool) (activeRemoteHeight : Option ℕ)
    (body : List UInt8) : BlockHashOutcome :=
  if body.length < 8 then .failed (.fault "p2p block hash message length invalid")
  else
    let endHeight := beValue (body.take 8)
    let hashes := body.drop 8
    if hashes = [] ∨ hashes.length % 32 ≠ 0 then
      .failed (.fault "p2p block hash list length invalid")
    else if endHeight = 0 ∨ view.latestHeight.uint < endHeight then .ignored
    else if sessionActive = true then .ignored
    else
      let startHeight := endHeight - maxNum unstableBlock hashes
      view.scanHashes hashes endHeight activeRemoteHeight (endHeight - startHeight) 0

/-! ## The reply lists a chain -/

/-- The blocks of the view up to its tip are those of a chain. Height zero is not asked for: the
block store refuses to write it. -/
def Holds (chain : ℕ → Hash) : Prop :=
  ∀ h, 1 ≤ h → h ≤ view.latestHeight.uint → view.blockHash h = .ok (some (chain h))

/-- The bytes of `count` hashes of a chain from `height` down. -/
def descending (chain : ℕ → Hash) : (count height : ℕ) → List UInt8
  | 0, _ => []
  | count + 1, height => (chain height).bytes ++ descending chain count (height - 1)

variable {view} {chain : ℕ → Hash}

theorem descending_length (chain : ℕ → Hash) : ∀ count height : ℕ,
    (descending chain count height).length = 32 * count
  | 0, _ => rfl
  | count + 1, height => by
    rw [descending, length_append, (chain height).size, descending_length]
    ring

/-- The reply collects the chain from the end height down, as long as it stays above zero. -/
theorem collectHashes_eq (hview : view.Holds chain) : ∀ (count height : ℕ) (res : List UInt8),
    count ≤ height → height ≤ view.latestHeight.uint →
    view.collectHashes count height res = .ok (some (res ++ descending chain count height))
  | 0, _, res, _, _ => by rw [collectHashes, descending, append_nil]
  | count + 1, height, res, hcount, hheight => by
    rw [collectHashes, hview height (by omega) hheight, ok_bind]
    dsimp only
    rw [collectHashes_eq hview count _ _ (by omega) ((Nat.sub_le _ _).trans hheight), descending,
      append_assoc]

/-- A reply is the end height and at most as many hashes as there are heights above zero. -/
theorem handleReqBlockHash_reply (hview : view.Holds chain) {body reply : List UInt8}
    (h : view.handleReqBlockHash body = .ok (some reply)) :
    ∃ endHeight count, endHeight ≤ view.latestHeight.uint ∧ count ≤ endHeight ∧
      reply = beBytes 8 endHeight ++ descending chain count endHeight := by
  replace h := ensure_drop h
  dsimp only at h
  split_ifs at h with hskip hnum
  · cases h
  all_goals
    rw [not_or, not_lt, not_lt] at hskip
    rw [collectHashes_eq hview _ _ _ (by omega) hskip.2] at h
    cases h
    exact ⟨_, _, hskip.2, by omega, rfl⟩

/-! ## The search -/

theorem hashAt_of_drop {hashes rest : List UInt8} {hash : Hash} {off : ℕ}
    (h : hashes.drop off = hash.bytes ++ rest) : hashAt hashes off = some hash := by
  have hlen := congrArg List.length h
  rw [length_drop, length_append, hash.size] at hlen
  rw [hashAt, dif_pos (by omega)]
  congr 1
  cases hash
  rename_i bytes hbytes
  simp only [Hash.mk.injEq, h]
  exact take_left' hbytes

/-- The scan stops at the highest common height `top` if that is among the next `left`. It ends
above height zero, so nothing is said of that. -/
theorem scanHashes_eq {remote : ℕ → Hash} (hview : view.Holds chain) {hashes : List UInt8}
    {endHeight top : ℕ} {tip : Option ℕ} (hend : endHeight ≤ view.latestHeight.uint)
    (hsame : 1 ≤ top → chain top = remote top)
    (hdiff : ∀ h, top < h → h ≤ endHeight → chain h ≠ remote h) :
    ∀ left extra idx, left + idx ≤ endHeight → top + idx ≤ endHeight →
      hashes.drop (idx * 32) = descending remote (left + extra) (endHeight - idx) →
      view.scanHashes hashes endHeight tip left idx
        = if endHeight < top + idx + left then
            .download (top + 1) (max (tip.getD endHeight) (top + 1))
          else .ignored
  | 0, _, idx, _, htop, _ => by rw [scanHashes, if_neg (by omega)]
  | left + 1, extra, idx, hleft, htop, hdrop => by
    rw [Nat.add_right_comm, descending] at hdrop
    rw [scanHashes, hview _ (by omega) ((Nat.sub_le _ _).trans hend)]
    dsimp only
    rw [hashAt_of_drop hdrop]
    dsimp only
    by_cases heq : endHeight - idx = top
    · rw [heq, if_pos (hsame (by omega)).symm, if_pos (by omega)]
    · have hne := hdiff (endHeight - idx) (by omega) (Nat.sub_le _ _)
      have hrest : hashes.drop ((idx + 1) * 32)
          = descending remote (left + extra) (endHeight - (idx + 1)) := by
        rw [add_mul, ← drop_drop, hdrop, one_mul, Nat.sub_sub]
        exact drop_left' (remote (endHeight - idx)).size
      rw [if_neg (Ne.symm hne), scanHashes_eq hview hend hsame hdiff left extra (idx + 1)
        (by omega) (by omega) hrest]
      exact if_congr (by omega) rfl rfl

/-- On a reply that is not empty the handler scans as many heights as it compares. -/
theorem handleBlockHash_reply (remote : ℕ → Hash) {endHeight count unstableBlock : ℕ}
    {tip : Option ℕ} (hend : endHeight ≤ view.latestHeight.uint) (hpos : 0 < count)
    (hcount : count ≤ endHeight) :
    view.handleBlockHash unstableBlock false tip
        (beBytes 8 endHeight ++ descending remote count endHeight)
      = view.scanHashes (descending remote count endHeight) endHeight tip
          (maxNum unstableBlock (descending remote count endHeight)) 0 := by
  have hlen := descending_length remote count endHeight
  have hne : ¬ (descending remote count endHeight = [] ∨
      (descending remote count endHeight).length % 32 ≠ 0) := by
    rw [← length_eq_zero_iff, hlen]
    omega
  have hm : maxNum unstableBlock (descending remote count endHeight) ≤ endHeight := by
    rw [maxNum, hlen]
    omega
  rw [handleBlockHash, if_neg (by rw [length_append, beBytes_length]; omega),
    take_left' (beBytes_length _ _), drop_left' (beBytes_length _ _),
    beValue_beBytes (hend.trans_lt view.latestHeight.lt)]
  dsimp only
  rw [if_neg hne, if_neg (by omega), if_neg (by decide), Nat.sub_sub_self hm]

theorem scanHashes_bounds (view : ChainView) (hashes : List UInt8) (endHeight : ℕ)
    (tip : Option ℕ) : ∀ left idx, (idx + left) * 32 ≤ hashes.length →
      view.scanHashes hashes endHeight tip left idx ≠ .outOfBounds ∧
      ∀ s t, view.scanHashes hashes endHeight tip left idx = .download s t → s ≤ endHeight + 1
  | 0, _, _ => ⟨nofun, nofun⟩
  | left + 1, idx, hlen => by
    rw [scanHashes]
    split
    · exact ⟨nofun, nofun⟩
    · exact ⟨nofun, nofun⟩
    · rw [hashAt, dif_pos (by omega)]
      dsimp only
      split_ifs
      · refine ⟨nofun, ?_⟩
        intro s t h
        cases h
        omega
      · exact scanHashes_bounds view hashes endHeight tip left (idx + 1) (by omega)

/-- **The fork point is found.** The chains agree up to `f` and nowhere above. The download starts
above the highest common block not above the end height of the reply, if the window reaches it.
Whatever the message holds, the handler reads inside it and starts at most one above the tip. -/
theorem fork_point_found :
    (∀ (node peer : ChainView) (own remote : ℕ → Hash) (f unstableBlock : ℕ) (tip : Option ℕ)
        (request reply : List UInt8),
      node.Holds own → peer.Holds remote → (∀ h, 1 ≤ h → h ≤ f → own h = remote h) →
      (∀ h, f < h → h ≤ node.latestHeight.uint → h ≤ peer.latestHeight.uint →
        own h ≠ remote h) →
      peer.handleReqBlockHash request = .ok (some reply) →
      ∀ endHeight, endHeight = beValue (reply.take 8) → endHeight ≤ node.latestHeight.uint →
      if endHeight - maxNum unstableBlock (reply.drop 8) < min f endHeight then
        node.handleBlockHash unstableBlock false tip reply
          = .download (min f endHeight + 1) (max (tip.getD endHeight) (min f endHeight + 1))
      else ∀ s t, node.handleBlockHash unstableBlock false tip reply ≠ .download s t) ∧
    (∀ (node : ChainView) (unstableBlock : ℕ) (active : Bool) (tip : Option ℕ)
        (body : List UInt8),
      node.handleBlockHash unstableBlock active tip body ≠ .outOfBounds ∧
      ∀ s t, node.handleBlockHash unstableBlock active tip body = .download s t →
        s ≤ node.latestHeight.uint + 1) := by
  refine ⟨?_, ?_⟩
  · intro node peer own remote f unstableBlock tip request reply hnode hpeer hsame hdiff hreply
      endHeight hend hle
    obtain ⟨endHeight', count, hpeerEnd, hcount, rfl⟩ := handleReqBlockHash_reply hpeer hreply
    rw [take_left' (beBytes_length _ _),
      beValue_beBytes (hpeerEnd.trans_lt peer.latestHeight.lt)] at hend
    subst hend
    rw [drop_left' (beBytes_length _ _)]
    rcases Nat.eq_zero_or_pos count with rfl | hpos
    · -- no hash in the reply
      rw [if_neg (by simp [maxNum, descending]), handleBlockHash,
        if_neg (by rw [length_append, beBytes_length]; omega),
        drop_left' (beBytes_length _ _)]
      exact fun s t => nofun
    · have hm : maxNum unstableBlock (descending remote count endHeight) ≤ count := by
        rw [maxNum, descending_length]
        omega
      have hwhole : (descending remote count endHeight).drop (0 * 32)
          = descending remote (maxNum unstableBlock (descending remote count endHeight)
            + (count - maxNum unstableBlock (descending remote count endHeight))) endHeight := by
        rw [Nat.add_sub_cancel' hm]
        rfl
      rw [handleBlockHash_reply remote hle hpos hcount, scanHashes_eq hnode hle
        (fun htop => hsame (min f endHeight) htop (min_le_left _ _))
        (fun h h1 h2 => hdiff h (by omega) (by omega) (by omega)) _ _ 0 (by omega) (by omega)
        hwhole]
      split_ifs with h1 h2 h2
      · rfl
      · omega
      · omega
      · exact fun s t => nofun
  · intro node unstableBlock active tip body
    rw [handleBlockHash]
    dsimp only
    split_ifs with h1 h2 h3 h4
    · exact ⟨nofun, nofun⟩
    · exact ⟨nofun, nofun⟩
    · exact ⟨nofun, nofun⟩
    · exact ⟨nofun, nofun⟩
    · have hm : maxNum unstableBlock (body.drop 8) * 32 ≤ (body.drop 8).length :=
        (Nat.mul_le_mul_right _ (min_le_right _ _)).trans (Nat.div_mul_le_self _ _)
      obtain ⟨hin, hstart⟩ := node.scanHashes_bounds (body.drop 8) (beValue (body.take 8)) tip
        (beValue (body.take 8) - (beValue (body.take 8) - maxNum unstableBlock (body.drop 8))) 0
        (by omega)
      refine ⟨hin, ?_⟩
      intro s t h
      have := hstart s t h
      omega

/-- A node of height `tip` with blocks from height one on, from height `f + 1` on on a branch. -/
def sampleView (tip f : ℕ) (branch : UInt8) : ChainView :=
  ⟨⟨tip % 256 ^ 8, Nat.mod_lt _ (by decide)⟩, fun h =>
    .ok (if h = 0 then none else some (.fill (UInt8.ofNat h + if f < h then branch else 0)))⟩

/-- The blocks of `sampleView` by height. -/
def sampleChain (f : ℕ) (branch : UInt8) (h : ℕ) : Hash :=
  .fill (UInt8.ofNat h + if f < h then branch else 0)

/-- A view with blocks from height one on holds its chain. -/
theorem sampleView_holds (tip f : ℕ) (branch : UInt8) :
    (sampleView tip f branch).Holds (sampleChain f branch) := by
  intro h hpos _
  rw [sampleView, sampleChain]
  dsimp only
  rw [if_neg (by omega)]

/-- Two nodes that part after height two: the peer lists the heights three, two and one, and the
download starts at three. -/
theorem fork_point_found_sample :
    ∃ reply, (sampleView 4 2 64).handleReqBlockHash (2 :: beBytes 8 3) = .ok (some reply) ∧
      (sampleView 3 2 32).handleBlockHash 4 false none reply = .download 3 3 := by
  refine ⟨_, rfl, ?_⟩
  have hfound := fork_point_found.1 (sampleView 3 2 32) (sampleView 4 2 64) (sampleChain 2 32)
    (sampleChain 2 64) 2 4 none (2 :: beBytes 8 3) _ (sampleView_holds 3 2 32)
    (sampleView_holds 4 2 64) ?_ ?_ rfl 3 (by decide) (by decide)
  · rwa [if_pos (by decide)] at hfound
  · intro h hpos hle
    interval_cases h <;> rfl
  · intro h hgt hle _
    have hle' : h ≤ 3 := hle
    interval_cases h
    decide

/-- The highest common block is above the end height, and the download starts. -/
theorem fork_point_above_end :
    (sampleView 2 2 0).latestHeight.uint = 2 ∧ (sampleView 2 2 0).Holds (sampleChain 2 0) ∧
    ∃ reply, (sampleView 2 2 0).handleReqBlockHash (1 :: beBytes 8 1) = .ok (some reply) ∧
      (sampleView 2 2 0).handleBlockHash 4 false none reply = .download 2 2 := by
  refine ⟨rfl, sampleView_holds 2 2 0, _, rfl, ?_⟩
  decide +kernel

end ChainView

end Hacash
