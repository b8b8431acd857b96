import Hacash.Node.SyncSession

/-!
# A download session queues contiguous heights and does not get stuck

Requests in flight and buffered responses tile the heights from `nextApplyStart` to `nextStart`
(`Tiled`). **Key result**: `sync_session_ordered`.
-/

namespace Hacash

open Lib List AList Table

variable {L : Type} {reg : Registry L}

/-- Heights in a block have five bytes. -/
def heightBound : ℕ := 2 ^ 40

theorem BlockV1.height_lt (block : BlockV1 L) : block.height.uint < heightBound :=
  block.height.lt

theorem satAdd64_of_lt {a b : ℕ} (h : satAdd64 a b < heightBound) : satAdd64 a b = a + b := by
  rw [satAdd64] at h ⊢
  have hmax : heightBound < u64Max := by decide
  omega

theorem satAdd64_eq {a b : ℕ} (h : a + b ≤ u64Max) : satAdd64 a b = a + b := by
  rw [satAdd64]
  omega

/-! ## Valid responses -/

/-- The heights of the blocks of a response. -/
def BlocksItem.heights (item : BlocksItem L) : List ℕ :=
  item.decodedBlocks.map fun block => block.height.uint

/-- What the checks of a response say. -/
structure BlocksItem.Valid (item : BlocksItem L) : Prop where
  pos : 0 < item.hdr.count
  le : item.hdr.count ≤ defaultMaxBlocks
  span : item.hdr.endHeight + 1 = item.hdr.startHeight + item.hdr.count
  heights : item.heights = range' item.hdr.startHeight item.hdr.count

open BlocksItem

theorem validateBlocksLoop_ok {blocks : List UInt8} {startHeight : ℕ} {left idx off off' : ℕ}
    {offsets offsets' : List ℕ} {decoded decoded' : List (BlockV1 L)}
    (h : validateBlocksLoop reg blocks startHeight left idx off offsets decoded
      = .ok (off', offsets', decoded')) :
    ∃ new, decoded' = decoded ++ new ∧
      (new.map fun block => block.height.uint) = range' (startHeight + idx) left := by
  induction left generalizing idx off offsets decoded with
  | zero =>
    cases h
    exact ⟨[], by simp, rfl⟩
  | succ left ih =>
    replace h := ensure_drop h
    replace h := ensure_drop h
    obtain ⟨⟨block, used⟩, -, h⟩ := bind_eq_ok h
    replace h := ensure_drop h
    obtain ⟨hheight, h⟩ := ensure_bind_iff.mp h
    obtain ⟨new, hnew, hheights⟩ := ih h
    have hlt := block.height_lt
    rw [hheight] at hlt
    refine ⟨block :: new, by rw [hnew, append_assoc]; rfl, ?_⟩
    rw [map_cons, hheights, hheight, satAdd64_of_lt hlt, range'_succ, add_assoc]

theorem validateBlocksPayload_ok {blocks : List UInt8} {count startHeight : ℕ}
    {offsets : List ℕ} {decoded : List (BlockV1 L)}
    (h : validateBlocksPayload reg blocks count startHeight = .ok (offsets, decoded)) :
    (decoded.map fun block => block.height.uint) = range' startHeight count := by
  replace h := ensure_drop h
  replace h := ensure_drop h
  obtain ⟨⟨off, offsets', decoded'⟩, hloop, h⟩ := bind_eq_ok h
  replace h := ensure_drop h
  cases h
  obtain ⟨new, rfl, hheights⟩ := validateBlocksLoop_ok hloop
  simpa using hheights

theorem BlocksHeader.decode_ok {body rest : List UInt8} {hdr : BlocksHeader}
    (h : BlocksHeader.decode body = .ok (hdr, rest)) :
    0 < hdr.count ∧ hdr.count ≤ defaultMaxBlocks ∧
      hdr.endHeight + 1 = hdr.startHeight + hdr.count := by
  replace h := ensure_drop h
  obtain ⟨hdr', hchecked, h⟩ := bind_eq_ok h
  replace hchecked := ensure_drop hchecked
  obtain ⟨hspan, hchecked⟩ := ensure_bind_iff.mp hchecked
  obtain ⟨hcount, hchecked⟩ := ensure_bind_iff.mp hchecked
  cases hchecked
  cases h
  rw [defaultMaxBlocks]
  omega

/-- A valid response ends below the bound. -/
theorem BlocksItem.Valid.end_lt {item : BlocksItem L} (h : item.Valid) :
    item.hdr.startHeight + item.hdr.count ≤ heightBound := by
  have hpos := h.pos
  have hmem : item.hdr.startHeight + item.hdr.count - 1 ∈ item.heights := by
    rw [h.heights, mem_range'_1]
    omega
  obtain ⟨block, -, hblock⟩ := mem_map.mp hmem
  have hlt := block.height_lt
  rw [hblock] at hlt
  omega

/-- The response answers a request that is in flight. -/
structure SyncSession.Answers (sess : SyncSession L) (item : BlocksItem L) : Prop where
  valid : item.Valid
  planned : ∃ limit, sess.inflight.lookup item.hdr.requestId = some (item.hdr.startHeight, limit)

open SyncSession

theorem handleBlocks_cases (reg : Registry L) (sess : SyncSession L) (body : List UInt8) :
    sess.handleBlocks reg body = .ignored ∨ (∃ e, sess.handleBlocks reg body = .stop e) ∨
      ∃ item, BlocksHeader.decode body = .ok (item.hdr, item.blocks) ∧ sess.Answers item ∧
        sess.handleBlocks reg body = sess.accept item := by
  unfold handleBlocks
  split
  · next e _ => exact .inr (.inl ⟨e, rfl⟩)
  · next hdr blocks hdecode =>
    obtain ⟨hpos, hle, hspan⟩ := BlocksHeader.decode_ok hdecode
    split
    · next e _ => exact .inr (.inl ⟨e, rfl⟩)
    · next offsets decoded hvalidate =>
      have hheights := validateBlocksPayload_ok hvalidate
      split_ifs
      · exact .inl rfl
      · split
        · exact .inl rfl
        · next plannedStart plannedMax hlookup =>
          split_ifs with hstart hcount
          · exact .inr (.inl ⟨_, rfl⟩)
          · exact .inr (.inl ⟨_, rfl⟩)
          · refine .inr (.inr ⟨⟨hdr, blocks, offsets, decoded⟩, hdecode, ⟨?_, plannedMax, ?_⟩, rfl⟩)
            · exact ⟨hpos, hle, hspan, hheights⟩
            · rw [hlookup, not_not.mp hstart]

/-! ## The tiling -/

/-- The start of the `k`-th tile. -/
def SyncSession.tile (sess : SyncSession L) (k : ℕ) : ℕ :=
  sess.nextApplyStart + defaultMaxBlocks * k

/-- The starts that are in flight or in the buffer. -/
def SyncSession.starts (sess : SyncSession L) : List ℕ :=
  sess.inflight.values.map Prod.fst ++ sess.pending.keys

/-- What is in flight or in the buffer are the first `n` tiles; the next request is for the next. -/
structure Tiled (sess : SyncSession L) (n : ℕ) : Prop where
  next : sess.nextStart = sess.tile n
  starts : sess.starts.Perm ((range n).map sess.tile)
  tip : ∀ k < n, sess.tile k ≤ sess.remoteTip
  items : ∀ k item, sess.pending.lookup k = some item → item.Valid ∧ item.hdr.startHeight = k

/-- The session waits for its first tile, or can ask for it. -/
structure SyncSettled (sess : SyncSession L) : Prop where
  tiled : ∃ n, Tiled sess n ∧ (n = 0 → sess.nextApplyStart ≤ sess.remoteTip)
  first : sess.nextApplyStart ∉ sess.pending

/-- Everything up to the tip was handed over. -/
structure Done (sess : SyncSession L) : Prop where
  inflight : sess.inflight = ∅
  pending : sess.pending = ∅
  applied : sess.remoteTip < sess.nextApplyStart
  next : sess.remoteTip < sess.nextStart

namespace Tiled

variable {sess : SyncSession L} {n : ℕ}

theorem mem_starts (h : Tiled sess n) {a : ℕ} : a ∈ sess.starts ↔ ∃ k < n, sess.tile k = a := by
  rw [h.starts.mem_iff, mem_map]
  simp only [mem_range]

theorem tile_inj {j k : ℕ} (h : sess.tile j = sess.tile k) : j = k := by
  rw [tile, tile, defaultMaxBlocks] at h
  omega

theorem nodup (h : Tiled sess n) : sess.starts.Nodup := by
  rw [h.starts.nodup_iff]
  exact nodup_range.map fun _ _ => tile_inj

/-- What is buffered is below the bound. -/
theorem pending_lt (h : Tiled sess n) {a : ℕ} (ha : a ∈ sess.pending.keys) : a < heightBound := by
  obtain ⟨item, hitem⟩ := Option.isSome_iff_exists.mp (lookup_isSome.mpr ha)
  obtain ⟨hvalid, hstart⟩ := h.items a item hitem
  have := hvalid.end_lt
  have := hvalid.pos
  omega

theorem nextStart_le (h : Tiled sess n) (hwindow : sess.inflight.size ≤ syncWindow)
    (hnear : sess.nextApplyStart ≤ heightBound) :
    sess.nextStart ≤ heightBound + 4 * defaultMaxBlocks := by
  by_contra hlt
  rw [h.next, tile, defaultMaxBlocks] at hlt
  -- four tiles beyond the bound are four requests
  have hmem : ∀ a ∈ (range 4).map (fun j => sess.tile (n - 1 - j)),
      a ∈ sess.inflight.values.map Prod.fst := by
    intro a ha
    obtain ⟨j, hj, rfl⟩ := mem_map.mp ha
    rw [mem_range] at hj
    have hstart : sess.tile (n - 1 - j) ∈ sess.starts :=
      h.mem_starts.mpr ⟨n - 1 - j, by omega, rfl⟩
    rcases mem_append.mp hstart with hin | hpend
    · exact hin
    · have := h.pending_lt hpend
      rw [tile, defaultMaxBlocks] at this
      omega
  have hnodup : ((range 4).map fun j => sess.tile (n - 1 - j)).Nodup := by
    refine nodup_range.map_on ?_
    intro i hi j hj heq
    rw [mem_range] at hi hj
    have := tile_inj heq
    omega
  have hlen := (subperm_of_subset hnodup hmem).length_le
  rw [length_map, length_range, length_map, values, length_map] at hlen
  rw [Table.size, syncWindow] at hwindow
  omega

end Tiled

variable {sess : SyncSession L}

theorem SyncSettled.not_caughtUp (h : SyncSettled sess)
    (hpos : 0 < sess.nextApplyStart) : sess.caughtUp = false := by
  rw [← Bool.not_eq_true, caughtUp, decide_eq_true_iff]
  rintro ⟨htip, hinflight, hpending⟩
  obtain ⟨n, htiled, hzero⟩ := h.tiled
  have hlen := htiled.starts.length_eq
  rw [length_map, length_range, starts, length_append,
    length_map, values, length_map] at hlen
  have hkeys : sess.pending.keys.length = sess.pending.size := length_map _
  rw [Table.size] at hinflight
  have hn : n = 0 := by omega
  have := hzero hn
  omega

theorem Done.caughtUp (h : Done sess) : sess.caughtUp = true := by
  have happlied := h.applied
  rw [SyncSession.caughtUp, decide_eq_true_iff, h.inflight, h.pending]
  exact ⟨by omega, rfl, rfl⟩

theorem SyncSettled.progress (h : SyncSettled sess) :
    sess.inflight.size ≠ 0 ∨ sess.canFillWireWindow = true := by
  obtain ⟨n, htiled, hzero⟩ := h.tiled
  rcases Nat.eq_zero_or_pos n with hn | hn
  · right
    have hstarts := htiled.starts
    rw [hn, range_zero, map_nil, perm_nil, starts,
      append_eq_nil_iff] at hstarts
    have hsize : sess.inflight.size = 0 := by
      have := congrArg length hstarts.1
      rwa [length_map, values, length_map] at this
    have hnext : sess.nextStart = sess.nextApplyStart := by
      rw [htiled.next, hn, tile, mul_zero, add_zero]
    rw [canFillWireWindow, decide_eq_true_iff, hsize, hnext]
    exact ⟨by decide, hzero hn⟩
  · left
    -- the first tile is not in the buffer
    have hfirst : sess.nextApplyStart ∈ sess.starts :=
      htiled.mem_starts.mpr ⟨0, hn, by rw [tile, mul_zero, add_zero]⟩
    rcases mem_append.mp hfirst with hin | hpend
    · intro hsize
      rw [values, eq_nil_of_length_eq_zero hsize] at hin
      cases hin
    · exact absurd hpend h.first

/-! ## The loop that fills the queue -/

/-- The loop handed over the heights up to the new cursor, and left a session that waits or is
done. -/
structure Drained (sess sess' : SyncSession L) (new : List (BlocksItem L)) : Prop where
  le : sess.nextApplyStart ≤ sess'.nextApplyStart
  heights : new.flatMap heights
    = range' sess.nextApplyStart (sess'.nextApplyStart - sess.nextApplyStart)
  tip : sess'.remoteTip = sess.remoteTip
  reqId : sess'.nextReqId = sess.nextReqId
  inflight : sess'.inflight.entries.Sublist sess.inflight.entries
  near : sess'.nextApplyStart ≤ heightBound
  shape : SyncSettled sess' ∨ Done sess'

theorem Tiled.shape {n : ℕ} (h : Tiled sess n)
    (hfirst : sess.nextApplyStart ∉ sess.pending) : SyncSettled sess ∨ Done sess := by
  by_cases hzero : n = 0 → sess.nextApplyStart ≤ sess.remoteTip
  · exact .inl ⟨⟨n, h, hzero⟩, hfirst⟩
  · obtain ⟨hn, htip⟩ := Classical.not_imp.mp hzero
    have hstarts := h.starts
    rw [hn, range_zero, map_nil, perm_nil, SyncSession.starts,
      append_eq_nil_iff] at hstarts
    have hnext := h.next
    rw [hn, SyncSession.tile, mul_zero, add_zero] at hnext
    refine .inr ⟨AList.ext ?_, AList.ext ?_, by omega, by omega⟩
    · exact map_eq_nil_iff.mp (map_eq_nil_iff.mp hstarts.1)
    · exact map_eq_nil_iff.mp hstarts.2

theorem Drained.stop {n : ℕ} (h : Tiled sess n)
    (hnear : sess.nextApplyStart ≤ heightBound) (hfirst : sess.nextApplyStart ∉ sess.pending) :
    Drained sess sess [] where
  le := le_rfl
  heights := by simp
  tip := rfl
  reqId := rfl
  inflight := List.Sublist.refl _
  near := hnear
  shape := h.shape hfirst

/-- The session after its first tile was taken from the buffer and handed over up to `next`. -/
def SyncSession.advance (sess : SyncSession L) (next : ℕ) : SyncSession L :=
  { sess with
    pending := sess.pending.erase sess.nextApplyStart
    nextApplyStart := next }

section

variable {sess : SyncSession L} {n : ℕ} {item : BlocksItem L}

section

variable (h : Tiled sess (n + 1))
include h

section

variable (hfirst : sess.pending.lookup sess.nextApplyStart = some item)
include hfirst

/-- Without the first tile there are `n` left, all behind it. -/
theorem Tiled.starts_advance (next : ℕ) :
    (sess.advance next).starts.Perm ((range n).map fun k => sess.tile (k + 1)) := by
  have hkey : sess.nextApplyStart ∈ sess.pending.keys :=
    lookup_isSome.mp (by rw [hfirst]; rfl)
  have hcons : sess.starts.Perm (sess.nextApplyStart :: (sess.advance next).starts) := by
    refine ((perm_cons_erase hkey).append_left _).trans ?_
    rw [SyncSession.starts, SyncSession.advance, keys_erase]
    exact perm_middle
  have htiles : ((range (n + 1)).map sess.tile)
      = sess.nextApplyStart :: (range n).map fun k => sess.tile (k + 1) := by
    rw [range_succ_eq_map, map_cons, map_map, tile, mul_zero, add_zero]
    rfl
  have hperm := hcons.symm.trans h.starts
  rw [htiles] at hperm
  exact hperm.cons_inv

theorem Tiled.advance_full : Tiled (sess.advance (sess.nextApplyStart + defaultMaxBlocks)) n := by
  have htile : ∀ k, (sess.advance (sess.nextApplyStart + defaultMaxBlocks)).tile k
      = sess.tile (k + 1) := by
    intro k
    show sess.nextApplyStart + defaultMaxBlocks + defaultMaxBlocks * k
      = sess.nextApplyStart + defaultMaxBlocks * (k + 1)
    ring
  refine ⟨?_, ?_, ?_, ?_⟩
  · rw [htile]
    exact h.next
  · have hstarts := h.starts_advance hfirst (sess.nextApplyStart + defaultMaxBlocks)
    rwa [← map_congr_left fun k _ => htile k] at hstarts
  · intro k hk
    rw [htile]
    exact h.tip (k + 1) (by omega)
  · intro k other hother
    have hne : k ≠ sess.nextApplyStart := by
      rintro rfl
      have hgone : (sess.pending.erase sess.nextApplyStart).lookup sess.nextApplyStart
          = some other := hother
      rw [lookup_erase] at hgone
      cases hgone
    refine h.items k other ?_
    rw [← lookup_erase_ne hne]
    exact hother

theorem Tiled.second_le {next a : ℕ}
    (ha : a ∈ (sess.advance next).starts) : sess.nextApplyStart + defaultMaxBlocks ≤ a := by
  rw [(h.starts_advance hfirst next).mem_iff, mem_map] at ha
  obtain ⟨k, -, rfl⟩ := ha
  rw [tile, Nat.mul_succ]
  omega

/-- A short response drops all that is left. -/
theorem Tiled.resume_empty {next : ℕ} (hnext : next ≤ sess.nextApplyStart + defaultMaxBlocks) :
    ((sess.advance next).resumeAt next).inflight = ∅ ∧
      ((sess.advance next).resumeAt next).pending = ∅ := by
  constructor
  · show sess.inflight.retain (fun _ planned => decide (planned.1 < next)) = ∅
    refine retain_eq_empty fun e he => ?_
    have hmem : e.2.1 ∈ (sess.advance next).starts :=
      mem_append_left _ (mem_map_of_mem (mem_map_of_mem he))
    have := h.second_le hfirst hmem
    simp only [decide_eq_false_iff_not]
    omega
  · show (sess.advance next).pending.retain (fun start _ => decide (start < next)) = ∅
    refine retain_eq_empty fun e he => ?_
    have hmem : e.1 ∈ (sess.advance next).starts :=
      mem_append_right _ (mem_map_of_mem he)
    have := h.second_le hfirst hmem
    simp only [decide_eq_false_iff_not]
    omega

end

end

theorem tiled_zero {sess : SyncSession L} (hinflight : sess.inflight = ∅)
    (hpending : sess.pending = ∅) (hnext : sess.nextStart = sess.nextApplyStart) :
    Tiled sess 0 where
  next := by rw [hnext, tile, mul_zero, add_zero]
  starts := by
    rw [starts, hinflight, hpending]
    exact List.Perm.refl _
  tip := nofun
  items k item hitem := by
    rw [hpending] at hitem
    cases hitem

end

theorem Drained.cons {sess sess' : SyncSession L} {item : BlocksItem L}
    {new : List (BlocksItem L)} (hvalid : item.Valid)
    (hstart : item.hdr.startHeight = sess.nextApplyStart)
    (h : Drained (sess.advance (item.hdr.endHeight + 1)) sess' new) :
    Drained sess sess' (item :: new) := by
  have hspan := hvalid.span
  have hle : item.hdr.endHeight + 1 ≤ sess'.nextApplyStart := h.le
  refine ⟨by omega, ?_, h.tip, h.reqId, h.inflight, h.near, h.shape⟩
  rw [flatMap_cons, h.heights, hvalid.heights, hstart]
  show _ ++ range' (item.hdr.endHeight + 1)
    (sess'.nextApplyStart - (item.hdr.endHeight + 1)) = _
  rw [hspan, hstart, range'_append_1]
  congr 1
  omega

theorem drain_of_none {sess : SyncSession L}
    (h : sess.pending.lookup sess.nextApplyStart = none) (fuel : ℕ)
    (ready : List (BlocksItem L)) : sess.drain fuel ready = .ok (sess, ready) := by
  cases fuel with
  | zero => rfl
  | succ fuel => rw [drain, h]

/-- **The loop**, by induction on the number of buffered responses. -/
theorem drain_ok : ∀ (fuel : ℕ) {sess : SyncSession L} {n : ℕ} (ready : List (BlocksItem L)),
    Tiled sess n → sess.nextApplyStart ≤ heightBound → sess.pending.size ≤ fuel →
    ∃ sess' new, sess.drain fuel ready = .ok (sess', ready ++ new) ∧ Drained sess sess' new
  | 0, sess, n, ready, htiled, hnear, hfuel => by
    have hempty : sess.pending = ∅ := eq_empty_of_size (Nat.le_zero.mp hfuel)
    refine ⟨sess, [], by rw [drain, append_nil], .stop htiled hnear ?_⟩
    rw [hempty]
    exact notMem_empty _
  | fuel + 1, sess, n, ready, htiled, hnear, hfuel => by
    rw [drain]
    cases hfirst : sess.pending.lookup sess.nextApplyStart with
    | none =>
      refine ⟨sess, [], by rw [append_nil], .stop htiled hnear ?_⟩
      exact lookup_eq_none.mp hfirst
    | some item =>
      obtain ⟨hvalid, hstart⟩ := htiled.items _ item hfirst
      have hspan := hvalid.span
      have hpos := hvalid.pos
      have hle := hvalid.le
      have hend := hvalid.end_lt
      have hnext : satAdd64 item.hdr.endHeight 1 = item.hdr.endHeight + 1 := by
        apply satAdd64_eq
        have : heightBound < u64Max := by decide
        omega
      have hplanned : satAdd64 sess.nextApplyStart defaultMaxBlocks
          = sess.nextApplyStart + defaultMaxBlocks := by
        apply satAdd64_eq
        have : heightBound + defaultMaxBlocks < u64Max := by decide
        omega
      -- the cursor is the first tile
      obtain ⟨n, rfl⟩ : ∃ m, n = m + 1 := by
        have hmem : sess.nextApplyStart ∈ sess.starts :=
          mem_append_right _ (lookup_isSome.mp (by rw [hfirst]; rfl))
        obtain ⟨k, hk, -⟩ := htiled.mem_starts.mp hmem
        exact ⟨n - 1, by omega⟩
      have hadvance : ({ ({ sess with pending := sess.pending.erase sess.nextApplyStart } :
          SyncSession L) with nextApplyStart := item.hdr.endHeight + 1 } : SyncSession L)
          = sess.advance (item.hdr.endHeight + 1) := rfl
      simp only [hnext, hadvance]
      rw [if_neg (by omega)]
      by_cases hshort : sess.isShort item = true
      · rw [if_pos hshort]
        rw [isShort, decide_eq_true_iff, hplanned] at hshort
        obtain ⟨hinflight, hpending⟩ := htiled.resume_empty hfirst
          (show item.hdr.endHeight + 1 ≤ sess.nextApplyStart + defaultMaxBlocks by omega)
        refine ⟨_, [item], rfl, Drained.cons hvalid hstart ?_⟩
        refine ⟨le_rfl, ?_, rfl, rfl, filter_sublist, ?_, .inl ⟨⟨0, ?_, fun _ => ?_⟩, ?_⟩⟩
        · show [] = range' _ (item.hdr.endHeight + 1 - (item.hdr.endHeight + 1))
          rw [Nat.sub_self]
          rfl
        · show item.hdr.endHeight + 1 ≤ heightBound
          omega
        · exact tiled_zero hinflight hpending rfl
        · show item.hdr.endHeight + 1 ≤ sess.remoteTip
          omega
        · rw [hpending]
          exact notMem_empty _
      · rw [if_neg hshort]
        rw [isShort, decide_eq_true_iff, hplanned] at hshort
        have hfuel' : (sess.advance (item.hdr.endHeight + 1)).pending.size ≤ fuel := by
          have := size_erase hfirst
          show Table.size (sess.pending.erase sess.nextApplyStart) ≤ fuel
          omega
        by_cases hfull : item.hdr.endHeight + 1 = sess.nextApplyStart + defaultMaxBlocks
        · -- a full response: go on behind it
          have htiled' := htiled.advance_full hfirst
          rw [← hfull] at htiled'
          obtain ⟨sess', new, hrun, hdrained⟩ := drain_ok fuel (ready ++ [item]) htiled'
            (show item.hdr.endHeight + 1 ≤ heightBound by omega) hfuel'
          refine ⟨sess', item :: new, ?_, hdrained.cons hvalid hstart⟩
          rw [hrun, append_assoc]
          rfl
        · -- the tip is reached inside the first tile, so there is no other
          have hn : n = 0 := by
            by_contra hn
            have := htiled.tip 1 (by omega)
            rw [tile, mul_one] at this
            omega
          subst hn
          have hnil := (htiled.starts_advance hfirst (item.hdr.endHeight + 1)).eq_nil
          rw [starts, append_eq_nil_iff] at hnil
          have hinflight : (sess.advance (item.hdr.endHeight + 1)).inflight = ∅ :=
            AList.ext (map_eq_nil_iff.mp (map_eq_nil_iff.mp hnil.1))
          have hpending : (sess.advance (item.hdr.endHeight + 1)).pending = ∅ :=
            AList.ext (map_eq_nil_iff.mp hnil.2)
          refine ⟨_, [item], drain_of_none ?_ fuel (ready ++ [item]),
            Drained.cons hvalid hstart ?_⟩
          · rw [hpending]
            rfl
          refine ⟨le_rfl, by simp, rfl, rfl, List.Sublist.refl _, ?_,
            .inr ⟨hinflight, hpending, ?_, ?_⟩⟩
          · show item.hdr.endHeight + 1 ≤ heightBound
            omega
          · show sess.remoteTip < item.hdr.endHeight + 1
            omega
          · show sess.remoteTip < sess.nextStart
            rw [htiled.next, tile]
            omega

/-! ## Refills and responses -/

section

variable {sess : SyncSession L} {n : ℕ} {item : BlocksItem L}

/-- A refill adds a tile at the end. -/
theorem SyncSettled.fill (h : SyncSettled sess) (hfresh : sess.nextReqId ∉ sess.inflight)
    (hroom : sess.canFillWireWindow = true) (hnear : sess.nextApplyStart ≤ heightBound) :
    SyncSettled sess.fill := by
  obtain ⟨n, htiled, -⟩ := h.tiled
  rw [canFillWireWindow, decide_eq_true_iff] at hroom
  have hnext : sess.fill.nextStart = sess.nextStart + defaultMaxBlocks := by
    have hle := htiled.nextStart_le hroom.1.le hnear
    have hmax : heightBound + 5 * defaultMaxBlocks < u64Max := by decide
    have hsum := satAdd64_eq (show sess.nextStart + defaultMaxBlocks ≤ u64Max by omega)
    have hpos : 0 < defaultMaxBlocks := by decide
    rw [fill_nextStart, startAfter, hsum]
    exact if_neg (by omega)
  refine ⟨⟨n + 1, ⟨?_, ?_, ?_, htiled.items⟩, nofun⟩, h.first⟩
  · rw [hnext, htiled.next]
    show sess.nextApplyStart + defaultMaxBlocks * n + defaultMaxBlocks
      = sess.nextApplyStart + defaultMaxBlocks * (n + 1)
    ring
  · have hstarts : sess.fill.starts = sess.nextStart :: sess.starts := by
      rw [SyncSession.starts, SyncSession.fill, values,
        entries_insert_of_notMem hfresh]
      rfl
    rw [hstarts, range_succ, map_append, map_singleton, htiled.next]
    exact (htiled.starts.cons _).trans (perm_append_singleton _ _).symm
  · intro k hk
    rcases Nat.lt_succ_iff_lt_or_eq.mp hk with hk | rfl
    · exact htiled.tip k hk
    · show sess.tile k ≤ sess.remoteTip
      rw [← htiled.next]
      exact hroom.2

/-- A response moves its tile into the buffer. -/
theorem Tiled.receive (h : Tiled sess n) (hanswer : sess.Answers item) :
    Tiled (sess.receive item) n := by
  obtain ⟨hvalid, limit, hlookup⟩ := hanswer
  have hinflight := (entries_perm_erase hlookup).map fun e => e.2.1
  rw [map_cons] at hinflight
  -- the tile is in flight, so it is not in the buffer
  have hnew : item.hdr.startHeight ∉ sess.pending := by
    intro hmem
    have hstart : item.hdr.startHeight ∈ sess.inflight.values.map Prod.fst := by
      rw [values, map_map]
      exact hinflight.mem_iff.mpr mem_cons_self
    exact (nodup_append.mp h.nodup).2.2 _ hstart _ hmem rfl
  refine ⟨h.next, ?_, ?_, ?_⟩
  · refine List.Perm.trans ?_ h.starts
    have hkeys : (sess.receive item).pending.keys
        = item.hdr.startHeight :: sess.pending.keys := by
      rw [SyncSession.receive, keys_insert, erase_of_not_mem hnew]
    rw [SyncSession.starts, hkeys, SyncSession.starts, values, values, map_map,
      map_map]
    exact perm_middle.trans (hinflight.symm.append_right _)
  · intro k hk
    exact (h.tip k hk).trans (le_max_left _ _)
  · intro k other hother
    by_cases hk : k = item.hdr.startHeight
    · subst hk
      have hself : (sess.pending.insert item.hdr.startHeight item).lookup item.hdr.startHeight
          = some other := hother
      rw [lookup_insert] at hself
      cases hself
      exact ⟨hvalid, rfl⟩
    · refine h.items k other ?_
      rw [← lookup_insert_ne hk]
      exact hother

end

/-! ## The invariant -/

/-- A session below the height bound. -/
structure Near (st : SyncState L) : Prop where
  near : st.session.nextApplyStart ≤ heightBound
  shape : st.phase = .running ∧ SyncSettled st.session ∨ st.phase = .finished ∧ Done st.session

/-- A session that was started beyond the heights of blocks: its first request can have no
valid answer. -/
structure Far (startHeight : ℕ) (st : SyncState L) : Prop where
  far : heightBound < startHeight
  phase : st.phase = .running
  cursor : st.session.nextApplyStart = startHeight
  first : startHeight ∉ st.session.pending
  request : (st.session.inflight = ∅ ∧ st.session.nextStart = startHeight) ∨
    ∃ id limit, st.session.inflight.lookup id = some (startHeight, limit)

/-- A session that has not failed. -/
structure Live (startHeight remoteTip : ℕ) (st : SyncState L) : Prop where
  le : startHeight ≤ st.session.nextApplyStart
  queued : st.queuedHeights
    = range' startHeight (st.session.nextApplyStart - startHeight)
  tips : ∀ t ∈ remoteTip :: st.advertised, t ≤ st.session.remoteTip
  reqId : st.session.nextReqId = min (st.issued + 1) u64Max
  ids : ∀ id ∈ st.session.inflight, id ≤ st.issued
  shape : Near st ∨ Far startHeight st

/-- **The invariant of a session.** -/
structure SyncInv (startHeight remoteTip : ℕ) (st : SyncState L) : Prop where
  contiguous : ∃ n, st.queuedHeights = range' startHeight n
  window : st.session.inflight.size ≤ syncWindow
  live : st.phase ≠ .failed → Live startHeight remoteTip st

theorem queuedHeights_append (st : SyncState L) (sess : SyncSession L)
    (ready : List (BlocksItem L)) (tip : ℕ) :
    (st.planned sess ready tip).queuedHeights = st.queuedHeights ++ ready.flatMap heights := by
  rw [SyncState.queuedHeights, SyncState.planned, flatMap_append, flatMap_map]
  rfl

section

variable {startHeight remoteTip : ℕ} {st : SyncState L}

theorem syncInv_init (htip : startHeight ≤ remoteTip) :
    SyncInv startHeight remoteTip (.init startHeight remoteTip : SyncState L) where
  contiguous := ⟨0, rfl⟩
  window := Nat.zero_le _
  live _ := by
    refine ⟨le_rfl, ?_, ?_, rfl, ?_, ?_⟩
    · show [] = range' startHeight (startHeight - startHeight)
      rw [Nat.sub_self]
      rfl
    · intro t ht
      rw [mem_singleton.mp ht]
      exact le_rfl
    · intro id hid
      exact absurd hid (notMem_empty _)
    · by_cases hfar : startHeight ≤ heightBound
      · refine .inl ⟨hfar, .inl ⟨rfl, ⟨0, tiled_zero rfl rfl rfl, fun _ => htip⟩, ?_⟩⟩
        exact notMem_empty _
      · exact .inr ⟨not_le.mp hfar, rfl, rfl, notMem_empty _, .inl ⟨rfl, rfl⟩⟩

/-- A request id that was not used. -/
theorem Live.fresh (h : Live startHeight remoteTip st) (hissued : st.issued + 1 ≤ u64Max) :
    st.session.nextReqId = st.issued + 1 ∧ st.session.nextReqId ∉ st.session.inflight := by
  have hid : st.session.nextReqId = st.issued + 1 := by
    rw [h.reqId]
    omega
  refine ⟨hid, fun hmem => ?_⟩
  have := h.ids _ hmem
  omega

theorem Live.fill (h : Live startHeight remoteTip st)
    (hroom : st.session.canFillWireWindow = true) (hissued : st.issued + 1 ≤ u64Max) :
    Live startHeight remoteTip
      { st with session := st.session.fill, issued := st.issued + 1 } := by
  obtain ⟨hid, hfresh⟩ := h.fresh hissued
  refine ⟨h.le, h.queued, h.tips, ?_, ?_, ?_⟩
  · show satAdd64 st.session.nextReqId 1 = min (st.issued + 1 + 1) u64Max
    rw [hid, satAdd64]
  · intro id hmem
    rcases (mem_insert _).mp hmem with rfl | hmem
    · exact hid.le
    · exact (h.ids id hmem).trans (Nat.le_succ _)
  · rcases h.shape with ⟨hnear, hshape⟩ | ⟨hfar, hphase, hcursor, hfirst, hrequest⟩
    · rcases hshape with ⟨hphase, hsettled⟩ | ⟨hphase, hdone⟩
      · exact .inl ⟨hnear, .inl ⟨hphase, hsettled.fill hfresh hroom hnear⟩⟩
      · -- a session that is done has no room
        rw [canFillWireWindow, decide_eq_true_iff] at hroom
        have := hdone.next
        omega
    · refine .inr ⟨hfar, hphase, hcursor, hfirst, .inr ?_⟩
      rcases hrequest with ⟨-, hnext⟩ | ⟨id, limit, hlookup⟩
      · exact ⟨st.session.nextReqId, defaultMaxBlocks, by
          show (st.session.inflight.insert _ _).lookup _ = _
          rw [lookup_insert, hnext]⟩
      · refine ⟨id, limit, ?_⟩
        have hne : id ≠ st.session.nextReqId := by
          rintro rfl
          exact hfresh (lookup_isSome.mp (by rw [hlookup]; rfl))
        show (st.session.inflight.insert _ _).lookup id = _
        rw [lookup_insert_ne hne, hlookup]

/-- What a response did to a live session. -/
structure Responded (st : SyncState L) (sess : SyncSession L) (ready : List (BlocksItem L))
    (tip : ℕ) : Prop where
  le : st.session.nextApplyStart ≤ sess.nextApplyStart
  heights : ready.flatMap heights = range' st.session.nextApplyStart
    (sess.nextApplyStart - st.session.nextApplyStart)
  tip : sess.remoteTip = max st.session.remoteTip tip
  reqId : sess.nextReqId = st.session.nextReqId
  inflight : sess.inflight.entries.Sublist st.session.inflight.entries

variable {item : BlocksItem L} {sess : SyncSession L} {ready : List (BlocksItem L)} {tip : ℕ}

/-- A response of a session below the bound. -/
theorem Near.respond (h : Near st) (hanswer : st.session.Answers item) :
    ∃ sess ready, st.session.accept item = .planned sess ready item.hdr.remoteTip ∧
      Responded st sess ready item.hdr.remoteTip ∧ st.phase = .running ∧
      sess.nextApplyStart ≤ heightBound ∧ (SyncSettled sess ∨ Done sess) := by
  rcases h.shape with ⟨hphase, hsettled⟩ | ⟨-, hdone⟩
  · obtain ⟨n, htiled, -⟩ := hsettled.tiled
    obtain ⟨sess, ready, hrun, hdrained⟩ :=
      drain_ok _ [] (htiled.receive hanswer) h.near le_rfl
    refine ⟨sess, ready, ?_, ?_, hphase, hdrained.near, hdrained.shape⟩
    · rw [accept, hrun]
      rfl
    · exact ⟨hdrained.le, hdrained.heights, hdrained.tip, hdrained.reqId,
        hdrained.inflight.trans (kerase_sublist _ _)⟩
  · obtain ⟨-, limit, hlookup⟩ := hanswer
    rw [hdone.inflight] at hlookup
    cases hlookup

theorem Far.respond (h : Far startHeight st) (hanswer : st.session.Answers item) :
    st.session.accept item
        = .planned (st.session.receive item) [] item.hdr.remoteTip ∧
      startHeight ∉ (st.session.receive item).pending ∧
      ∃ id limit, (st.session.receive item).inflight.lookup id = some (startHeight, limit) := by
  obtain ⟨hvalid, limit, hlookup⟩ := hanswer
  have hend := hvalid.end_lt
  have hfar := h.far
  have hne : startHeight ≠ item.hdr.startHeight := by
    rintro rfl
    have := hvalid.pos
    omega
  have hfirst : startHeight ∉ (st.session.receive item).pending := by
    intro hmem
    exact h.first (((mem_insert _).mp hmem).resolve_left hne)
  refine ⟨?_, hfirst, ?_⟩
  · have hnone : (st.session.receive item).pending.lookup
        (st.session.receive item).nextApplyStart = none := by
      rw [lookup_eq_none]
      show st.session.nextApplyStart ∉ _
      rw [h.cursor]
      exact hfirst
    rw [accept, drain_of_none hnone]
  · rcases h.request with ⟨hempty, -⟩ | ⟨id, limit', hrequest⟩
    · rw [hempty] at hlookup
      cases hlookup
    · refine ⟨id, limit', ?_⟩
      have hid : id ≠ item.hdr.requestId := by
        rintro rfl
        rw [hrequest] at hlookup
        cases hlookup
        exact hne rfl
      show (st.session.inflight.erase _).lookup id = _
      rw [lookup_erase_ne hid, hrequest]

section

variable (h : Live startHeight remoteTip st)
include h

theorem Live.of_responded (hr : Responded st sess ready tip)
    (hshape : Near (st.planned sess ready tip) ∨ Far startHeight (st.planned sess ready tip)) :
    Live startHeight remoteTip (st.planned sess ready tip) where
  le := h.le.trans hr.le
  queued := by
    have hle := h.le
    have hle' := hr.le
    rw [queuedHeights_append, h.queued, hr.heights]
    show _ = range' startHeight (sess.nextApplyStart - startHeight)
    have hsplit : st.session.nextApplyStart
        = startHeight + (st.session.nextApplyStart - startHeight) := by omega
    rw [← show st.session.nextApplyStart - startHeight
      + (sess.nextApplyStart - st.session.nextApplyStart) = sess.nextApplyStart - startHeight by
        omega, ← range'_append_1, ← hsplit]
  tips t ht := by
    show t ≤ sess.remoteTip
    rw [hr.tip]
    rcases mem_cons.mp ht with rfl | ht
    · exact (h.tips t mem_cons_self).trans (le_max_left _ _)
    · rcases mem_append.mp ht with ht | ht
      · exact (h.tips t (mem_cons_of_mem _ ht)).trans (le_max_left _ _)
      · rw [mem_singleton.mp ht]
        exact le_max_right _ _
  reqId := hr.reqId.trans h.reqId
  ids id hid := h.ids id ((hr.inflight.map Sigma.fst).subset hid)
  shape := hshape

section

variable (hpos : 0 < startHeight) (hle : startHeight ≤ remoteTip)
include hpos hle

/-- **A response** keeps a live session live. -/
theorem Live.respond (hanswer : st.session.Answers item) :
    ∃ sess ready, st.session.accept item = .planned sess ready item.hdr.remoteTip ∧
      Responded st sess ready item.hdr.remoteTip ∧
      Live startHeight remoteTip (st.planned sess ready item.hdr.remoteTip) := by
  rcases h.shape with hnear | hfar
  · obtain ⟨sess, ready, haccept, hr, hphase, hbound, hshape⟩ := hnear.respond hanswer
    have hcursor : 0 < sess.nextApplyStart := lt_of_lt_of_le hpos (h.le.trans hr.le)
    refine ⟨sess, ready, haccept, hr, h.of_responded hr (.inl ⟨hbound, ?_⟩)⟩
    rcases hshape with hsettled | hdone
    · refine .inl ⟨?_, hsettled⟩
      show (if sess.caughtUp then SyncPhase.finished else st.phase) = .running
      rw [hsettled.not_caughtUp hcursor]
      exact hphase
    · refine .inr ⟨?_, hdone⟩
      show (if sess.caughtUp then SyncPhase.finished else st.phase) = .finished
      rw [hdone.caughtUp]
      rfl
  · obtain ⟨haccept, hfirst, hrequest⟩ := hfar.respond hanswer
    have hr : Responded st (st.session.receive item) [] item.hdr.remoteTip := by
      refine ⟨le_rfl, ?_, rfl, rfl, kerase_sublist _ _⟩
      show [] = range' _ (st.session.nextApplyStart - st.session.nextApplyStart)
      rw [Nat.sub_self]
      rfl
    refine ⟨_, [], haccept, hr, h.of_responded hr (.inr ⟨hfar.far, ?_, hfar.cursor, hfirst,
      .inr hrequest⟩)⟩
    -- the tip is not below the start, so the session has not caught up
    have hcaught : (st.session.receive item).caughtUp = false := by
      rw [← Bool.not_eq_true, caughtUp, decide_eq_true_iff]
      rintro ⟨hbehind, -, -⟩
      have htip : remoteTip ≤ (st.session.receive item).remoteTip :=
        (h.tips remoteTip mem_cons_self).trans (le_max_left _ _)
      have hcursor : (st.session.receive item).nextApplyStart = startHeight := hfar.cursor
      omega
    show (if (st.session.receive item).caughtUp then SyncPhase.finished else st.phase) = .running
    rw [hcaught]
    exact hfar.phase

/-- What a message that was planned did. -/
theorem Live.planned {body : List UInt8}
    (hhandled : st.session.handleBlocks reg body = .planned sess ready tip) :
    Responded st sess ready tip ∧ Live startHeight remoteTip (st.planned sess ready tip) := by
  rcases handleBlocks_cases reg st.session body with hcase | ⟨e, hcase⟩ | ⟨item, -, hanswer, hcase⟩
  · rw [hcase] at hhandled
    cases hhandled
  · rw [hcase] at hhandled
    cases hhandled
  · obtain ⟨sess', ready', haccept, hr, hlive⟩ := h.respond hpos hle hanswer
    rw [hcase, haccept] at hhandled
    cases hhandled
    exact ⟨hr, hlive⟩

/-- Every response advances. -/
theorem Live.not_stuck {body : List UInt8} :
    st.session.handleBlocks reg body ≠ .stuck sess tip := by
  intro hhandled
  rcases handleBlocks_cases reg st.session body with hcase | ⟨e, hcase⟩ | ⟨item, -, hanswer, hcase⟩
  · rw [hcase] at hhandled
    cases hhandled
  · rw [hcase] at hhandled
    cases hhandled
  · obtain ⟨sess', ready', haccept, -, -⟩ := h.respond hpos hle hanswer
    rw [hcase, haccept] at hhandled
    cases hhandled

end

theorem Live.contiguous_take (hr : Responded st sess ready tip) (n : ℕ) :
    ∃ m, (st.planned sess (ready.take n) tip).queuedHeights = range' startHeight m := by
  have hsplit : range' st.session.nextApplyStart
      (sess.nextApplyStart - st.session.nextApplyStart)
      = (ready.take n).flatMap heights ++ (ready.drop n).flatMap heights := by
    rw [← flatMap_append, take_append_drop, hr.heights]
  obtain ⟨k, -, hk, -⟩ := range'_eq_append_iff.mp hsplit
  refine ⟨st.session.nextApplyStart - startHeight + k, ?_⟩
  have hle := h.le
  rw [queuedHeights_append, h.queued, hk, ← range'_append_1]
  congr 2
  omega

end

/-- **One step** keeps the invariant, as long as the ids do not saturate. -/
theorem SyncInv.step (h : SyncInv startHeight remoteTip st) (hpos : 0 < startHeight)
    (hle : startHeight ≤ remoteTip) {st' : SyncState L} (hstep : SyncStep reg st st')
    (hissued : st'.issued ≤ u64Max) : SyncInv startHeight remoteTip st' := by
  cases hstep with
  | fill hlive hroom =>
    refine ⟨h.contiguous, ?_, fun hlive' => (h.live hlive').fill hroom hissued⟩
    rw [canFillWireWindow, decide_eq_true_iff] at hroom
    exact size_insert_le.trans hroom.1
  | respond hlive hhandled =>
    obtain ⟨hr, hlive'⟩ := (h.live hlive).planned hpos hle hhandled
    exact ⟨⟨_, hlive'.queued⟩, hr.inflight.length_le.trans h.window, fun _ => hlive'⟩
  | stuck hlive hhandled => exact absurd hhandled ((h.live hlive).not_stuck hpos hle)
  | pushFails n hlive hhandled =>
    obtain ⟨hr, -⟩ := (h.live hlive).planned hpos hle hhandled
    exact ⟨(h.live hlive).contiguous_take hr n, hr.inflight.length_le.trans h.window,
      fun hne => absurd rfl hne⟩
  | stop => exact ⟨h.contiguous, h.window, fun hne => absurd rfl hne⟩

end

/-- Requests are only ever added to the count. -/
theorem SyncStep.issued_le {st st' : SyncState L} (h : SyncStep reg st st') :
    st.issued ≤ st'.issued := by
  cases h with
  | fill => exact Nat.le_succ _
  | _ => exact le_rfl

/-- **A run** of a session, by induction on its steps. -/
theorem syncInv_of_reachable {startHeight remoteTip : ℕ} {st : SyncState L}
    (h : SyncReachable reg startHeight remoteTip st) (hissued : st.issued ≤ u64Max) :
    0 < startHeight ∧ startHeight ≤ remoteTip ∧ SyncInv startHeight remoteTip st := by
  induction h with
  | init hstart htip => exact ⟨Nat.pos_of_ne_zero hstart, htip, syncInv_init htip⟩
  | step _ hstep ih =>
    obtain ⟨hpos, hle, hinv⟩ := ih (hstep.issued_le.trans hissued)
    exact ⟨hpos, hle, hinv.step hpos hle hstep hissued⟩

/-! ## The result -/

/-- **Ordered download without gaps or deadlock.** In every state of a session that has issued at
most `2 ^ 64 - 1` requests: the queue has the heights from the start on, each once and in order;
the window holds; a finished session has queued every height up to the tips it was told of; and
one that runs has a request in flight or can issue one. -/
theorem sync_session_ordered (startHeight remoteTip : ℕ) (st : SyncState L)
    (h : SyncReachable reg startHeight remoteTip st) (hissued : st.issued ≤ u64Max) :
    (∃ n, st.queuedHeights = range' startHeight n) ∧
    st.session.inflight.size ≤ syncWindow ∧
    (st.phase = .finished → ∀ tip ∈ remoteTip :: st.advertised, ∀ height,
      startHeight ≤ height → height ≤ tip → height ∈ st.queuedHeights) ∧
    (st.phase = .running →
      st.session.inflight.size ≠ 0 ∨ st.session.canFillWireWindow = true) := by
  obtain ⟨-, hle, hinv⟩ := syncInv_of_reachable h hissued
  refine ⟨hinv.contiguous, hinv.window, ?_, ?_⟩
  · intro hphase tip htip height hstart hheight
    have hlive := hinv.live (by rw [hphase]; nofun)
    have hdone : st.session.remoteTip < st.session.nextApplyStart := by
      rcases hlive.shape with ⟨-, ⟨hrun, -⟩ | ⟨-, hdone⟩⟩ | hfar
      · rw [hphase] at hrun
        cases hrun
      · exact hdone.applied
      · have hrun := hfar.phase
        rw [hphase] at hrun
        cases hrun
    have := hlive.tips tip htip
    rw [hlive.queued, mem_range'_1]
    omega
  · intro hphase
    have hlive := hinv.live (by rw [hphase]; nofun)
    rcases hlive.shape with ⟨-, ⟨-, hsettled⟩ | ⟨hfin, -⟩⟩ | hfar
    · exact hsettled.progress
    · rw [hphase] at hfin
      cases hfin
    · rcases hfar.request with ⟨hempty, hnext⟩ | ⟨id, limit, hlookup⟩
      · right
        have htip := hlive.tips remoteTip mem_cons_self
        rw [canFillWireWindow, decide_eq_true_iff, hempty, hnext]
        exact ⟨by decide, by omega⟩
      · left
        have := size_erase hlookup
        omega

/-- Two requests, for the ranges at 1 and at 10001. -/
def twoRequests : SyncState (Uint 1) :=
  { (.init 1 20000 : SyncState (Uint 1)) with
    session := (SyncSession.start 1 20000).fill.fill, issued := 2 }

theorem twoRequests_reachable : SyncReachable sampleRegistry 1 20000 twoRequests :=
  .step (.step (.init (by decide) (by decide)) (.fill nofun (by decide))) (.fill nofun (by decide))

/-- The second request is answered: its block waits for the first. -/
def secondAnswered : SyncState (Uint 1) :=
  twoRequests.planned (twoRequests.session.receive (oneItem 20000 2 ⟨10001, by decide⟩)) [] 20000

theorem handleBlocks_second :
    twoRequests.session.handleBlocks sampleRegistry (oneBody 20000 2 ⟨10001, by decide⟩) =
      .planned (twoRequests.session.receive (oneItem 20000 2 ⟨10001, by decide⟩)) [] 20000 := by
  have hlookup : twoRequests.session.inflight.lookup 2 = some (10001, defaultMaxBlocks) := by decide
  rw [handleBlocks_oneBody (by decide) (by decide) (by decide) (by decide) hlookup, accept,
    drain_of_none rfl]
  rfl

/-- The first request is answered with the block at 1 only: it is queued, and the session resumes
at 2. -/
def firstAnswered : SyncState (Uint 1) :=
  secondAnswered.planned ⟨3, 2, 20000, ∅, ∅, 2⟩ [oneItem 20000 1 ⟨1, by decide⟩] 20000

theorem handleBlocks_first :
    secondAnswered.session.handleBlocks sampleRegistry (oneBody 20000 1 ⟨1, by decide⟩) =
      .planned ⟨3, 2, 20000, ∅, ∅, 2⟩ [oneItem 20000 1 ⟨1, by decide⟩] 20000 := by
  have hlookup : secondAnswered.session.inflight.lookup 1 = some (1, defaultMaxBlocks) := by decide
  rw [handleBlocks_oneBody (by decide) (by decide) (by decide) (by decide) hlookup, accept]
  rfl

/-- Two responses out of order: the heights that were queued are those from the start on. -/
theorem sync_session_ordered_sample :
    SyncReachable sampleRegistry 1 20000 firstAnswered ∧ firstAnswered.issued ≤ u64Max ∧
      firstAnswered.queuedHeights = [1] ∧
      (∃ n, firstAnswered.queuedHeights = range' 1 n) ∧
      firstAnswered.session.inflight.size ≤ syncWindow ∧
      (firstAnswered.session.inflight.size ≠ 0 ∨
        firstAnswered.session.canFillWireWindow = true) := by
  have hreach : SyncReachable sampleRegistry 1 20000 firstAnswered :=
    .step (.step twoRequests_reachable (.respond nofun handleBlocks_second))
      (.respond nofun handleBlocks_first)
  obtain ⟨hqueue, hwindow, -, hprogress⟩ := sync_session_ordered 1 20000 _ hreach (by decide)
  exact ⟨hreach, by decide, rfl, hqueue, hwindow, hprogress rfl⟩

end Hacash
