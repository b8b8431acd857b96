import Hacash.Node.SyncOrder

/-!
# Request ids saturate

Once `next_req_id` has reached its maximum, a new request replaces the one before. **Key results**:
`saturated_ids_strand_session` and `sync_buffer_bounded_of_led`.
-/

namespace Hacash

open Lib AList List SyncSession Table BlockV1

variable {L : Type}

/-! ## Runs -/

section

variable {tip a r s k n : ℕ} {inflight : Table ℕ (ℕ × ℕ)}
  {pending : Table ℕ (BlocksItem (Uint 1))} {sess : SyncSession (Uint 1)}

/-- A running session that started at height 1 can look like this. -/
def Runs (tip : ℕ) (sess : SyncSession (Uint 1)) : Prop :=
  ∃ st : SyncState (Uint 1),
    SyncReachable sampleRegistry 1 tip st ∧ st.phase = .running ∧ st.session = sess

theorem satAdd64_maxBlocks (h : s < heightBound) :
    satAdd64 s defaultMaxBlocks = s + defaultMaxBlocks := by
  apply satAdd64_eq
  rw [heightBound] at h
  rw [defaultMaxBlocks, u64Max]
  omega

theorem startAfter_of_lt (h : s < heightBound) : startAfter s = s + defaultMaxBlocks := by
  rw [startAfter, satAdd64_maxBlocks h, if_neg (by rw [defaultMaxBlocks]; omega)]

section

variable (h : Runs tip ⟨r, s, tip, inflight, pending, a⟩)
include h

/-- A turn of the refill. -/
theorem Runs.fill (hwindow : inflight.size < syncWindow) (hs : s ≤ tip) (htip : tip < heightBound) :
    Runs tip ⟨satAdd64 r 1, s + defaultMaxBlocks, tip,
      inflight.insert r (s, defaultMaxBlocks), pending, a⟩ := by
  obtain ⟨st, hreach, hphase, hsess⟩ := h
  have hroom : st.session.canFillWireWindow = true := by
    rw [hsess]
    exact decide_eq_true_iff.mpr ⟨hwindow, hs⟩
  refine ⟨_, hreach.step (.fill (by rw [hphase]; nofun) hroom), hphase, ?_⟩
  show st.session.fill = _
  rw [hsess, SyncSession.fill]
  dsimp only
  rw [startAfter_of_lt (hs.trans_lt htip)]

/-- A response with one block to request `id`, after which the session has not caught up. -/
theorem Runs.answer (id : ℕ)
    (height : Uint 5) {ready : List (BlocksItem (Uint 1))} (htip : tip < heightBound)
    (hid0 : id ≠ 0) (hid : id ≤ u64Max) (hheight : height.uint ≠ 0)
    (hlookup : inflight.lookup id = some (height.uint, defaultMaxBlocks))
    (hdrain : drain
      (Table.size (pending.insert height.uint (oneItem tip id height)))
      ⟨r, s, tip, inflight.erase id,
        pending.insert height.uint (oneItem tip id height), a⟩ [] = .ok (sess, ready))
    (hcaught : sess.caughtUp = false) : Runs tip sess := by
  obtain ⟨st, hreach, hphase, hsess⟩ := h
  have htipMax : tip ≤ u64Max := by
    rw [heightBound] at htip
    rw [u64Max]
    omega
  have hreceive : st.session.receive (oneItem tip id height)
      = ⟨r, s, tip, inflight.erase id,
        pending.insert height.uint (oneItem tip id height), a⟩ := by
    rw [hsess, receive]
    dsimp only [oneItem, oneHeader]
    rw [max_self]
  have hhandled : st.session.handleBlocks sampleRegistry (oneBody tip id height)
      = .planned sess ready tip := by
    rw [handleBlocks_oneBody htipMax hid hid0 hheight (by rw [hsess]; exact hlookup),
      accept, hreceive, hdrain]
    rfl
  refine ⟨_, hreach.step (.respond (by rw [hphase]; decide) hhandled), ?_, rfl⟩
  show (if sess.caughtUp then SyncPhase.finished else st.phase) = .running
  rw [hcaught, hphase]
  rfl

theorem Runs.buffer (id : ℕ) (height : Uint 5)
    (htip : tip < heightBound) (hid0 : id ≠ 0) (hid : id ≤ u64Max) (hheight : a < height.uint)
    (hlookup : inflight.lookup id = some (height.uint, defaultMaxBlocks))
    (hpending : pending.lookup a = none) :
    Runs tip ⟨r, s, tip, inflight.erase id,
      pending.insert height.uint (oneItem tip id height), a⟩ := by
  have hnone : (pending.insert height.uint (oneItem tip id height)).lookup a = none := by
    rw [lookup_insert_ne (by omega), hpending]
  refine h.answer id height htip hid0 hid (by omega) hlookup (drain_of_none hnone _ _) ?_
  exact decide_eq_false fun hcaught => absurd hcaught.2.2 (Nat.succ_ne_zero _)

/-- A response with the one block that is next: the session resumes after it and forgets the rest.
-/
theorem Runs.short (id : ℕ)
    (htip : tip < heightBound) (hid0 : id ≠ 0) (hid : id ≤ u64Max) (ha : a ≠ 0) (hlt : a < tip)
    (hlookup : inflight.lookup id = some (a, defaultMaxBlocks))
    (hinflight : inflight.erase id = ∅) (hpending : ∀ e ∈ pending.entries, a < e.1) :
    Runs tip ⟨r, a + 1, tip, ∅, ∅, a + 1⟩ := by
  set height : Uint 5 := ⟨a, hlt.trans htip⟩
  have hfresh : a ∉ pending := by
    intro hmem
    obtain ⟨item, hitem⟩ := Option.isSome_iff_exists.mp (lookup_isSome.mpr hmem)
    exact absurd (hpending _ (lookup_eq_some_iff.mp hitem)) (lt_irrefl _)
  have hdrop : retain pending (fun start _ => decide (start < a + 1)) = ∅ :=
    retain_eq_empty fun e he => decide_eq_false (by have := hpending e he; omega)
  have hnext : satAdd64 a 1 = a + 1 := by
    apply satAdd64_eq
    rw [heightBound] at htip
    rw [u64Max]
    omega
  have hdrain : drain (Table.size (pending.insert a (oneItem tip id height)))
      ⟨r, s, tip, inflight.erase id, pending.insert a (oneItem tip id height), a⟩ []
      = .ok (⟨r, a + 1, tip, ∅, ∅, a + 1⟩, [oneItem tip id height]) := by
    rw [size_insert hfresh, drain]
    dsimp only
    rw [lookup_insert]
    have hshort : isShort (⟨r, s, tip, inflight.erase id,
        pending.insert a (oneItem tip id height), a⟩ : SyncSession (Uint 1))
        (oneItem tip id height) = true := by
      refine decide_eq_true_iff.mpr ?_
      show a < min (satAdd64 a defaultMaxBlocks - 1) tip
      rw [satAdd64_maxBlocks (by omega), defaultMaxBlocks]
      omega
    have hend : (oneItem tip id height).hdr.endHeight = a := rfl
    dsimp only
    rw [hshort, hend, hnext, if_neg (by omega), if_pos rfl, resumeAt]
    dsimp only
    rw [hinflight, erase_insert hfresh, hdrop]
    rfl
  refine h.answer id height htip hid0 hid ha hlookup hdrain (decide_eq_false ?_)
  rintro ⟨hcaught, -⟩
  exact absurd hcaught (by show ¬ tip ≤ a; omega)

end

/-! ## Rounds -/

/-- A session at height `a` between two rounds: nothing is in flight and nothing buffered. -/
def Clean (tip a r : ℕ) : Prop := Runs tip ⟨r, a, tip, ∅, ∅, a⟩

/-- A session in a round: the request for height `a` is out, and the next `k` requests have
been answered. -/
def Ahead (tip a r k : ℕ) : Prop :=
  ∃ pending : Table ℕ (BlocksItem (Uint 1)), (∀ e ∈ pending.entries, a < e.1) ∧
    Runs tip ⟨r + (k + 1), a + defaultMaxBlocks * (k + 1), tip,
      (∅ : Table ℕ (ℕ × ℕ)).insert r (a, defaultMaxBlocks), pending, a⟩

/-- A session in a round, with the `k` answers in its buffer. -/
def Held (tip a r k : ℕ) : Prop :=
  ∃ pending : Table ℕ (BlocksItem (Uint 1)), pending.size = k ∧
    (∀ e ∈ pending.entries, a < e.1 ∧ e.1 < a + defaultMaxBlocks * (k + 1)) ∧
    Runs tip ⟨r + (k + 1), a + defaultMaxBlocks * (k + 1), tip,
      (∅ : Table ℕ (ℕ × ℕ)).insert r (a, defaultMaxBlocks), pending, a⟩

theorem Held.ahead (h : Held tip a r k) : Ahead tip a r k := by
  obtain ⟨pending, -, hpending, hrun⟩ := h
  exact ⟨pending, fun e he => (hpending e he).1, hrun⟩

theorem lookup_eq_none {V : Type} {t : Table ℕ V} (h : ∀ e ∈ t.entries, a < e.1) :
    t.lookup a = none := by
  cases hl : t.lookup a with
  | none => rfl
  | some v =>
    have := h _ (lookup_eq_some_iff.mp hl)
    exact absurd this (lt_irrefl _)

theorem mem_entries_insert {V : Type} {t : Table ℕ V} {v : V} {e : Sigma fun _ : ℕ => V}
    (he : e ∈ (t.insert s v).entries) : e = ⟨s, v⟩ ∨ e ∈ t.entries := by
  rw [entries_insert, mem_cons] at he
  exact he.imp_right fun h => (kerase_sublist s t.entries).subset h

theorem Clean.first (h : Clean tip a r) (ha : a ≤ tip) (htip : tip < heightBound)
    (hr : r + 1 ≤ u64Max) : Held tip a r 0 := by
  have hfill := Runs.fill h (Nat.zero_lt_succ 2) ha htip
  rw [satAdd64_eq hr] at hfill
  exact ⟨∅, rfl, nofun, hfill⟩

theorem Held.more (h : Held tip a r k) (htip : tip < heightBound)
    (hnext : a + defaultMaxBlocks * (k + 1) ≤ tip) (hr : r + (k + 1) + 1 ≤ u64Max) :
    Held tip a r (k + 1) := by
  obtain ⟨pending, hsize, hpending, hrun⟩ := h
  have hlt : a < a + defaultMaxBlocks * (k + 1) := by
    rw [defaultMaxBlocks]
    omega
  have hstart : a + defaultMaxBlocks * (k + 1) + defaultMaxBlocks
      = a + defaultMaxBlocks * (k + 1 + 1) := by ring
  have hfill := hrun.fill (size_insert_le.trans_lt (by decide)) hnext htip
  rw [satAdd64_eq hr, hstart] at hfill
  have hfresh : r + (k + 1) ∉ (∅ : Table ℕ (ℕ × ℕ)).insert r (a, defaultMaxBlocks) := by
    rw [mem_insert]
    rintro (heq | hmem)
    · omega
    · exact absurd hmem (notMem_empty _)
  have hbuffer := hfill.buffer (r + (k + 1)) ⟨_, hnext.trans_lt htip⟩ htip (by omega) (by omega)
    hlt (lookup_insert _) (lookup_eq_none fun e he => (hpending e he).1)
  rw [erase_insert hfresh] at hbuffer
  have hnew : a + defaultMaxBlocks * (k + 1) ∉ pending := by
    intro hmem
    obtain ⟨item, hitem⟩ := Option.isSome_iff_exists.mp (lookup_isSome.mpr hmem)
    exact lt_irrefl _ (hpending _ (lookup_eq_some_iff.mp hitem)).2
  have hgrow : defaultMaxBlocks * (k + 1) < defaultMaxBlocks * (k + 1 + 1) := by
    rw [defaultMaxBlocks]
    omega
  refine ⟨_, ?_, ?_, hbuffer⟩
  · rw [size_insert hnew, hsize]
  · intro e he
    rcases mem_entries_insert he with rfl | he
    · exact ⟨hlt, Nat.add_lt_add_left hgrow a⟩
    · have := hpending e he
      omega

/-- The request for height `a` is answered last, with one block: the buffer is dropped. -/
theorem Ahead.back (h : Ahead tip a r k) (htip : tip < heightBound) (ha : a ≠ 0)
    (hlt : a < tip) (hr0 : r ≠ 0) (hr : r ≤ u64Max) : Clean tip (a + 1) (r + (k + 1)) := by
  obtain ⟨pending, hpending, hrun⟩ := h
  exact hrun.short r htip hr0 hr ha hlt (lookup_insert _)
    (erase_insert (notMem_empty r)) hpending

theorem Clean.held (h : Clean tip a r) (htip : tip < heightBound) (hlt : a < tip) :
    ∀ k, a + defaultMaxBlocks * k ≤ tip → r + (k + 1) ≤ u64Max → Held tip a r k
  | 0, _, hr => h.first hlt.le htip hr
  | k + 1, hk, hr => by
    have hless : defaultMaxBlocks * k ≤ defaultMaxBlocks * (k + 1) :=
      Nat.mul_le_mul_left _ k.le_succ
    exact (h.held htip hlt k (by omega) (by omega)).more htip hk (by omega)

/-- A round that answers `k` later requests first. -/
theorem Clean.round (h : Clean tip a r) (htip : tip < heightBound) (ha : a ≠ 0) (hr0 : r ≠ 0)
    (hlt : a < tip) (hk : a + defaultMaxBlocks * k ≤ tip) (hr : r + (k + 1) ≤ u64Max) :
    Clean tip (a + 1) (r + (k + 1)) :=
  (h.held htip hlt k hk hr).ahead.back htip ha hlt hr0 (by omega)

/-- Many rounds. -/
theorem Clean.rounds (h : Clean tip a r) (htip : tip < heightBound) (ha : a ≠ 0) (hr0 : r ≠ 0) :
    ∀ n, a + n + defaultMaxBlocks * k ≤ tip → r + n * (k + 1) ≤ u64Max →
      Clean tip (a + n) (r + n * (k + 1))
  | 0, _, _ => by
    rw [Nat.zero_mul]
    exact h
  | n + 1, htop, hr => by
    rw [Nat.add_mul, Nat.one_mul] at hr ⊢
    have hbefore := h.rounds htip ha hr0 n (by omega) (by omega)
    have hround : Clean tip (a + n + 1) (r + n * (k + 1) + (k + 1)) :=
      hbefore.round htip (by omega) (by omega) (by omega) (by omega) (by omega)
    rwa [Nat.add_assoc, Nat.add_assoc] at hround

/-! ## Out of ids -/

/-- A session whose ids have run out: the request for `s` has replaced those before it. -/
def Lost (tip a s : ℕ) : Prop :=
  Runs tip ⟨u64Max, s + defaultMaxBlocks, tip,
    (∅ : Table ℕ (ℕ × ℕ)).insert u64Max (s, defaultMaxBlocks), ∅, a⟩

theorem satAdd64_u64Max : satAdd64 u64Max 1 = u64Max := by decide

theorem Clean.lost (h : Clean tip a u64Max) (ha : a ≤ tip) (htip : tip < heightBound) :
    Lost tip a a := by
  have hfill := Runs.fill h (Nat.zero_lt_succ 2) ha htip
  rwa [satAdd64_u64Max] at hfill

theorem Lost.more (h : Lost tip a s) (hs : s + defaultMaxBlocks ≤ tip)
    (htip : tip < heightBound) : Lost tip a (s + defaultMaxBlocks) := by
  have hfill := Runs.fill h (size_insert_le.trans_lt (by decide)) hs htip
  rwa [satAdd64_u64Max, insert_insert] at hfill

theorem Lost.many (h : Lost tip a a) (htip : tip < heightBound) :
    ∀ n, a + n * defaultMaxBlocks ≤ tip → Lost tip a (a + n * defaultMaxBlocks) := by
  intro n hn
  induction n with
  | zero =>
    rw [Nat.zero_mul]
    exact h
  | succ n ih =>
    rw [Nat.add_mul, Nat.one_mul, ← Nat.add_assoc] at hn ⊢
    exact (ih (by omega)).more hn htip

theorem Lost.stranded (h : Lost tip a s) (htip : tip < heightBound) (ha : a < s) (hs : s ≤ tip)
    (hlast : tip < s + defaultMaxBlocks) :
    ∃ sess : SyncSession (Uint 1), Runs tip sess ∧ sess.inflight.size = 0 ∧
      sess.canFillWireWindow = false := by
  have hbuffer := Runs.buffer h u64Max ⟨s, hs.trans_lt htip⟩ htip (by decide) le_rfl ha
    (lookup_insert _) rfl
  rw [erase_insert (notMem_empty _)] at hbuffer
  refine ⟨_, hbuffer, rfl, decide_eq_false ?_⟩
  rintro ⟨-, hnext⟩
  exact absurd hnext (not_le.mpr hlast)

end

/-- The highest tip whose block has a height of five bytes. -/
def topHeight : ℕ := heightBound - 1

/-- **A session out of ids is stranded.** After `2 ^ 64 - 2` requests the next ones share an id:
one is answered, the others are forgotten, and the session has no request in flight and none to
issue. -/
theorem saturated_ids_strand_session :
    ∃ st : SyncState (Uint 1), SyncReachable sampleRegistry 1 topHeight st ∧
      st.phase = .running ∧ st.session.inflight.size = 0 ∧
      st.session.canFillWireWindow = false := by
  have htip : topHeight < heightBound := by decide
  have hstart : Clean topHeight 1 1 := ⟨_, .init (by decide) (by decide), rfl, rfl⟩
  -- `2 ^ 38 - 1` rounds of `2 ^ 26` requests, and one with two requests less
  have hmany := hstart.rounds (k := 2 ^ 26 - 1) htip (by decide) (by decide) (2 ^ 38 - 1)
    (by decide) (by decide)
  have hlast := hmany.round (k := 2 ^ 26 - 3) htip (by decide) (by decide) (by decide)
    (by decide) (by decide)
  have hclean : Clean topHeight (1 + 2 ^ 38) u64Max := hlast
  set n := (topHeight - (1 + 2 ^ 38)) / defaultMaxBlocks with hn
  obtain ⟨sess, ⟨st, hreach, hphase, rfl⟩, hempty, hroom⟩ :=
    ((hclean.lost (by decide) htip).many htip n (by decide)).stranded htip (by decide) (by decide)
      (by decide)
  exact ⟨st, hreach, hphase, hempty, hroom⟩

/-! ## The buffer

A refill looks at the requests in flight and not at the buffer, so how much is buffered is up to
the peer: it is bounded as far as the answers stay close to the requests that are still open. -/

/-- If the message answers a request, then one that starts less than `lead` ranges above every
request that is in flight. -/
def Within (lead : ℕ) (sess : SyncSession L) (body : List UInt8) : Prop :=
  ∀ hdr blocks limit, BlocksHeader.decode body = .ok (hdr, blocks) →
    sess.inflight.lookup hdr.requestId = some (hdr.startHeight, limit) →
    ∀ e ∈ sess.inflight.entries, hdr.startHeight < e.2.1 + defaultMaxBlocks * lead

/-- `SyncStep` with a peer that answers within `lead`. -/
inductive LedStep (reg : Registry L) (lead : ℕ) : SyncState L → SyncState L → Prop where
  | fill {st : SyncState L} (hlive : st.phase ≠ .failed)
      (hroom : st.session.canFillWireWindow = true) :
      LedStep reg lead st { st with session := st.session.fill, issued := st.issued + 1 }
  | respond {st : SyncState L} {body : List UInt8} {sess : SyncSession L}
      {ready : List (BlocksItem L)} {tip : ℕ} (hlive : st.phase ≠ .failed)
      (hhandled : st.session.handleBlocks reg body = .planned sess ready tip)
      (hled : Within lead st.session body) : LedStep reg lead st (st.planned sess ready tip)
  | stuck {st : SyncState L} {body : List UInt8} {sess : SyncSession L} {tip : ℕ}
      (hlive : st.phase ≠ .failed)
      (hhandled : st.session.handleBlocks reg body = .stuck sess tip)
      (hled : Within lead st.session body) :
      LedStep reg lead st { st with session := sess, advertised := st.advertised ++ [tip] }
  | pushFails {st : SyncState L} {body : List UInt8} {sess : SyncSession L}
      {ready : List (BlocksItem L)} {tip : ℕ} (n : ℕ) (hlive : st.phase ≠ .failed)
      (hhandled : st.session.handleBlocks reg body = .planned sess ready tip)
      (hled : Within lead st.session body) :
      LedStep reg lead st { (st.planned sess (ready.take n) tip) with phase := .failed }
  | stop {st : SyncState L} : LedStep reg lead st { st with phase := .failed }

/-- The states of a session whose peer answers within `lead`. -/
inductive LedReachable (reg : Registry L) (startHeight remoteTip lead : ℕ) :
    SyncState L → Prop where
  | init (hstart : startHeight ≠ 0) (htip : startHeight ≤ remoteTip) :
      LedReachable reg startHeight remoteTip lead (.init startHeight remoteTip)
  | step {st st' : SyncState L} (h : LedReachable reg startHeight remoteTip lead st)
      (hstep : LedStep reg lead st st') : LedReachable reg startHeight remoteTip lead st'

section

variable {reg : Registry L} {sess sess' : SyncSession L} {st st' : SyncState L}
  {startHeight remoteTip lead n : ℕ}

theorem LedStep.syncStep (h : LedStep reg lead st st') : SyncStep reg st st' := by
  cases h with
  | fill hlive hroom => exact .fill hlive hroom
  | respond hlive hhandled _ => exact .respond hlive hhandled
  | stuck hlive hhandled _ => exact .stuck hlive hhandled
  | pushFails n hlive hhandled _ => exact .pushFails n hlive hhandled
  | stop => exact .stop

theorem LedReachable.syncReachable (h : LedReachable reg startHeight remoteTip lead st) :
    SyncReachable reg startHeight remoteTip st := by
  induction h with
  | init hstart htip => exact .init hstart htip
  | step _ hstep ih => exact ih.step hstep.syncStep

theorem Tiled.size_eq (h : Tiled sess n) : sess.inflight.size + sess.pending.size = n := by
  have hlen := h.starts.length_eq
  rwa [SyncSession.starts, length_append, length_map, length_map, length_range,
    values, length_map, AList.keys, List.keys, length_map] at hlen

/-- A request that is open has the first tile open too: that one is never in the buffer. -/
theorem SyncSettled.first_inflight (h : SyncSettled sess) (hne : sess.inflight.entries ≠ []) :
    ∃ e ∈ sess.inflight.entries, e.2.1 = sess.nextApplyStart := by
  obtain ⟨n, htiled, -⟩ := h.tiled
  have hpos : 0 < n := by
    rw [← htiled.size_eq]
    exact Nat.add_pos_left (length_pos_iff.mpr hne) _
  have hfirst : sess.nextApplyStart ∈ sess.starts :=
    htiled.mem_starts.mpr ⟨0, hpos, by rw [tile, mul_zero, add_zero]⟩
  rcases mem_append.mp hfirst with hin | hpend
  · obtain ⟨p, hp, hstart⟩ := mem_map.mp hin
    obtain ⟨e, he, rfl⟩ := mem_map.mp hp
    exact ⟨e, he, hstart⟩
  · exact absurd hpend h.first

/-- The buffer starts less than `lead` ranges above the height the session waits for. -/
def Led (lead : ℕ) (sess : SyncSession L) : Prop :=
  ∀ a ∈ sess.pending, a < sess.nextApplyStart + defaultMaxBlocks * lead

theorem Tiled.pending_le (h : Tiled sess n) (hled : Led lead sess) : sess.pending.size ≤ lead := by
  have hmem : ∀ a ∈ sess.pending.keys, a ∈ (range lead).map sess.tile := by
    intro a ha
    obtain ⟨k, -, rfl⟩ := h.mem_starts.mp (mem_append_right _ ha)
    have hlt := hled _ ha
    rw [tile, Nat.add_lt_add_iff_left] at hlt
    exact mem_map.mpr ⟨k, mem_range.mpr (Nat.lt_of_mul_lt_mul_left hlt), rfl⟩
  have hlen := (subperm_of_subset sess.pending.keys_nodup hmem).length_le
  rwa [length_map, length_range, AList.keys, List.keys, length_map] at hlen

theorem drain_pending : ∀ (fuel : ℕ) {sess sess' : SyncSession L}
    {ready ready' : List (BlocksItem L)}, sess.drain fuel ready = .ok (sess', ready') →
    ∀ a ∈ sess'.pending, a ∈ sess.pending
  | 0, sess, sess', ready, ready', h, a, ha => by
    cases h
    exact ha
  | fuel + 1, sess, sess', ready, ready', h, a, ha => by
    rw [drain] at h
    cases hfirst : sess.pending.lookup sess.nextApplyStart with
    | none =>
      rw [hfirst] at h
      cases h
      exact ha
    | some item =>
      rw [hfirst] at h
      dsimp only at h
      split_ifs at h
      · cases h
        have hkept : a ∈ sess.pending.erase sess.nextApplyStart := by
          obtain ⟨e, he, rfl⟩ := mem_map.mp (mem_keys.mp ha)
          exact mem_keys.mpr (mem_map_of_mem (mem_of_mem_filter he))
        exact (mem_erase.mp hkept).2
      · exact (mem_erase.mp (drain_pending fuel h a ha)).2

/-- **A response within `lead` keeps the buffer within `lead`.** -/
theorem SyncSettled.led_planned {body : List UInt8} {ready : List (BlocksItem L)} {tip : ℕ}
    (h : SyncSettled sess) (hled : Led lead sess)
    (hhandled : sess.handleBlocks reg body = .planned sess' ready tip)
    (hwithin : Within lead sess body) (hle : sess.nextApplyStart ≤ sess'.nextApplyStart) :
    Led lead sess' := by
  rcases handleBlocks_cases reg sess body with hcase | ⟨e, hcase⟩ | ⟨item, hdecode, hanswer, hcase⟩
  · rw [hcase] at hhandled
    cases hhandled
  · rw [hcase] at hhandled
    cases hhandled
  · obtain ⟨-, limit, hlookup⟩ := hanswer
    have hitem := hwithin item.hdr item.blocks limit hdecode hlookup
    have hmem := lookup_eq_some_iff.mp hlookup
    obtain ⟨e, he, hstart⟩ := h.first_inflight (ne_nil_of_mem hmem)
    have hlt := hitem e he
    rw [hcase, accept] at hhandled
    cases hdrain : drain (sess.receive item).pending.size (sess.receive item) [] with
    | error left =>
      rw [hdrain] at hhandled
      cases hhandled
    | ok p =>
      rw [hdrain] at hhandled
      cases hhandled
      intro a ha
      rcases (mem_insert _).mp (drain_pending _ hdrain a ha) with rfl | ha
      · omega
      · have := hled a ha
        omega

/-- The bound, and what carries it along a run. -/
structure LedInv (lead : ℕ) (st : SyncState L) : Prop where
  size : st.session.inflight.size + st.session.pending.size ≤ syncWindow + lead
  led : st.phase ≠ .failed → Led lead st.session

/-- A live session whose buffer is within `lead` is bounded. -/
theorem Live.size_le (h : Live startHeight remoteTip st) (hstart : startHeight ≤ heightBound)
    (hwindow : st.session.inflight.size ≤ syncWindow) (hled : Led lead st.session) :
    st.session.inflight.size + st.session.pending.size ≤ syncWindow + lead := by
  rcases h.shape with ⟨-, ⟨-, hsettled⟩ | ⟨-, hdone⟩⟩ | hfar
  · obtain ⟨n, htiled, -⟩ := hsettled.tiled
    exact Nat.add_le_add hwindow (htiled.pending_le hled)
  · rw [hdone.inflight, hdone.pending]
    exact Nat.zero_le _
  · exact absurd hfar.far (not_lt.mpr hstart)

theorem Live.led_planned (h : Live startHeight remoteTip st) (hstart : startHeight ≤ heightBound)
    (hled : Led lead st.session) {body : List UInt8} {ready : List (BlocksItem L)} {tip : ℕ}
    (hhandled : st.session.handleBlocks reg body = .planned sess' ready tip)
    (hwithin : Within lead st.session body)
    (hle : st.session.nextApplyStart ≤ sess'.nextApplyStart) : Led lead sess' := by
  rcases h.shape with ⟨-, ⟨-, hsettled⟩ | ⟨-, hdone⟩⟩ | hfar
  · exact hsettled.led_planned hled hhandled hwithin hle
  · -- a session that is done has no request to answer
    rcases handleBlocks_cases reg st.session body with hcase | ⟨e, hcase⟩ | ⟨item, -, hanswer, -⟩
    · rw [hcase] at hhandled
      cases hhandled
    · rw [hcase] at hhandled
      cases hhandled
    · obtain ⟨-, limit, hlookup⟩ := hanswer
      rw [hdone.inflight] at hlookup
      cases hlookup
  · exact absurd hfar.far (not_lt.mpr hstart)

/-- **One step** keeps the bound. -/
theorem LedInv.step (h : LedInv lead st) (inv : SyncInv startHeight remoteTip st)
    (inv' : SyncInv startHeight remoteTip st') (hpos : 0 < startHeight)
    (hle : startHeight ≤ remoteTip) (hstart : startHeight ≤ heightBound)
    (hstep : LedStep reg lead st st') : LedInv lead st' := by
  cases hstep with
  | fill hlive hroom =>
    have hled : Led lead st.session.fill := h.led hlive
    exact ⟨(inv'.live hlive).size_le hstart inv'.window hled, fun _ => hled⟩
  | respond hlive hhandled hwithin =>
    obtain ⟨hr, hlive'⟩ := (inv.live hlive).planned hpos hle hhandled
    have hled := (inv.live hlive).led_planned hstart (h.led hlive) hhandled hwithin hr.le
    exact ⟨hlive'.size_le hstart inv'.window hled, fun _ => hled⟩
  | stuck hlive hhandled _ => exact absurd hhandled ((inv.live hlive).not_stuck hpos hle)
  | pushFails n hlive hhandled hwithin =>
    obtain ⟨hr, hlive'⟩ := (inv.live hlive).planned hpos hle hhandled
    have hled := (inv.live hlive).led_planned hstart (h.led hlive) hhandled hwithin hr.le
    exact ⟨hlive'.size_le hstart inv'.window hled, fun hne => absurd rfl hne⟩
  | stop => exact ⟨h.size, fun hne => absurd rfl hne⟩

/-- **A run** keeps the bound. -/
theorem ledInv_of_reachable (h : LedReachable reg startHeight remoteTip lead st)
    (hissued : st.issued ≤ u64Max) (hstart : startHeight ≤ heightBound) : LedInv lead st := by
  induction h with
  | init _ _ => exact ⟨Nat.zero_le _, fun _ a ha => absurd ha (notMem_empty a)⟩
  | step hrun hstep ih =>
    have hbefore := hstep.syncStep.issued_le.trans hissued
    obtain ⟨hpos, hle, inv⟩ := syncInv_of_reachable hrun.syncReachable hbefore
    obtain ⟨-, -, inv'⟩ := syncInv_of_reachable (hrun.step hstep).syncReachable hissued
    exact (ih hbefore).step inv inv' hpos hle hstart hstep

/-- A session that holds at most `bound` entries is answered within `bound`. -/
theorem Tiled.within (h : Tiled sess n) {bound : ℕ}
    (hbound : sess.inflight.size + sess.pending.size ≤ bound) (body : List UInt8) :
    Within bound sess body := by
  intro hdr blocks limit _ hlookup e he
  have hstarts : ∀ e ∈ sess.inflight.entries, ∃ k < n, sess.tile k = e.2.1 := by
    intro e he
    refine h.mem_starts.mp (mem_append_left _ (mem_map.mpr ⟨e.2, ?_, rfl⟩))
    exact mem_map.mpr ⟨e, he, rfl⟩
  obtain ⟨k, hk, htile⟩ := hstarts _ (lookup_eq_some_iff.mp hlookup)
  obtain ⟨j, -, hopen⟩ := hstarts e he
  rw [h.size_eq] at hbound
  simp only [tile, defaultMaxBlocks] at htile hopen ⊢
  omega

end

/-- **The buffer is bounded by the lead of the peer's answers.** In every state of a session whose
peer answers only requests that start less than `lead` ranges above every open one, the requests
in flight and the buffered responses are at most the window and `lead`. The condition is needed:
what answers a running session that holds at most `bound` entries is within `bound`. -/
theorem sync_buffer_bounded_of_led {reg : Registry L} (startHeight remoteTip : ℕ)
    (hstart : startHeight ≤ heightBound) :
    (∀ (lead : ℕ) (st : SyncState L), LedReachable reg startHeight remoteTip lead st →
      st.issued ≤ u64Max →
        st.session.inflight.size + st.session.pending.size ≤ syncWindow + lead) ∧
    ∀ (bound : ℕ) (st : SyncState L), SyncReachable reg startHeight remoteTip st →
      st.issued ≤ u64Max → st.phase = .running →
      st.session.inflight.size + st.session.pending.size ≤ bound →
        ∀ body, Within bound st.session body := by
  refine ⟨fun lead st h hissued => (ledInv_of_reachable h hissued hstart).size, ?_⟩
  intro bound st h hissued hrun hbound body
  obtain ⟨-, -, hinv⟩ := syncInv_of_reachable h hissued
  have hlive := hinv.live (by rw [hrun]; nofun)
  rcases hlive.shape with ⟨-, ⟨-, hsettled⟩ | ⟨hfin, -⟩⟩ | hfar
  · obtain ⟨n, htiled, -⟩ := hsettled.tiled
    exact htiled.within hbound body
  · rw [hrun] at hfin
    cases hfin
  · exact absurd hfar.far (not_lt.mpr hstart)

/-- The second of two requests is answered first: within two ranges, and one response is buffered.
-/
theorem sync_buffer_bounded_of_led_sample :
    LedReachable sampleRegistry 1 20000 2 secondAnswered ∧ 1 ≤ heightBound ∧
      secondAnswered.issued ≤ u64Max ∧ secondAnswered.session.pending.size = 1 ∧
      secondAnswered.session.inflight.size + secondAnswered.session.pending.size ≤
        syncWindow + 2 ∧
      ∀ body, Within 2 secondAnswered.session body := by
  have hwithin : Within 2 twoRequests.session (oneBody 20000 2 ⟨10001, by decide⟩) :=
    (sync_buffer_bounded_of_led 1 20000 (by decide)).2 2 twoRequests twoRequests_reachable
      (by decide) rfl (by decide) _
  have hled : LedReachable sampleRegistry 1 20000 2 secondAnswered :=
    .step (.step (.step (.init (by decide) (by decide)) (.fill nofun (by decide)))
      (.fill nofun (by decide))) (.respond nofun handleBlocks_second hwithin)
  obtain ⟨hbounded, hneeded⟩ :=
    @sync_buffer_bounded_of_led (Uint 1) sampleRegistry 1 20000 (by decide)
  exact ⟨hled, by decide, by decide, rfl, hbounded 2 _ hled (by decide),
    hneeded 2 _ hled.syncReachable (by decide) rfl (by decide)⟩

/-- A peer that leaves the first request open and answers the others with one block each has the
session buffer `2 ^ 26` responses. -/
theorem sync_buffer_grows :
    ∃ st : SyncState (Uint 1), SyncReachable sampleRegistry 1 topHeight st ∧
      st.phase = .running ∧ st.session.pending.size = 2 ^ 26 ∧ syncWindow = 3 := by
  have hstart : Clean topHeight 1 1 := ⟨_, .init (by decide) (by decide), rfl, rfl⟩
  obtain ⟨pending, hsize, -, st, hreach, hphase, hsess⟩ :=
    hstart.held (by decide) (by decide) (2 ^ 26) (by decide) (by decide)
  refine ⟨st, hreach, hphase, ?_, rfl⟩
  rw [hsess]
  exact hsize

end Hacash
