import Hacash.Node.SyncIds

/-!
# Splitting a batch into block frames (`chain::sync`)

A batch of blocks is one byte blob, cut at given offsets or by asking for the size of one block
after the other. **Key results**: `frames_partition` and `block_stream_splits`.
-/

namespace Hacash

open List

/-- The length of a slice and an offset in it are `usize`, of 64 bits. -/
def usizeAdd (a b : ℕ) : ℕ := (a + b) % 2 ^ 64

/-! ## Frames that cut a blob into pieces -/

/-- Frames `(offset, length)`, none of them empty, that follow each other from `off` to the
end. -/
def Tiles (size : ℕ) : (off : ℕ) → List (ℕ × ℕ) → Prop
  | off, [] => off = size
  | off, f :: fs => f.1 = off ∧ 0 < f.2 ∧ Tiles size (off + f.2) fs

/-- The bytes of a frame. -/
def framePiece (blob : List UInt8) (f : ℕ × ℕ) : List UInt8 := (blob.drop f.1).take f.2

namespace Tiles

variable {size off : ℕ} {fs : List (ℕ × ℕ)} {f : ℕ × ℕ} {blob : List UInt8}

theorem le (h : Tiles size off fs) : off ≤ size := by
  induction fs generalizing off with
  | nil => exact Nat.le_of_eq h
  | cons f fs ih => exact Nat.le_trans (Nat.le_add_right _ _) (ih h.2.2)

theorem concat (h : Tiles blob.length off fs) : fs.flatMap (framePiece blob) = blob.drop off := by
  induction fs generalizing off with
  | nil => exact (drop_eq_nil_of_le (Nat.le_of_eq h.symm)).symm
  | cons f fs ih =>
    obtain ⟨rfl, -, hrest⟩ := h
    rw [flatMap_cons, ih hrest, framePiece, ← drop_drop, take_append_drop]

theorem mem (h : Tiles size off fs) (hf : f ∈ fs) : 0 < f.2 ∧ f.1 + f.2 ≤ size := by
  induction fs generalizing off with
  | nil => cases hf
  | cons g fs ih =>
    obtain ⟨rfl, hpos, hrest⟩ := h
    rcases mem_cons.mp hf with rfl | hf
    · exact ⟨hpos, hrest.le⟩
    · exact ih hrest hf

theorem framePiece_ne_nil (h : Tiles blob.length off fs) (hf : f ∈ fs) :
    framePiece blob f ≠ [] := by
  obtain ⟨hpos, hle⟩ := h.mem hf
  have hlen : (framePiece blob f).length = f.2 := by
    rw [framePiece, length_take_of_le]
    rw [length_drop]
    omega
  intro hnil
  rw [hnil] at hlen
  exact absurd hlen (Nat.ne_of_lt hpos)

theorem start (h : Tiles size off fs) : off = size ∨ ∃ g ∈ fs, g.1 = off := by
  cases fs with
  | nil => exact .inl h
  | cons g fs => exact .inr ⟨g, mem_cons_self, h.1⟩

theorem next (h : Tiles size off fs) (hf : f ∈ fs) :
    f.1 + f.2 = size ∨ ∃ g ∈ fs, g.1 = f.1 + f.2 := by
  induction fs generalizing off with
  | nil => cases hf
  | cons g fs ih =>
    obtain ⟨rfl, -, hrest⟩ := h
    rcases mem_cons.mp hf with rfl | hf
    · exact hrest.start.imp_right fun ⟨g, hg, hstart⟩ => ⟨g, mem_cons_of_mem _ hg, hstart⟩
    · exact (ih hrest hf).imp_right fun ⟨g, hg, hstart⟩ => ⟨g, mem_cons_of_mem _ hg, hstart⟩

end Tiles

/-! ## Offsets given by the producer -/

/-- The loop of `validated_frames` over the offsets from `index` on. -/
def validatedLoop (size : ℕ) : (index : ℕ) → List ℕ → Ret (List (ℕ × ℕ))
  | _, [] => .ok []
  | index, off :: rest => do
    let stop := rest.head?.getD size
    ensure (¬ ((index = 0 ∧ off ≠ 0) ∨ stop ≤ off ∨ stop > size))
      (.fault "validated block batch has invalid frame range for bytes")
    let frames ← validatedLoop size (index + 1) rest
    return (off, stop - off) :: frames

/-- `validated_frames`: `none` when the batch has no offsets. -/
def validatedFrames {L : Type} (batch : BlockBatch L) :
    Ret (Option (List (ℕ × ℕ))) :=
  if batch.blockCount = 0 ∨ batch.blockOffsets = [] then .ok none
  else do
    ensure (batch.blockOffsets.length = batch.blockCount)
      (.fault "validated block batch declares blocks but has offsets")
    ensure (¬ (batch.decodedBlocks ≠ [] ∧ batch.decodedBlocks.length ≠ batch.blockCount))
      (.fault "validated block batch declares blocks but has decoded blocks")
    let frames ← validatedLoop batch.bytes.length 0 batch.blockOffsets
    return some frames

theorem validatedLoop_iff {size index start : ℕ} {offsets : List ℕ} {frames : List (ℕ × ℕ)}
    (hstart : offsets.head?.getD size = start) (hzero : index = 0 → offsets ≠ []) :
    validatedLoop size index offsets = .ok frames ↔
      (index = 0 → start = 0) ∧ frames.map Prod.fst = offsets ∧ Tiles size start frames := by
  induction offsets generalizing index start frames with
  | nil =>
    have hindex : index ≠ 0 := fun h => hzero h rfl
    constructor
    · intro h
      cases h
      exact ⟨fun h => absurd h hindex, rfl, hstart.symm⟩
    · rintro ⟨-, hmap, -⟩
      rw [map_eq_nil_iff.mp hmap]
      rfl
  | cons off rest ih =>
    obtain rfl : off = start := hstart
    rw [validatedLoop, ensure_bind_iff]
    constructor
    · rintro ⟨hok, h⟩
      obtain ⟨frames', hrest, h⟩ := bind_eq_ok h
      cases h
      obtain ⟨-, hmap, htiles⟩ := (ih rfl (fun h => absurd h (Nat.succ_ne_zero _))).mp hrest
      refine ⟨fun hindex => by omega, congrArg _ hmap, rfl, by omega, ?_⟩
      rwa [Nat.add_sub_cancel' (by omega)]
    · rintro ⟨hindex, hmap, htiles⟩
      obtain ⟨f, frames', rfl, hfst, hmap⟩ := map_eq_cons_iff.mp hmap
      obtain ⟨-, hpos, htiles⟩ := htiles
      -- the next offset is the end of this frame
      have hnext : rest.head?.getD size = off + f.2 := by
        cases frames' with
        | nil =>
          rw [← hmap]
          exact htiles.symm
        | cons g frames' =>
          rw [← hmap]
          exact htiles.1
      have hle := htiles.le
      have hrest : validatedLoop size (index + 1) rest = .ok frames' :=
        (ih hnext (fun h => absurd h (Nat.succ_ne_zero _))).mpr
          ⟨fun h => absurd h (Nat.succ_ne_zero _), hmap, htiles⟩
      refine ⟨by omega, ?_⟩
      rw [hrest, hnext, Nat.add_sub_cancel_left, ← hfst]
      rfl

theorem validatedFrames_iff {L : Type} {batch : BlockBatch L} {frames : List (ℕ × ℕ)} :
    validatedFrames batch = .ok (some frames) ↔
      batch.blockOffsets ≠ [] ∧ batch.blockOffsets.length = batch.blockCount ∧
        (batch.decodedBlocks = [] ∨ batch.decodedBlocks.length = batch.blockCount) ∧
        frames.map Prod.fst = batch.blockOffsets ∧ Tiles batch.bytes.length 0 frames := by
  rw [validatedFrames]
  by_cases hraw : batch.blockCount = 0 ∨ batch.blockOffsets = []
  · rw [if_pos hraw]
    constructor
    · nofun
    · rintro ⟨hne, hlen, -⟩
      rcases hraw with hcount | hnil
      · exact absurd (eq_nil_of_length_eq_zero (hlen.trans hcount)) hne
      · exact absurd hnil hne
  · have hne : batch.blockOffsets ≠ [] := fun h => hraw (.inr h)
    have hdecoded : ¬ (batch.decodedBlocks ≠ [] ∧ batch.decodedBlocks.length ≠ batch.blockCount)
        ↔ batch.decodedBlocks = [] ∨ batch.decodedBlocks.length = batch.blockCount := by
      tauto
    rw [if_neg hraw, ensure_bind_iff, ensure_bind_iff, hdecoded]
    have hloop := @validatedLoop_iff batch.bytes.length 0 _ batch.blockOffsets frames rfl
      fun _ => hne
    constructor
    · rintro ⟨hlen, hdec, h⟩
      obtain ⟨frames', hframes, h⟩ := bind_eq_ok h
      cases h
      obtain ⟨hzero, hmap, htiles⟩ := hloop.mp hframes
      rw [hzero rfl] at htiles
      exact ⟨hne, hlen, hdec, hmap, htiles⟩
    · rintro ⟨-, hlen, hdec, hmap, htiles⟩
      -- the first of the offsets is that of the first frame
      have hzero : batch.blockOffsets.head?.getD batch.bytes.length = 0 := by
        rw [← hmap]
        cases frames with
        | nil => exact htiles.symm
        | cons f frames => exact htiles.1
      rw [hloop.mpr ⟨fun _ => hzero, hmap, hzero.symm ▸ htiles⟩]
      exact ⟨hlen, hdec, rfl⟩

/-! ## Sizes asked of the registry -/

section

-- `peek_block_size` of the registry, and the blob
variable (peek : List UInt8 → Ret ℕ) (blob : List UInt8)

/-- The loop of `peek_frames` with at most `fuel` turns. The addition in its test wraps. -/
def peekLoop : (fuel : ℕ) → (off : ℕ) → (frames : List (ℕ × ℕ)) →
    Option (Ret (List (ℕ × ℕ)))
  | 0, _, _ => none
  | fuel + 1, off, frames =>
    if off < blob.length then
      match peek (blob.drop off) with
      | .ok used =>
        if used = 0 ∨ usizeAdd off used > blob.length then
          some (errf "incomplete block frame at offset")
        else peekLoop fuel (usizeAdd off used) (frames ++ [(off, used)])
      | .error e => some (.error e)
    else some (.ok frames)

def peekFrames (fuel : ℕ) : Option (Ret (List (ℕ × ℕ))) := peekLoop peek blob fuel 0 []

/-- The offsets at which the sizer is asked. -/
inductive Reached : ℕ → Prop
  | zero : Reached 0
  | next {off used : ℕ} (h : Reached off) (hlt : off < blob.length)
      (hpeek : peek (blob.drop off) = .ok used) : Reached (off + used)

/-- No answer of the sizer overflows the offset it is asked at. -/
def NoOverflow : Prop :=
  ∀ off < blob.length, Reached peek blob off → ∀ used, peek (blob.drop off) = .ok used →
    off + used < 2 ^ 64

variable {peek blob}

theorem peekLoop_terminates (hadd : NoOverflow peek blob) {off fuel : ℕ}
    (hreach : Reached peek blob off) (hfuel : blob.length < off + fuel) (hoff : off ≤ blob.length)
    (frames : List (ℕ × ℕ)) :
    ∃ r, peekLoop peek blob fuel off frames = some r := by
  induction fuel generalizing off frames with
  | zero => omega
  | succ fuel ih =>
    rw [peekLoop]
    by_cases hlt : off < blob.length
    · rw [if_pos hlt]
      cases hpeek : peek (blob.drop off) with
      | error e => exact ⟨_, rfl⟩
      | ok used =>
        have hsum : usizeAdd off used = off + used :=
          Nat.mod_eq_of_lt (hadd off hlt hreach used hpeek)
        simp only [hsum]
        by_cases hbad : used = 0 ∨ off + used > blob.length
        · exact ⟨_, if_pos hbad⟩
        · rw [if_neg hbad]
          exact ih (hreach.next hlt hpeek) (by omega) (by omega) _
    · exact ⟨_, if_neg hlt⟩

theorem peekLoop_mono {fuel fuel' off : ℕ} {frames : List (ℕ × ℕ)} {r : Ret (List (ℕ × ℕ))}
    (hle : fuel ≤ fuel') (h : peekLoop peek blob fuel off frames = some r) :
    peekLoop peek blob fuel' off frames = some r := by
  induction fuel generalizing fuel' off frames with
  | zero => cases h
  | succ fuel ih =>
    obtain ⟨fuel', rfl⟩ : ∃ n, fuel' = n + 1 := ⟨fuel' - 1, by omega⟩
    rw [peekLoop] at h ⊢
    by_cases hlt : off < blob.length
    · rw [if_pos hlt] at h ⊢
      cases hpeek : peek (blob.drop off) with
      | error e =>
        rw [hpeek] at h
        exact h
      | ok used =>
        rw [hpeek] at h
        dsimp only at h ⊢
        by_cases hbad : used = 0 ∨ usizeAdd off used > blob.length
        · rw [if_pos hbad] at h ⊢
          exact h
        · rw [if_neg hbad] at h ⊢
          exact ih (Nat.le_of_succ_le_succ hle) h
    · rw [if_neg hlt] at h ⊢
      exact h

theorem peekLoop_ok (hadd : NoOverflow peek blob) {off fuel : ℕ}
    (hreach : Reached peek blob off) (hoff : off ≤ blob.length) {frames all : List (ℕ × ℕ)}
    (h : peekLoop peek blob fuel off frames = some (.ok all)) :
    ∃ fs, all = frames ++ fs ∧ Tiles blob.length off fs ∧
      ∀ f ∈ fs, peek (blob.drop f.1) = .ok f.2 := by
  induction fuel generalizing off frames with
  | zero => cases h
  | succ fuel ih =>
    rw [peekLoop] at h
    by_cases hlt : off < blob.length
    · rw [if_pos hlt] at h
      cases hpeek : peek (blob.drop off) with
      | error e =>
        rw [hpeek] at h
        cases h
      | ok used =>
        have hsum : usizeAdd off used = off + used :=
          Nat.mod_eq_of_lt (hadd off hlt hreach used hpeek)
        simp only [hpeek, hsum] at h
        by_cases hbad : used = 0 ∨ off + used > blob.length
        · rw [if_pos hbad] at h
          cases h
        · rw [if_neg hbad] at h
          obtain ⟨fs, rfl, htiles, hsizes⟩ := ih (hreach.next hlt hpeek) (by omega) h
          refine ⟨(off, used) :: fs, by simp, ⟨rfl, by omega, htiles⟩, ?_⟩
          exact forall_mem_cons.mpr ⟨hpeek, hsizes⟩
    · rw [if_neg hlt] at h
      cases h
      exact ⟨[], by simp, by unfold Tiles; omega, nofun⟩

theorem Reached.mem {off : ℕ} {fs : List (ℕ × ℕ)} (h : Reached peek blob off)
    (htiles : Tiles blob.length 0 fs) (hsizes : ∀ f ∈ fs, peek (blob.drop f.1) = .ok f.2) :
    off = blob.length ∨ ∃ f ∈ fs, f.1 = off := by
  induction h with
  | zero => exact htiles.start
  | @next off used h hlt hpeek ih =>
    obtain ⟨f, hf, rfl⟩ := ih.resolve_left (Nat.ne_of_lt hlt)
    obtain rfl : f.2 = used := Except.ok.inj ((hsizes f hf).symm.trans hpeek)
    exact htiles.next hf

/-- The frames of a batch as `feed_batches` takes them. -/
def batchFrames {L : Type} (peek : List UInt8 → Ret ℕ) (batch : BlockBatch L)
    (fuel : ℕ) : Option (Ret (List (ℕ × ℕ))) :=
  match validatedFrames batch with
  | .ok (some frames) => some (.ok frames)
  | .ok none => peekFrames peek batch.bytes fuel
  | .error e => some (.error e)

/-- A sizer that claims one byte of two, and 2^64 - 1 bytes of one. -/
def wrappingSizer (bytes : List UInt8) : Ret ℕ :=
  .ok (if bytes.length = 1 then 2 ^ 64 - 1 else 1)

/-- **A size that wraps the offset is not refused**: the loop starts again at the first byte, for
ever. -/
theorem frames_wrap_loops : ¬ ∃ fuel r, peekFrames wrappingSizer [0, 0] fuel = some r := by
  have hloop : ∀ fuel frames, peekLoop wrappingSizer [0, 0] fuel 0 frames = none ∧
      peekLoop wrappingSizer [0, 0] fuel 1 frames = none := by
    intro fuel
    induction fuel with
    | zero => exact fun _ => ⟨rfl, rfl⟩
    | succ fuel ih => exact fun frames => ⟨(ih _).2, (ih _).1⟩
  rintro ⟨fuel, r, hr⟩
  rw [peekFrames, (hloop fuel []).1] at hr
  cases hr

/-- **Frame splitting is a partition.** `validated_frames` returns frames exactly when they cut the
blob into non-empty pieces. `peek_frames` ends; its frames have the sizes claimed and cut the
blob, and a frame that is empty, too long or cannot be sized makes it fail. What the feeder goes
on with is non-empty pieces whose concatenation is the blob. -/
theorem frames_partition {L : Type} (peek : List UInt8 → Ret ℕ) (batch : BlockBatch L)
    (hadd : NoOverflow peek batch.bytes) :
    (∀ frames, validatedFrames batch = .ok (some frames) ↔
      batch.blockOffsets ≠ [] ∧ batch.blockOffsets.length = batch.blockCount ∧
        (batch.decodedBlocks = [] ∨ batch.decodedBlocks.length = batch.blockCount) ∧
        frames.map Prod.fst = batch.blockOffsets ∧ Tiles batch.bytes.length 0 frames) ∧
    (∃ r, ∀ fuel > batch.bytes.length, peekFrames peek batch.bytes fuel = some r) ∧
    (∀ fuel frames, peekFrames peek batch.bytes fuel = some (.ok frames) →
      Tiles batch.bytes.length 0 frames ∧
        ∀ f ∈ frames, peek (batch.bytes.drop f.1) = .ok f.2) ∧
    (∀ off < batch.bytes.length, Reached peek batch.bytes off →
      (∀ used, peek (batch.bytes.drop off) = .ok used →
        used = 0 ∨ batch.bytes.length < off + used) →
      ∀ fuel > batch.bytes.length, ∃ e, peekFrames peek batch.bytes fuel = some (.error e)) ∧
    (∀ fuel frames, batchFrames peek batch fuel = some (.ok frames) →
      (∀ f ∈ frames, framePiece batch.bytes f ≠ []) ∧
        frames.flatMap (framePiece batch.bytes) = batch.bytes) := by
  have hok : ∀ fuel frames, peekFrames peek batch.bytes fuel = some (.ok frames) →
      Tiles batch.bytes.length 0 frames ∧
        ∀ f ∈ frames, peek (batch.bytes.drop f.1) = .ok f.2 := by
    intro fuel frames h
    obtain ⟨fs, rfl, hfs⟩ := peekLoop_ok hadd .zero (Nat.zero_le _) h
    exact hfs
  refine ⟨fun _ => validatedFrames_iff, ?_, hok, ?_, ?_⟩
  · have hlen : batch.bytes.length < 0 + (batch.bytes.length + 1) := by omega
    obtain ⟨r, hr⟩ := peekLoop_terminates hadd .zero hlen (Nat.zero_le _) []
    exact ⟨r, fun fuel hfuel => peekLoop_mono hfuel hr⟩
  · intro off hlt hreached hbad fuel hfuel
    have hlen : batch.bytes.length < 0 + fuel := by omega
    obtain ⟨r, hr⟩ := peekLoop_terminates hadd .zero hlen (Nat.zero_le _) []
    cases r with
    | error e => exact ⟨e, hr⟩
    | ok frames =>
      exfalso
      obtain ⟨htiles, hsizes⟩ := hok fuel frames hr
      obtain ⟨f, hf, rfl⟩ := (hreached.mem htiles hsizes).resolve_left (Nat.ne_of_lt hlt)
      have hin := htiles.mem hf
      have := hbad f.2 (hsizes f hf)
      omega
  · intro fuel frames h
    have htiles : Tiles batch.bytes.length 0 frames := by
      rw [batchFrames] at h
      cases hvalid : validatedFrames batch with
      | error e =>
        rw [hvalid] at h
        cases h
      | ok valid =>
        rw [hvalid] at h
        cases valid with
        | none => exact (hok fuel frames h).1
        | some frames' =>
          cases h
          exact (validatedFrames_iff.mp hvalid).2.2.2.2
    exact ⟨fun f hf => htiles.framePiece_ne_nil hf, htiles.concat⟩

/-- Two blocks of one and two bytes, sized by their first byte. -/
def twoBlocks : BlockBatch Unit := ⟨[1, 2, 0], 0, 0, [], []⟩

def firstByteSizer (bytes : List UInt8) : Ret ℕ := .ok (bytes.headD 0).toNat

theorem frames_partition_sample :
    NoOverflow firstByteSizer twoBlocks.bytes ∧
      batchFrames firstByteSizer twoBlocks 4 = some (.ok [(0, 1), (1, 2)]) ∧
      [(0, 1), (1, 2)].flatMap (framePiece twoBlocks.bytes) = twoBlocks.bytes := by
  have hadd : NoOverflow firstByteSizer twoBlocks.bytes := by
    intro off hoff _ used h
    cases h
    have hbyte := (twoBlocks.bytes.drop off).headD 0 |>.toNat_lt
    have hlen : twoBlocks.bytes.length = 3 := rfl
    omega
  have hframes : batchFrames firstByteSizer twoBlocks 4 = some (.ok [(0, 1), (1, 2)]) := by
    decide +kernel
  exact ⟨hadd, hframes, ((frames_partition firstByteSizer twoBlocks hadd).2.2.2.2 4 _ hframes).2⟩

/-- Pieces whose sizes the sizer knows, whatever follows, are the frames of their concatenation. -/
theorem peekLoop_flatten {pieces : List (List UInt8)} (pre : List UInt8)
    (hlen : (pre ++ pieces.flatten).length < 2 ^ 64)
    (hpeek : ∀ p ∈ pieces, p ≠ [] ∧ ∀ rest, peek (p ++ rest) = .ok p.length)
    (frames : List (ℕ × ℕ)) :
    ∃ fs, peekLoop peek (pre ++ pieces.flatten) (pieces.length + 1) pre.length frames
        = some (.ok (frames ++ fs)) ∧ fs.map (framePiece (pre ++ pieces.flatten)) = pieces := by
  induction pieces generalizing pre frames with
  | nil => exact ⟨[], by simp [peekLoop], rfl⟩
  | cons p pieces ih =>
    obtain ⟨⟨hne, hp⟩, hpieces⟩ := forall_mem_cons.mp hpeek
    have hpos := length_pos_of_ne_nil hne
    rw [flatten_cons, ← append_assoc] at hlen ⊢
    obtain ⟨fs, hrest, hmap⟩ := ih (pre ++ p) hlen hpieces (frames ++ [(pre.length, p.length)])
    have hdrop : (pre ++ p ++ pieces.flatten).drop pre.length = p ++ pieces.flatten := by
      rw [append_assoc, drop_left]
    refine ⟨(pre.length, p.length) :: fs, ?_, ?_⟩
    · rw [length_cons, peekLoop, hdrop, hp]
      simp only [length_append] at hlen hrest ⊢
      rw [if_pos (by omega), usizeAdd, Nat.mod_eq_of_lt (by omega), if_neg (by omega), hrest,
        append_assoc, singleton_append]
    · rw [map_cons, hmap, framePiece, hdrop, take_left]

/-- `peek_block_size`. -/
def peekBlockSize {L : Type} (reg : Registry L) (buf : List UInt8) : Ret ℕ :=
  (BlockV1.createStdBlock reg buf).map Prod.snd

/-- **A stream of blocks is split into its blocks**, whatever their number and sizes. -/
theorem block_stream_splits {L : Type} {reg : Registry L} {wf : L → Prop} (hreg : reg.Lawful wf)
    (blks : List (BlockV1 L)) (hvalid : ∀ blk ∈ blks, blk.Valid wf)
    (hlen : (blks.flatMap (BlockV1.encode reg)).length < 2 ^ 64) :
    ∃ frames, (∀ fuel > blks.length, peekFrames (peekBlockSize reg)
        (blks.flatMap (BlockV1.encode reg)) fuel = some (.ok frames)) ∧
      frames.map (framePiece (blks.flatMap (BlockV1.encode reg)))
        = blks.map (BlockV1.encode reg) := by
  have hpeek : ∀ p ∈ blks.map (BlockV1.encode reg),
      p ≠ [] ∧ ∀ rest, peekBlockSize reg (p ++ rest) = .ok p.length := by
    intro p hp
    obtain ⟨blk, hblk, rfl⟩ := mem_map.mp hp
    refine ⟨fun h => ?_, fun rest => ?_⟩
    · have hsize := congrArg length h
      rw [← (hvalid blk hblk).size_eq hreg, BlockV1.size, BlockV1.introSize] at hsize
      simp at hsize
    · rw [peekBlockSize, (BlockV1.codes hreg).accepts blk (hvalid blk hblk)]
      rfl
  rw [flatMap_def] at hlen ⊢
  obtain ⟨fs, hok, hmap⟩ := peekLoop_flatten [] hlen hpeek []
  exact ⟨fs, fun fuel hfuel => peekLoop_mono (by simpa using hfuel) hok, hmap⟩

theorem block_stream_splits_empty :
    ∃ frames, peekFrames (peekBlockSize sampleRegistry) (emptyBytes 0 ++ emptyBytes 0) 3
        = some (.ok frames) ∧
      frames.map (framePiece (emptyBytes 0 ++ emptyBytes 0)) = [emptyBytes 0, emptyBytes 0] := by
  have hlen : (emptyBytes 0 ++ (emptyBytes 0 ++ [])).length < 2 ^ 64 := by
    simp [emptyBytes_length]
  obtain ⟨frames, hok, hmap⟩ := block_stream_splits sampleRegistry_lawful
    [emptyBlock 0, emptyBlock 0] (by simp [emptyBlock_valid]) hlen
  exact ⟨frames, hok 3 (by decide), hmap⟩

end

end Hacash
