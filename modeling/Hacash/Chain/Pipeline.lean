import Hacash.Chain.Ring
import Mathlib.Order.Interval.Finset.Nat

/-!
# The decode pipeline (`chain/src/sync.rs`)

Feeder, decoders and applier interleave freely, and any of them may stop the ring. **Key result**:
`ordered_delivery`. Sequence numbers do not wrap.
-/

namespace Hacash

open Lib List Function Hacash.Ring Option

/-- `Job`: the bytes of a block, with its place in the feed. -/
structure Job (Payload : Type) where
  seq : ℕ
  payload : Payload

/-- Where a decoder thread is in `decode_loop`. -/
inductive Decoder (Payload : Type) where
  /-- Before `reserve`. -/
  | idle
  /-- Before `recv`, with a reservation. -/
  | reserved
  /-- Decoding, before `publish_reserved`. -/
  | holding (job : Job Payload)
  /-- Past the loop. -/
  | done

namespace Decoder

variable {Payload : Type}

/-- A reservation that no job uses yet. -/
def waiting : Decoder Payload → ℕ
  | reserved => 1
  | _ => 0

theorem eq_reserved_of_waiting {d : Decoder Payload} (h : d.waiting ≠ 0) : d = reserved := by
  cases d with
  | reserved => rfl
  | idle | holding job | done => exact absurd rfl h

/-- Steps a decoder can make before it needs another job. -/
def steps : Decoder Payload → ℕ
  | idle => 2
  | reserved => 1
  | holding _ => 3
  | done => 0

end Decoder

open Decoder

/-- The pipeline. The fields of the second group record what happened; no step reads
them. -/
structure Pipeline (capacity workers : ℕ+) (Payload Slot : Type) where
  ring : Ring capacity Slot
  /-- The feeder has not returned yet. -/
  feeding : Bool
  /-- `seq` of `feed_batches`. -/
  feedSeq : ℕ
  channel : List (Job Payload)
  decoders : Fin workers → Decoder Payload
  /-- `seq` of `apply_loop`. -/
  seq : ℕ
  /-- The applier has not returned yet. -/
  applying : Bool
  /-- Every block sent, in feed order. -/
  fed : List Payload
  /-- The number of jobs received by decoders. -/
  taken : ℕ
  /-- Sequence numbers whose publication was refused. -/
  dropped : Finset ℕ
  /-- What was published for which sequence number. -/
  published : List (ℕ × Slot)
  /-- What the applier has taken. -/
  received : List Slot

namespace Pipeline

variable {capacity workers : ℕ+} {Payload Slot : Type} (decode : Payload → Slot)

/-- The pipeline before any step. -/
def init (capacity workers : ℕ+) (Payload Slot : Type) :
    Pipeline capacity workers Payload Slot where
  ring := .new capacity Slot
  feeding := true
  feedSeq := 0
  channel := []
  decoders := fun _ => .idle
  seq := 0
  applying := true
  fed := []
  taken := 0
  dropped := ∅
  published := []
  received := []

/-- The decoder `i` goes to `d`. -/
def setDecoder (s : Pipeline capacity workers Payload Slot) (i : Fin workers)
    (d : Decoder Payload) : Pipeline capacity workers Payload Slot :=
  { s with decoders := update s.decoders i d }

/-- After `publish_reserved` of the decoder `i`. -/
def publish (s : Pipeline capacity workers Payload Slot) (i : Fin workers)
    (job : Job Payload) : Pipeline capacity workers Payload Slot :=
  match s.ring.publishReserved job.seq (decode job.payload) with
  | (true, ring) =>
    { s.setDecoder i .idle with
      ring
      published := s.published ++ [(job.seq, decode job.payload)] }
  | (false, ring) =>
    { s.setDecoder i .done with ring, dropped := insert job.seq s.dropped }

end Pipeline

variable {capacity workers : ℕ+} {Payload Slot : Type} (decode : Payload → Slot)

/-- The steps of the three kinds of threads. The channel has room for `capacity` jobs. -/
inductive WorkStep : Pipeline capacity workers Payload Slot →
    Pipeline capacity workers Payload Slot → Prop
  | send {s : Pipeline capacity workers Payload Slot} (p : Payload)
      (feeding : s.feeding = true) (room : s.channel.length < capacity) :
      WorkStep s { s with
        channel := s.channel ++ [⟨s.feedSeq, p⟩], feedSeq := s.feedSeq + 1
        fed := s.fed ++ [p] }
  /-- Every exit of the feeder closes the ring. -/
  | close {s : Pipeline capacity workers Payload Slot} (feeding : s.feeding = true) :
      WorkStep s { s with ring := s.ring.close s.feedSeq, feeding := false }
  | reserve {s : Pipeline capacity workers Payload Slot} {ok : Bool}
      {ring : Ring capacity Slot} (i : Fin workers) (idle : s.decoders i = .idle)
      (h : s.ring.reserve = some (ok, ring)) :
      WorkStep s { s.setDecoder i (if ok then .reserved else .done) with ring }
  | recv {s : Pipeline capacity workers Payload Slot} {job : Job Payload}
      {rest : List (Job Payload)} (i : Fin workers) (reserved : s.decoders i = .reserved)
      (next : s.channel = job :: rest) :
      WorkStep s { s.setDecoder i (.holding job) with channel := rest, taken := s.taken + 1 }
  /-- The feeder has dropped its end of the channel, and nothing is left in it. -/
  | hangup {s : Pipeline capacity workers Payload Slot} (i : Fin workers)
      (reserved : s.decoders i = .reserved)
      (empty : s.channel = []) (closed : s.feeding = false) :
      WorkStep s { s.setDecoder i .done with ring := s.ring.release }
  | publish {s : Pipeline capacity workers Payload Slot} {job : Job Payload}
      (i : Fin workers) (holding : s.decoders i = .holding job) :
      WorkStep s (s.publish decode i job)
  | take {s : Pipeline capacity workers Payload Slot} {slot : Slot}
      {ring : Ring capacity Slot} (applying : s.applying = true)
      (h : s.ring.take s.seq = some (some slot, ring)) :
      WorkStep s { s with ring, seq := s.seq + 1, received := s.received ++ [slot] }
  | finish {s : Pipeline capacity workers Payload Slot} {ring : Ring capacity Slot}
      (applying : s.applying = true)
      (h : s.ring.take s.seq = some (none, ring)) :
      WorkStep s { s with ring, applying := false }

/-- Work, or a stop: by the applier when it returns an error, by another thread at any time. -/
inductive PipeStep : Pipeline capacity workers Payload Slot →
    Pipeline capacity workers Payload Slot → Prop
  | work {s s' : Pipeline capacity workers Payload Slot} (h : WorkStep decode s s') : PipeStep s s'
  | stop {s : Pipeline capacity workers Payload Slot} : PipeStep s { s with ring := s.ring.stop }
  | quit {s : Pipeline capacity workers Payload Slot} :
      PipeStep s { s with ring := s.ring.stop, applying := false }

/-- A state some interleaving reaches. -/
def PipeReachable (s : Pipeline capacity workers Payload Slot) : Prop :=
  Relation.ReflTransGen (PipeStep decode) (.init capacity workers Payload Slot) s

/-! ## Where every sequence number is -/

/-- The invariant of the pipeline. -/
structure PipeInv (s : Pipeline capacity workers Payload Slot) : Prop where
  feedSeq : s.feedSeq = s.fed.length
  taken_le : s.taken ≤ s.fed.length
  seq_le : s.seq ≤ s.taken
  /-- The channel holds the jobs no decoder has taken yet, in order. -/
  channel : s.channel = (s.fed.mapIdx Job.mk).drop s.taken
  next : s.ring.next = s.seq
  closed : s.ring.closedAt = if s.feeding then none else some s.feedSeq
  held : ∀ {i job}, s.decoders i = .holding job →
    s.seq ≤ job.seq ∧ job.seq < s.taken ∧ s.fed[job.seq]? = some job.payload
  heldOnce : ∀ {i j job job'}, s.decoders i = .holding job → s.decoders j = .holding job' →
    job.seq = job'.seq → i = j
  /-- A decoder publishes its job only once, and a refused job is gone. -/
  heldFresh : ∀ {i job}, s.decoders i = .holding job →
    (∀ v, (job.seq, v) ∉ s.published) ∧ job.seq ∉ s.dropped
  slot : ∀ {k v}, s.ring.items k = some v →
    ∃ q, s.seq ≤ q ∧ q < s.taken ∧ slotOf capacity q = k ∧ (q, v) ∈ s.published
  dropped : ∀ {q}, q ∈ s.dropped → s.seq ≤ q ∧ q < s.taken
  droppedFresh : ∀ {q v}, q ∈ s.dropped → (q, v) ∉ s.published
  published : ∀ {q v}, (q, v) ∈ s.published →
    q < s.taken ∧ (s.fed[q]?).map decode = some v
  publishedOnce : (s.published.map Prod.fst).Nodup
  /-- Nothing between the applier and the last job taken is lost. -/
  cover : ∀ {q}, s.seq ≤ q → q < s.taken →
    (∃ i job, s.decoders i = .holding job ∧ job.seq = q) ∨ q ∈ s.dropped ∨
      ∃ v, (q, v) ∈ s.published ∧ s.ring.items (slotOf capacity q) = some v
  running : s.ring.stopped = false → s.dropped = ∅
  count : s.ring.inFlight + s.dropped.card =
    ∑ i, (s.decoders i).waiting + (s.taken - s.seq)
  room : ∑ i, (s.decoders i).waiting + (s.taken - s.seq) ≤ capacity
  received : s.received = (s.fed.take s.seq).map decode
  receivedPublished : ∀ {k v}, s.received[k]? = some v → (k, v) ∈ s.published
  /-- A decoder leaves its loop on a stop, or when the feed has ended. -/
  done : ∀ {i}, s.decoders i = .done →
    s.ring.stopped = true ∨ (s.feeding = false ∧ s.channel = [])
  finished : s.applying = false →
    s.ring.stopped = true ∨ (s.feeding = false ∧ s.seq = s.feedSeq)

variable {decode} {s s' : Pipeline capacity workers Payload Slot} {i j : Fin workers}
  {job : Job Payload} {q : ℕ}

theorem update_holding_iff {d : Fin workers → Decoder Payload} {x : Decoder Payload}
    (hd : ∀ job, d i ≠ .holding job) (hx : ∀ job, x ≠ .holding job) :
    update d i x j = .holding job ↔ d j = .holding job := by
  by_cases hj : j = i
  · subst hj
    rw [update_self]
    exact ⟨fun h => absurd h (hx job), fun h => absurd h (hd job)⟩
  · rw [update_of_ne hj]

namespace PipeInv

theorem of_init : PipeInv decode (.init capacity workers Payload Slot) where
  feedSeq := rfl
  taken_le := le_rfl
  seq_le := le_rfl
  channel := rfl
  next := rfl
  closed := rfl
  held h := by cases h
  heldOnce h := by cases h
  heldFresh h := by cases h
  slot h := by cases h
  dropped h := absurd h (Finset.notMem_empty _)
  droppedFresh h := absurd h (Finset.notMem_empty _)
  published h := by cases h
  publishedOnce := nodup_nil
  cover h h' := absurd h' (Nat.not_lt_zero _)
  running _ := rfl
  count := by simp [Pipeline.init, new, waiting]
  room := by simp [Pipeline.init, waiting]
  received := rfl
  receivedPublished h := by cases h
  done h := by cases h
  finished h := by cases h

variable (inv : PipeInv decode s)
include inv

theorem taken_le_window : s.taken ≤ s.seq + capacity := by
  have := inv.room
  have := inv.seq_le
  omega

/-- Dropped sequence numbers lie in the window. -/
theorem card_dropped_le : s.dropped.card ≤ s.taken - s.seq := by
  have hsub : s.dropped ⊆ Finset.Ico s.seq s.taken :=
    fun q hq => Finset.mem_Ico.mpr (inv.dropped hq)
  simpa using Finset.card_le_card hsub

theorem inFlight_pos (hlo : s.seq ≤ q) (hhi : q < s.taken) (hq : q ∉ s.dropped) :
    s.dropped.card < s.taken - s.seq ∧ 0 < s.ring.inFlight := by
  have hsub : insert q s.dropped ⊆ Finset.Ico s.seq s.taken := by
    intro x hx
    rcases Finset.mem_insert.mp hx with rfl | hx
    · exact Finset.mem_Ico.mpr ⟨hlo, hhi⟩
    · exact Finset.mem_Ico.mpr (inv.dropped hx)
  have hcard := Finset.card_le_card hsub
  rw [Finset.card_insert_of_notMem hq, Nat.card_Ico] at hcard
  have := inv.count
  omega

theorem inFlight_pos_of_reserved (hi : s.decoders i = .reserved) : 0 < s.ring.inFlight := by
  have hle := Finset.single_le_sum (f := fun i => (s.decoders i).waiting)
    (fun _ _ => Nat.zero_le _) (Finset.mem_univ i)
  simp only [hi, waiting] at hle
  have h1 := inv.count
  have h2 := inv.card_dropped_le
  simp only [waiting] at h1
  omega

/-! ### Steps -/

theorem send (p : Payload) (hf : s.feeding = true) : PipeInv decode { s with
    channel := s.channel ++ [⟨s.feedSeq, p⟩], feedSeq := s.feedSeq + 1
    fed := s.fed ++ [p] } := by
  have hget : ∀ {q}, q < s.taken → (s.fed ++ [p])[q]? = s.fed[q]? := fun hq =>
    List.getElem?_append_left (hq.trans_le inv.taken_le)
  refine { inv with
    feedSeq := ?_, taken_le := ?_, channel := ?_, closed := ?_, held := ?_, published := ?_
    received := ?_, done := ?_, finished := ?_ }
  · simp [inv.feedSeq]
  · simpa using Nat.le_succ_of_le inv.taken_le
  · show s.channel ++ _ = ((s.fed ++ [p]).mapIdx Job.mk).drop s.taken
    rw [mapIdx_concat, drop_append_of_le_length (by simpa using inv.taken_le),
      ← inv.channel, inv.feedSeq]
  · simpa [hf] using inv.closed
  · intro i job hi
    obtain ⟨hlo, hhi, hfed⟩ := inv.held hi
    exact ⟨hlo, hhi, (hget hhi).trans hfed⟩
  · intro q v hq
    obtain ⟨hhi, hv⟩ := inv.published hq
    exact ⟨hhi, by rw [hget hhi, hv]⟩
  · rw [inv.received, take_append_of_le_length (inv.seq_le.trans inv.taken_le)]
  · exact fun hi => .inl ((inv.done hi).resolve_right fun h => by simp [hf] at h)
  · exact fun ha => .inl ((inv.finished ha).resolve_right fun h => by simp [hf] at h)

theorem close (hf : s.feeding = true) :
    PipeInv decode { s with ring := s.ring.close s.feedSeq, feeding := false } := by
  refine { inv with closed := rfl, done := ?_, finished := ?_ }
  · exact fun hi => .inl ((inv.done hi).resolve_right fun h => by simp [hf] at h)
  · exact fun ha => .inl ((inv.finished ha).resolve_right fun h => by simp [hf] at h)

variable {ring : Ring capacity Slot}

theorem setDecoder {x : Decoder Payload}
    (hd : ∀ job, s.decoders i ≠ .holding job) (hx : ∀ job, x ≠ .holding job)
    (hring : ring = { s.ring with inFlight := ring.inFlight })
    (hcount : ring.inFlight + (s.decoders i).waiting = s.ring.inFlight + x.waiting)
    (hroom : x.waiting ≤ (s.decoders i).waiting ∨
      (s.ring.stopped = false ∧ s.ring.inFlight < capacity ∧ x.waiting ≤ 1))
    (hdone : x = .done → s.ring.stopped = true ∨ (s.feeding = false ∧ s.channel = [])) :
    PipeInv decode { s.setDecoder i x with ring } := by
  have hsum := sum_update waiting s.decoders i x
  have hiff : ∀ {j job}, update s.decoders i x j = .holding job ↔
      s.decoders j = .holding job := update_holding_iff hd hx
  have hitems : ring.items = s.ring.items := by rw [hring]
  have hstop : ring.stopped = s.ring.stopped := by rw [hring]
  have h1 := inv.count
  have h2 := inv.room
  refine { inv with
    next := ?_, closed := ?_, held := fun h => inv.held (hiff.mp h)
    heldOnce := fun h h' => inv.heldOnce (hiff.mp h) (hiff.mp h')
    heldFresh := fun h => inv.heldFresh (hiff.mp h), slot := ?_, cover := ?_, running := ?_
    count := ?_, room := ?_, done := ?_, finished := ?_ }
  · rw [hring]
    exact inv.next
  · rw [hring]
    exact inv.closed
  · intro k v hk
    exact inv.slot (hitems ▸ hk)
  · intro q hlo hhi
    rcases inv.cover hlo hhi with ⟨j, job, hj, rfl⟩ | hq
    · exact .inl ⟨j, job, hiff.mpr hj, rfl⟩
    · exact .inr (hitems.symm ▸ hq)
  · exact fun h => inv.running (hstop ▸ h)
  · show ring.inFlight + s.dropped.card =
      ∑ j, (update s.decoders i x j).waiting + (s.taken - s.seq)
    omega
  · show ∑ j, (update s.decoders i x j).waiting + (s.taken - s.seq) ≤ capacity
    rcases hroom with hle | ⟨hrun, hlt, hone⟩
    · omega
    · have hzero : s.dropped.card = 0 := by rw [inv.running hrun, Finset.card_empty]
      omega
  · intro j hj
    rw [hstop]
    by_cases hji : j = i
    · subst hji
      exact hdone (by simpa [Pipeline.setDecoder] using hj)
    · refine inv.done (i := j) ?_
      simpa [Pipeline.setDecoder, update_of_ne hji] using hj
  · rw [hstop]
    exact inv.finished

theorem reserve {ok : Bool} {ring : Ring capacity Slot} (hi : s.decoders i = .idle)
    (h : s.ring.reserve = some (ok, ring)) :
    PipeInv decode { s.setDecoder i (if ok then .reserved else .done) with ring } := by
  have hd : ∀ job, s.decoders i ≠ .holding job := by simp [hi]
  rcases reserve_cases h with ⟨rfl, hrun, hlt, rfl⟩ | ⟨rfl, hstop, rfl⟩
  · refine inv.setDecoder hd (by simp) rfl ?_ (.inr ⟨hrun, hlt, le_rfl⟩) (by simp)
    simp [hi, waiting]
  · refine inv.setDecoder hd (by simp) rfl ?_ (.inl ?_) fun _ => .inl hstop
    · simp [hi, waiting]
    · simp [waiting]

theorem hangup (hi : s.decoders i = .reserved) (hempty : s.channel = [])
    (hclosed : s.feeding = false) :
    PipeInv decode { s.setDecoder i .done with ring := s.ring.release } := by
  have hpos := inv.inFlight_pos_of_reserved hi
  refine inv.setDecoder (by simp [hi]) (by simp) rfl ?_ (.inl ?_)
    fun _ => .inr ⟨hclosed, hempty⟩
  · simp only [hi, waiting, release]
    omega
  · simp [waiting]

theorem channel_head {rest : List (Job Payload)} (h : s.channel = job :: rest) :
    job.seq = s.taken ∧ s.fed[s.taken]? = some job.payload ∧
      rest = (s.fed.mapIdx Job.mk).drop (s.taken + 1) := by
  have hdrop := inv.channel
  rw [h] at hdrop
  have hhead : (s.fed.mapIdx Job.mk)[s.taken]? = some job := by
    rw [← List.head?_drop, ← hdrop, List.head?_cons]
  rw [List.getElem?_mapIdx, map_eq_some_iff] at hhead
  obtain ⟨p, hp, rfl⟩ := hhead
  refine ⟨rfl, hp, ?_⟩
  rw [← tail_drop, ← hdrop, tail_cons]

theorem recv {rest : List (Job Payload)} (hi : s.decoders i = .reserved)
    (h : s.channel = job :: rest) : PipeInv decode
      { s.setDecoder i (.holding job) with channel := rest, taken := s.taken + 1 } := by
  obtain ⟨hseq, hfed, hrest⟩ := inv.channel_head h
  have hlt : s.taken < s.fed.length := (List.getElem?_eq_some_iff.mp hfed).1
  have hsum := sum_update waiting s.decoders i (.holding job)
  have hupd : ∀ {j job'}, update s.decoders i (.holding job) j = .holding job' →
      (j = i ∧ job' = job) ∨ (j ≠ i ∧ s.decoders j = .holding job') := by
    intro j job' hj
    by_cases hji : j = i
    · subst hji
      rw [update_self] at hj
      cases hj
      exact .inl ⟨rfl, rfl⟩
    · rw [update_of_ne hji] at hj
      exact .inr ⟨hji, hj⟩
  have h1 := inv.count
  have h2 := inv.room
  have h3 := inv.seq_le
  rw [hi] at hsum
  simp only [waiting] at hsum
  refine { inv with
    taken_le := hlt, seq_le := Nat.le_succ_of_le inv.seq_le, channel := hrest, held := ?_
    heldOnce := ?_, heldFresh := ?_, slot := ?_, dropped := ?_, published := ?_, cover := ?_
    count := ?_, room := ?_, done := ?_ }
  · intro j job' hj
    rcases hupd hj with ⟨-, rfl⟩ | ⟨-, hj⟩
    · exact ⟨hseq ▸ inv.seq_le, by simp [hseq], hseq ▸ hfed⟩
    · obtain ⟨hlo, hhi, hp⟩ := inv.held hj
      exact ⟨hlo, Nat.lt_succ_of_lt hhi, hp⟩
  · -- the job just taken is younger than every job held before
    intro j k job₁ job₂ hj hk heq
    rcases hupd hj with ⟨rfl, rfl⟩ | ⟨-, hj'⟩ <;>
      rcases hupd hk with ⟨rfl, rfl⟩ | ⟨-, hk'⟩
    · rfl
    · have := (inv.held hk').2.1
      omega
    · have := (inv.held hj').2.1
      omega
    · exact inv.heldOnce hj' hk' heq
  · intro j job' hj
    rcases hupd hj with ⟨-, rfl⟩ | ⟨-, hj⟩
    · refine ⟨fun v hv => ?_, fun hq => ?_⟩
      · have := (inv.published hv).1
        omega
      · have := (inv.dropped hq).2
        omega
    · exact inv.heldFresh hj
  · intro k v hk
    obtain ⟨q, hlo, hhi, hslot, hpub⟩ := inv.slot hk
    exact ⟨q, hlo, Nat.lt_succ_of_lt hhi, hslot, hpub⟩
  · intro q hq
    obtain ⟨hlo, hhi⟩ := inv.dropped hq
    exact ⟨hlo, Nat.lt_succ_of_lt hhi⟩
  · intro q v hq
    obtain ⟨hhi, hv⟩ := inv.published hq
    exact ⟨Nat.lt_succ_of_lt hhi, hv⟩
  · intro q hlo hhi
    rcases Nat.lt_succ_iff_lt_or_eq.mp hhi with hhi | rfl
    · rcases inv.cover hlo hhi with ⟨j, job', hj, rfl⟩ | hq
      · refine .inl ⟨j, job', ?_, rfl⟩
        have hji : j ≠ i := by
          rintro rfl
          rw [hi] at hj
          cases hj
        simpa [Pipeline.setDecoder, update_of_ne hji] using hj
      · exact .inr hq
    · exact .inl ⟨i, job, by simp [Pipeline.setDecoder], hseq⟩
  · show s.ring.inFlight + s.dropped.card =
      ∑ j, (update s.decoders i (.holding job) j).waiting + (s.taken + 1 - s.seq)
    simp only [waiting] at h1 h2 ⊢
    omega
  · show ∑ j, (update s.decoders i (.holding job) j).waiting +
      (s.taken + 1 - s.seq) ≤ capacity
    simp only [waiting] at h1 h2 ⊢
    omega
  · intro j hj
    have hji : j ≠ i := by
      rintro rfl
      simp [Pipeline.setDecoder] at hj
    have hj' : s.decoders j = .done := by
      simpa [Pipeline.setDecoder, update_of_ne hji] using hj
    exact .inl ((inv.done hj').resolve_right fun hc => by simp [h] at hc)

/-- After the decoder `i` is done with its job, the others hold what they held. -/
theorem holding_of_update {x : Decoder Payload} (hx : ∀ job, x ≠ .holding job)
    (hi : s.decoders i = .holding job) {job' : Job Payload}
    (hj : update s.decoders i x j = .holding job') :
    j ≠ i ∧ s.decoders j = .holding job' ∧ job'.seq ≠ job.seq := by
  have hji : j ≠ i := by
    rintro rfl
    rw [update_self] at hj
    exact hx _ hj
  rw [update_of_ne hji] at hj
  exact ⟨hji, hj, fun heq => hji (inv.heldOnce hj hi heq)⟩

section

variable (hi : s.decoders i = .holding job)
include hi

theorem publish_running :
    PipeInv decode { s.setDecoder i .idle with
      ring := { s.ring with
        items := update s.ring.items (slotOf capacity job.seq)
          (some (decode job.payload)) }
      published := s.published ++ [(job.seq, decode job.payload)] } := by
  obtain ⟨hlo, hhi, hfed⟩ := inv.held hi
  obtain ⟨hfresh, hdrop⟩ := inv.heldFresh hi
  have hwin := inv.taken_le_window
  have hsum := sum_update waiting s.decoders i .idle
  rw [hi] at hsum
  have hupd : ∀ {j job'}, update s.decoders i .idle j = .holding job' →
      j ≠ i ∧ s.decoders j = .holding job' ∧ job'.seq ≠ job.seq :=
    fun hj => inv.holding_of_update (by simp) hi hj
  have hpub : ∀ {q v}, (q, v) ∈ s.published ++ [(job.seq, decode job.payload)] →
      (q, v) ∈ s.published ∨ (q = job.seq ∧ v = decode job.payload) := by
    intro q v h
    rcases mem_append.mp h with h | h
    · exact .inl h
    · rw [mem_singleton, Prod.mk.injEq] at h
      exact .inr h
  refine { inv with
    held := fun hj => inv.held (hupd hj).2.1
    heldOnce := fun hj hk => inv.heldOnce (hupd hj).2.1 (hupd hk).2.1
    heldFresh := ?_, slot := ?_, droppedFresh := ?_, published := ?_, publishedOnce := ?_
    cover := ?_, count := ?_, room := ?_, receivedPublished := ?_, done := ?_ }
  · intro j job' hj
    obtain ⟨-, hj, hne⟩ := hupd hj
    refine ⟨fun v hv => ?_, (inv.heldFresh hj).2⟩
    rcases hpub hv with hv | ⟨hq, -⟩
    · exact (inv.heldFresh hj).1 v hv
    · exact hne hq
  · intro k v hk
    change update s.ring.items (slotOf capacity job.seq) _ k = some v at hk
    by_cases hkj : k = slotOf capacity job.seq
    · subst hkj
      rw [update_self, some.injEq] at hk
      exact ⟨job.seq, hlo, hhi, rfl, by simp [hk]⟩
    · rw [update_of_ne hkj] at hk
      obtain ⟨q, hqlo, hqhi, hslot, hq⟩ := inv.slot hk
      exact ⟨q, hqlo, hqhi, hslot, mem_append_left _ hq⟩
  · intro q v hq hv
    rcases hpub hv with hv | ⟨rfl, -⟩
    · exact inv.droppedFresh hq hv
    · exact hdrop hq
  · intro q v hv
    rcases hpub hv with hv | ⟨rfl, rfl⟩
    · exact inv.published hv
    · refine ⟨hhi, ?_⟩
      show (s.fed[job.seq]?).map decode = _
      rw [hfed, map_some]
  · rw [map_append, nodup_append]
    refine ⟨inv.publishedOnce, nodup_singleton _, fun a ha b hb => ?_⟩
    obtain ⟨⟨q, v⟩, hq, rfl⟩ := mem_map.mp ha
    rintro rfl
    obtain rfl : q = job.seq := by simpa using hb
    exact hfresh v hq
  · intro q hqlo hqhi
    change s.seq ≤ q at hqlo
    change q < s.taken at hqhi
    by_cases hq : q = job.seq
    · subst hq
      exact .inr (.inr ⟨decode job.payload, by simp, by simp⟩)
    · have hslot : slotOf capacity q ≠ slotOf capacity job.seq := fun h =>
        hq (slotOf_injOn hqlo (by omega) hlo (by omega) h)
      rcases inv.cover hqlo hqhi with ⟨j, job', hj, rfl⟩ | hq' | ⟨v, hv, hit⟩
      · refine .inl ⟨j, job', ?_, rfl⟩
        have hji : j ≠ i := by
          rintro rfl
          rw [hi] at hj
          cases hj
          exact hq rfl
        simpa [Pipeline.setDecoder, update_of_ne hji] using hj
      · exact .inr (.inl hq')
      · refine .inr (.inr ⟨v, mem_append_left _ hv, ?_⟩)
        show update s.ring.items (slotOf capacity job.seq) _ (slotOf capacity q) = _
        rwa [update_of_ne hslot]
  · show s.ring.inFlight + s.dropped.card =
      ∑ j, (update s.decoders i .idle j).waiting + (s.taken - s.seq)
    have := inv.count
    simp only [waiting] at this hsum ⊢
    omega
  · show ∑ j, (update s.decoders i .idle j).waiting + (s.taken - s.seq) ≤ capacity
    have := inv.room
    simp only [waiting] at this hsum ⊢
    omega
  · exact fun h => mem_append_left _ (inv.receivedPublished h)
  · intro j hj
    have hji : j ≠ i := by
      rintro rfl
      simp [Pipeline.setDecoder] at hj
    refine inv.done (i := j) ?_
    simpa [Pipeline.setDecoder, update_of_ne hji] using hj

/-- A publication that a stopped ring refuses. -/
theorem publish_stopped (hstop : s.ring.stopped = true) :
    PipeInv decode { s.setDecoder i .done with
      ring := { s.ring with inFlight := s.ring.inFlight - 1 }
      dropped := insert job.seq s.dropped } := by
  obtain ⟨hlo, hhi, hfed⟩ := inv.held hi
  obtain ⟨hfresh, hdrop⟩ := inv.heldFresh hi
  have hpos := inv.inFlight_pos hlo hhi hdrop
  have hsum := sum_update waiting s.decoders i .done
  rw [hi] at hsum
  have hupd : ∀ {j job'}, update s.decoders i .done j = .holding job' →
      j ≠ i ∧ s.decoders j = .holding job' ∧ job'.seq ≠ job.seq :=
    fun hj => inv.holding_of_update (by simp) hi hj
  refine { inv with
    held := fun hj => inv.held (hupd hj).2.1
    heldOnce := fun hj hk => inv.heldOnce (hupd hj).2.1 (hupd hk).2.1
    heldFresh := ?_, dropped := ?_, droppedFresh := ?_, cover := ?_, running := ?_
    count := ?_, room := ?_, done := fun _ => .inl hstop }
  · intro j job' hj
    obtain ⟨-, hj, hne⟩ := hupd hj
    refine ⟨(inv.heldFresh hj).1, fun hq => ?_⟩
    rcases Finset.mem_insert.mp hq with hq | hq
    · exact hne hq
    · exact (inv.heldFresh hj).2 hq
  · intro q hq
    rcases Finset.mem_insert.mp hq with rfl | hq
    · exact ⟨hlo, hhi⟩
    · exact inv.dropped hq
  · intro q v hq hv
    rcases Finset.mem_insert.mp hq with rfl | hq
    · exact hfresh v hv
    · exact inv.droppedFresh hq hv
  · intro q hqlo hqhi
    rcases inv.cover hqlo hqhi with ⟨j, job', hj, rfl⟩ | hq | hq
    · by_cases hji : j = i
      · subst hji
        rw [hi] at hj
        cases hj
        exact .inr (.inl (Finset.mem_insert_self _ _))
      · refine .inl ⟨j, job', ?_, rfl⟩
        simpa [Pipeline.setDecoder, update_of_ne hji] using hj
    · exact .inr (.inl (Finset.mem_insert_of_mem hq))
    · exact .inr (.inr hq)
  · intro hrun
    have : s.ring.stopped = false := hrun
    simp [hstop] at this
  · show s.ring.inFlight - 1 + (insert job.seq s.dropped).card =
      ∑ j, (update s.decoders i .done j).waiting + (s.taken - s.seq)
    rw [Finset.card_insert_of_notMem hdrop]
    have := inv.count
    simp only [waiting] at this hsum ⊢
    omega
  · show ∑ j, (update s.decoders i .done j).waiting + (s.taken - s.seq) ≤ capacity
    have := inv.room
    simp only [waiting] at this hsum ⊢
    omega

theorem publish : PipeInv decode (s.publish decode i job) := by
  unfold Pipeline.publish publishReserved
  by_cases hstop : s.ring.stopped = true
  · rw [if_pos hstop]
    exact inv.publish_stopped hi hstop
  · rw [if_neg hstop]
    exact inv.publish_running hi

end

theorem slot_seq {slot : Slot} (h : s.ring.items (slotOf capacity s.seq) = some slot) :
    s.seq < s.taken ∧ (s.seq, slot) ∈ s.published := by
  obtain ⟨q, hlo, hhi, hq, hpub⟩ := inv.slot h
  have hwin := inv.taken_le_window
  obtain rfl : q = s.seq :=
    slotOf_injOn hlo (by omega) le_rfl (Nat.lt_add_of_pos_right capacity.pos) hq
  exact ⟨hhi, hpub⟩

theorem take {slot : Slot} (ha : s.applying = true)
    (h : s.ring.take s.seq = some (some slot, ring)) :
    PipeInv decode { s with ring, seq := s.seq + 1, received := s.received ++ [slot] } := by
  obtain ⟨hit, rfl⟩ := take_some h
  obtain ⟨hlt, hpub⟩ := inv.slot_seq hit
  obtain ⟨-, hval⟩ := inv.published hpub
  have hdrop : s.seq ∉ s.dropped := fun hq => inv.droppedFresh hq hpub
  have hpos := inv.inFlight_pos le_rfl hlt hdrop
  have hwin := inv.taken_le_window
  have hslot : ∀ {q}, s.seq < q → q < s.taken → slotOf capacity q ≠ slotOf capacity s.seq := by
    intro q hlo hhi hq
    have := slotOf_injOn hlo.le (by omega) le_rfl (Nat.lt_add_of_pos_right capacity.pos) hq
    omega
  -- the applier's own number has left the window
  have hup : ∀ {q}, s.seq ≤ q → q ≠ s.seq → s.seq + 1 ≤ q := fun h h' => by omega
  refine { inv with
    seq_le := hlt, next := rfl, held := ?_, slot := ?_, dropped := ?_, cover := ?_, count := ?_
    room := ?_, received := ?_, receivedPublished := ?_, finished := ?_ }
  · intro i job hi
    obtain ⟨hlo, hhi, hfed⟩ := inv.held hi
    refine ⟨hup hlo fun hq => (inv.heldFresh hi).1 slot ?_, hhi, hfed⟩
    rw [hq]
    exact hpub
  · intro k v hk
    change update s.ring.items (slotOf capacity s.seq) none k = some v at hk
    by_cases hks : k = slotOf capacity s.seq
    · rw [hks, update_self] at hk
      cases hk
    · rw [update_of_ne hks] at hk
      obtain ⟨q, hlo, hhi, hq, hqp⟩ := inv.slot hk
      exact ⟨q, hup hlo fun h => hks (h ▸ hq.symm), hhi, hq, hqp⟩
  · intro q hq
    obtain ⟨hlo, hhi⟩ := inv.dropped hq
    exact ⟨hup hlo fun h => hdrop (h ▸ hq), hhi⟩
  · intro q hlo hhi
    have hlo' : s.seq < q := hlo
    rcases inv.cover hlo'.le hhi with hq | hq | ⟨v, hv, hit'⟩
    · exact .inl hq
    · exact .inr (.inl hq)
    · refine .inr (.inr ⟨v, hv, ?_⟩)
      show update s.ring.items (slotOf capacity s.seq) none (slotOf capacity q) = _
      rwa [update_of_ne (hslot hlo' hhi)]
  · show s.ring.inFlight - 1 + s.dropped.card =
      ∑ i, (s.decoders i).waiting + (s.taken - (s.seq + 1))
    have := inv.count
    omega
  · show ∑ i, (s.decoders i).waiting + (s.taken - (s.seq + 1)) ≤ capacity
    have := inv.room
    omega
  · obtain ⟨p, hp, rfl⟩ := map_eq_some_iff.mp hval
    rw [inv.received, take_add_one, hp, toList_some, map_append]
    rfl
  · intro k v hk
    have hlen : s.received.length = s.seq := by
      rw [inv.received, length_map, length_take]
      have := inv.taken_le
      omega
    change (s.received ++ [slot])[k]? = some v at hk
    rcases lt_trichotomy k s.received.length with hlt | heq | hgt
    · rw [List.getElem?_append_left hlt] at hk
      exact inv.receivedPublished hk
    · subst heq
      rw [List.getElem?_concat_length, some.injEq] at hk
      rw [hlen, ← hk]
      exact hpub
    · rw [List.getElem?_eq_none (by simp; omega)] at hk
      cases hk
  · intro ha'
    have : s.applying = false := ha'
    simp [ha] at this

theorem finish (h : s.ring.take s.seq = some (none, ring)) :
    PipeInv decode { s with ring, applying := false } := by
  obtain ⟨rfl, hend⟩ := take_none h
  refine { inv with finished := fun _ => ?_ }
  rcases hend with hstop | ⟨total, htotal, hle⟩
  · exact .inl hstop
  · right
    have hclosed := inv.closed
    rw [htotal] at hclosed
    have h1 := inv.seq_le
    have h2 := inv.taken_le
    have h3 := inv.feedSeq
    cases hf : s.feeding with
    | true => simp [hf] at hclosed
    | false =>
      simp only [hf, Bool.false_eq_true, if_false, some.injEq] at hclosed
      refine ⟨rfl, ?_⟩
      show s.seq = s.feedSeq
      omega

theorem stop {applying : Bool} : PipeInv decode { s with ring := s.ring.stop, applying } :=
  { inv with
    running := fun h => by cases h
    done := fun _ => .inl rfl
    finished := fun _ => .inl rfl }

end PipeInv

theorem pipeInv_work (inv : PipeInv decode s) (hs : WorkStep decode s s') : PipeInv decode s' := by
  cases hs with
  | send p feeding _ => exact inv.send p feeding
  | close feeding => exact inv.close feeding
  | reserve i idle h => exact inv.reserve idle h
  | recv i reserved next => exact inv.recv reserved next
  | hangup i reserved empty closed => exact inv.hangup reserved empty closed
  | publish i holding => exact inv.publish holding
  | take applying h => exact inv.take applying h
  | finish _ h => exact inv.finish h

/-- **Every step keeps the invariant.** -/
theorem pipeInv_step (inv : PipeInv decode s) (hs : PipeStep decode s s') : PipeInv decode s' := by
  cases hs with
  | work h => exact pipeInv_work inv h
  | stop | quit => exact inv.stop

/-- **The invariant holds along every interleaving.** -/
theorem pipeInv_of_reachable (hs : PipeReachable decode s) : PipeInv decode s := by
  induction hs with
  | refl => exact .of_init
  | tail _ hstep ih => exact pipeInv_step ih hstep

/-! ## Delivery -/

namespace PipeInv

variable (inv : PipeInv decode s)
include inv

/-- The slot a decoder is going to fill is empty. -/
theorem items_holding (hi : s.decoders i = .holding job) :
    s.ring.items (slotOf capacity job.seq) = none := by
  obtain ⟨hlo, hhi, -⟩ := inv.held hi
  have hwin := inv.taken_le_window
  cases hit : s.ring.items (slotOf capacity job.seq) with
  | none => rfl
  | some v =>
    obtain ⟨q, hqlo, hqhi, hq, hpub⟩ := inv.slot hit
    obtain rfl : q = job.seq := slotOf_injOn hqlo (by omega) hlo (by omega) hq
    exact absurd hpub ((inv.heldFresh hi).1 v)

theorem seq_eq_feedSeq (htaken : s.seq = s.taken) (hempty : s.channel = []) :
    s.seq = s.feedSeq := by
  have hlen := congrArg List.length inv.channel
  rw [hempty, length_drop, length_mapIdx, length_nil] at hlen
  have h1 := inv.taken_le
  have h2 := inv.feedSeq
  omega

/-- **No deadlock**: as long as the applier waits on a closed, running ring, some thread
can make a step. -/
theorem progress (hrun : s.ring.stopped = false) (hclosed : s.feeding = false)
    (happ : s.applying = true) : ∃ s', WorkStep decode s s' := by
  by_cases hlt : s.seq < s.taken
  · -- the applier's block is on its way
    rcases inv.cover le_rfl hlt with ⟨i, job, hi, -⟩ | hdrop | ⟨v, -, hit⟩
    · exact ⟨_, .publish i hi⟩
    · simp [inv.running hrun] at hdrop
    · exact ⟨_, .take happ (take_of_some hit)⟩
  · have htaken : s.seq = s.taken := le_antisymm inv.seq_le (not_lt.mp hlt)
    cases hch : s.channel with
    | nil =>
      have hend := inv.closed
      rw [hclosed, if_neg Bool.false_ne_true] at hend
      have hnone : s.ring.items (slotOf capacity s.seq) = none := by
        cases hit : s.ring.items (slotOf capacity s.seq) with
        | none => rfl
        | some v => exact absurd (inv.slot_seq hit).1 hlt
      exact ⟨_, .finish happ
        (take_of_closed hnone hend (inv.seq_eq_feedSeq htaken hch).ge)⟩
    | cons job rest =>
      -- a job waits: any decoder can move towards it
      have i : Fin workers := ⟨0, workers.pos⟩
      cases hi : s.decoders i with
      | reserved => exact ⟨_, .recv i hi hch⟩
      | holding job' =>
        obtain ⟨hlo, hhi, -⟩ := inv.held hi
        omega
      | done =>
        rcases inv.done hi with h | ⟨-, h⟩
        · simp [hrun] at h
        · simp [hch] at h
      | idle =>
        by_cases hroom : s.ring.inFlight < capacity
        · exact ⟨_, .reserve i hi (reserve_of_lt hrun hroom)⟩
        · -- all the room is reserved by decoders that wait for this very job
          have hcount := inv.count
          rw [inv.running hrun, Finset.card_empty] at hcount
          have hpos := capacity.pos
          have hsum : ∑ j, (s.decoders j).waiting ≠ 0 := by omega
          obtain ⟨j, -, hj⟩ := Finset.exists_ne_zero_of_sum_ne_zero hsum
          exact ⟨_, .recv j (eq_reserved_of_waiting hj) hch⟩

end PipeInv

/-- The steps that are left once the feed has ended. -/
def Pipeline.work (s : Pipeline capacity workers Payload Slot) : ℕ :=
  4 * s.channel.length + ∑ i, (s.decoders i).steps + (s.taken - s.seq) +
    if s.applying then 1 else 0

theorem Pipeline.work_setDecoder {x : Decoder Payload} (h : x.steps < (s.decoders i).steps) :
    (s.setDecoder i x).work < s.work := by
  have hsum := sum_update steps s.decoders i x
  show 4 * s.channel.length + ∑ j, (update s.decoders i x j).steps +
      (s.taken - s.seq) + (if s.applying then 1 else 0) < 4 * s.channel.length +
      ∑ j, (s.decoders j).steps + (s.taken - s.seq) + (if s.applying then 1 else 0)
  omega

theorem PipeInv.work_lt (inv : PipeInv decode s) (hclosed : s.feeding = false)
    (hs : WorkStep decode s s') : s'.feeding = false ∧ s'.work < s.work := by
  cases hs with
  | send p feeding _ | close feeding => simp [hclosed] at feeding
  | @reserve ok ring i idle h =>
    refine ⟨hclosed, Pipeline.work_setDecoder (s := s) (i := i) ?_⟩
    rw [idle]
    cases ok <;> simp [steps]
  | @recv job rest i reserved next =>
    refine ⟨hclosed, ?_⟩
    -- a job leaves the channel: four steps less there, two more at the decoder, one more
    -- at the applier
    have hsum := sum_update Decoder.steps s.decoders i (.holding job)
    have hfrom : (Decoder.reserved : Decoder Payload).steps = 1 := rfl
    have hto : (Decoder.holding job).steps = 3 := rfl
    rw [reserved, hfrom, hto] at hsum
    have hle := inv.seq_le
    show 4 * rest.length + ∑ j, (update s.decoders i (.holding job) j).steps +
        (s.taken + 1 - s.seq) + (if s.applying then 1 else 0) < 4 * s.channel.length +
        ∑ j, (s.decoders j).steps + (s.taken - s.seq) + (if s.applying then 1 else 0)
    rw [next, length_cons]
    omega
  | @hangup i reserved empty closed =>
    refine ⟨hclosed, Pipeline.work_setDecoder (s := s) (i := i) ?_⟩
    rw [reserved]
    simp [steps]
  | @publish job i holding =>
    have hidle : (s.setDecoder i .idle).work < s.work :=
      Pipeline.work_setDecoder (by simp [holding, steps])
    have hdone : (s.setDecoder i .done).work < s.work :=
      Pipeline.work_setDecoder (by simp [holding, steps])
    unfold Pipeline.publish
    split
    · exact ⟨hclosed, hidle⟩
    · exact ⟨hclosed, hdone⟩
  | take applying h =>
    refine ⟨hclosed, ?_⟩
    have hlt := (inv.slot_seq (take_some h).1).1
    show 4 * s.channel.length + ∑ j, (s.decoders j).steps + (s.taken - (s.seq + 1)) +
      (if s.applying then 1 else 0) < 4 * s.channel.length + ∑ j, (s.decoders j).steps +
      (s.taken - s.seq) + (if s.applying then 1 else 0)
    omega
  | finish applying h =>
    refine ⟨hclosed, ?_⟩
    simp [Pipeline.work, applying]

/-- **Termination**: once the feed has ended, work comes to an end. -/
theorem PipeInv.no_infinite_work (inv : PipeInv decode s) (hclosed : s.feeding = false)
    (run : ℕ → Pipeline capacity workers Payload Slot) (hstart : run 0 = s) :
    ∃ k, ¬ WorkStep decode (run k) (run (k + 1)) := by
  by_contra hall
  push Not at hall
  have hdown : ∀ k, PipeInv decode (run k) ∧ (run k).feeding = false ∧
      (run k).work + k ≤ s.work := by
    intro k
    induction k with
    | zero => exact ⟨hstart ▸ inv, hstart ▸ hclosed, by rw [hstart]; exact le_rfl⟩
    | succ k ih =>
      obtain ⟨hinv, hfeed, hle⟩ := ih
      obtain ⟨hfeed', hlt⟩ := hinv.work_lt hfeed (hall k)
      exact ⟨pipeInv_work hinv (hall k), hfeed', by omega⟩
  have := (hdown (s.work + 1)).2.2
  omega

/-- **Ordered delivery.** Along every interleaving the reservations fit the ring and are released
once; a decoder fills an empty slot; and the applier receives the decoded blocks in feed order.
If the ring is closed and not stopped, it receives every block of the feed. -/
theorem ordered_delivery (hs : PipeReachable decode s) :
    (s.ring.inFlight ≤ capacity ∧
      (∀ i, (s.decoders i = .reserved ∨ ∃ job, s.decoders i = .holding job) →
        0 < s.ring.inFlight) ∧
      (∀ k v, s.ring.items k = some v → 0 < s.ring.inFlight)) ∧
    (∀ i job, s.decoders i = .holding job →
      s.ring.items (slotOf capacity job.seq) = none ∧ job.seq < s.ring.next + capacity) ∧
    ((s.published.map Prod.fst).Nodup ∧
      ∀ slot ring, s.ring.take s.seq = some (some slot, ring) → (s.seq, slot) ∈ s.published) ∧
    (s.received.length = s.seq ∧
      ∀ k v, s.received[k]? = some v → (k, v) ∈ s.published ∧ (s.fed[k]?).map decode = some v) ∧
    (s.ring.stopped = false → s.feeding = false →
      s.ring.closedAt = some s.fed.length ∧
      (s.applying = true → ∃ s', WorkStep decode s s') ∧
      (s.applying = false → s.received = s.fed.map decode) ∧
      ∀ run : ℕ → Pipeline capacity workers Payload Slot, run 0 = s →
        ∃ k, ¬ WorkStep decode (run k) (run (k + 1))) := by
  have inv := pipeInv_of_reachable hs
  have hlen : s.received.length = s.seq := by
    rw [inv.received, length_map, length_take]
    have h1 := inv.seq_le
    have h2 := inv.taken_le
    omega
  refine ⟨⟨?_, ?_, ?_⟩, ?_, ⟨inv.publishedOnce, ?_⟩, ⟨hlen, ?_⟩, ?_⟩
  · have h1 := inv.count
    have h2 := inv.room
    omega
  · rintro i (hi | ⟨job, hi⟩)
    · exact inv.inFlight_pos_of_reserved hi
    · obtain ⟨hlo, hhi, -⟩ := inv.held hi
      exact (inv.inFlight_pos hlo hhi (inv.heldFresh hi).2).2
  · intro k v hk
    obtain ⟨q, hlo, hhi, -, hpub⟩ := inv.slot hk
    exact (inv.inFlight_pos hlo hhi fun hq => inv.droppedFresh hq hpub).2
  · intro i job hi
    refine ⟨inv.items_holding hi, ?_⟩
    have h1 := (inv.held hi).2.1
    have h2 := inv.taken_le_window
    rw [inv.next]
    omega
  · intro slot ring h
    exact (inv.slot_seq (take_some h).1).2
  · intro k v hk
    have hpub := inv.receivedPublished hk
    exact ⟨hpub, (inv.published hpub).2⟩
  · intro hrun hclosed
    refine ⟨?_, inv.progress hrun hclosed, ?_, inv.no_infinite_work hclosed⟩
    · rw [inv.closed, hclosed, if_neg Bool.false_ne_true, inv.feedSeq]
    · intro happ
      rcases inv.finished happ with h | ⟨-, hseq⟩
      · simp [hrun] at h
      · rw [inv.received, hseq, inv.feedSeq, take_length]

/-- Two decoders and two slots: the second block is published first, and both are received in the
order of the feed. -/
theorem ordered_delivery_two :
    ∃ s : Pipeline 2 2 ℕ ℕ, PipeReachable (· + 1) s ∧ s.published.map Prod.fst = [1, 0] ∧
      s.fed = [7, 9] ∧ s.received = s.fed.map (· + 1) := by
  have hreach := (((((((((((Relation.ReflTransGen.refl (a := Pipeline.init 2 2 ℕ ℕ)
      (r := PipeStep (· + 1))).tail
    (.work (.send 7 rfl (by decide)))).tail (.work (.send 9 rfl (by decide)))).tail
    (.work (.close rfl))).tail (.work (.reserve 0 rfl rfl))).tail
    (.work (.reserve 1 rfl rfl))).tail (.work (.recv 0 rfl rfl))).tail
    (.work (.recv 1 rfl rfl))).tail (.work (.publish 1 rfl))).tail
    (.work (.publish 0 rfl))).tail (.work (.take rfl rfl))).tail (.work (.take rfl rfl))
  have hdone := hreach.tail (.work (.finish rfl rfl))
  exact ⟨_, hdone, rfl, rfl, ((ordered_delivery hdone).2.2.2.2 rfl rfl).2.2.1 rfl⟩

end Hacash
