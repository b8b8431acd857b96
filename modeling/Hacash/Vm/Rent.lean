import Hacash.Vm.Storage

/-!
# Storage rent (`vm::state`)

The credit of an entry is prepaid, time burns it, and what is left is refunded in whole periods.
**Key result**: `storage_rent`, over any run.
-/

namespace Hacash

open Lib Vm.ValueSto Vm.SpaceCap List

namespace Vm

/-! ## Parameters -/

/-- What the argument needs of the parameters. -/
structure RentParams (gst : GasExtra) (cap : SpaceCap) : Prop where
  key_nonneg : 0 ≤ gst.storageKeyCost
  key_le : gst.storageKeyCost ≤ 2 ^ 32
  edit_nonneg : 0 ≤ gst.storageEditMul
  period_pos : 0 < cap.storagePeriod
  live_fits : (cap.valueSize + gst.storegeValueBaseSize.toNat) * cap.storageLiveMaxBlocks < 2 ^ 32
  recv_fits : (cap.valueSize + gst.storegeValueBaseSize.toNat) * cap.storageRecvMaxBlocks < 2 ^ 32

theorem rentParams_new : RentParams .new .new := by
  constructor <;> decide

/-! ## The potential of an entry -/

section

variable (gst : GasExtra) (cap : SpaceCap)

/-- What could be refunded for an entry: its live credit, and the cost of its key. -/
def potential : Option ValueSto → ℤ
  | none => 0
  | some v => v.liveCredit + cap.storagePeriod * gst.storageKeyCost

/-- The credits of an entry are within the caps of its size. -/
structure CreditBounded (v : ValueSto) : Prop where
  size : ∃ n, v.data.scalarSize = some n ∧ n ≤ cap.valueSize
  credit : ∃ unit, unitFor gst v.data = .ok unit ∧
    v.liveCredit ≤ unit * cap.storageLiveMaxBlocks ∧
    v.recoverCredit ≤ unit * cap.storageRecvMaxBlocks

/-- **One operation on a slot**: what it refunds and leaves is covered by what it charges and
finds, and the caps are kept. -/
structure SlotStep (old new : Option ValueSto) (charged rebated : ℤ) : Prop where
  covered : rebated * cap.storagePeriod + potential gst cap new
    ≤ charged * cap.storagePeriod + potential gst cap old
  bounded : (∀ v, old = some v → CreditBounded gst cap v) →
    ∀ v, new = some v → CreditBounded gst cap v

end

section

variable {gst : GasExtra} {cap : SpaceCap}

theorem SlotStep.refl (old : Option ValueSto) : SlotStep gst cap old old 0 0 :=
  ⟨le_rfl, fun h => h⟩

theorem SlotStep.trans {a b c : Option ValueSto} {charged rebated charged' rebated' : ℤ}
    (h : SlotStep gst cap a b charged rebated) (h' : SlotStep gst cap b c charged' rebated') :
    SlotStep gst cap a c (charged + charged') (rebated + rebated') := by
  refine ⟨?_, fun ha => h'.bounded (h.bounded ha)⟩
  have h1 := h.covered
  have h2 := h'.covered
  rw [add_mul, add_mul]
  linarith

variable {v v' : ValueSto} {unit period credit : ℕ}

/-- Settling only burns credit. -/
theorem settle_ok {curhei : ℕ} (h : v.settle curhei gst = .ok v') :
    v'.data = v.data ∧ v'.liveCredit ≤ v.liveCredit ∧ v'.recoverCredit ≤ v.recoverCredit := by
  obtain ⟨unit, -, h⟩ := bind_eq_ok h
  split_ifs at h with hunit hold
  · cases h
    exact ⟨rfl, le_rfl, le_rfl⟩
  · cases h
    exact ⟨rfl, le_rfl, le_rfl⟩
  · obtain ⟨live, hlive, h⟩ := bind_eq_ok h
    obtain ⟨recover, hrecover, h⟩ := bind_eq_ok h
    cases h
    replace hlive := check_drop hlive
    replace hrecover := check_drop hrecover
    cases hlive
    cases hrecover
    exact ⟨rfl, le_trans (min_le_left _ _) (Nat.sub_le _ _),
      le_trans (min_le_left _ _) (Nat.sub_le _ _)⟩

theorem CreditBounded.of_le (h : CreditBounded gst cap v)
    (hdata : v'.data = v.data) (hlive : v'.liveCredit ≤ v.liveCredit)
    (hrecover : v'.recoverCredit ≤ v.recoverCredit) : CreditBounded gst cap v' := by
  obtain ⟨unit, hunit, hl, hr⟩ := h.credit
  exact ⟨by rw [hdata]; exact h.size,
    unit, by rw [hdata]; exact hunit, hlive.trans hl, hrecover.trans hr⟩

/-- Less credit in the same entry. -/
theorem SlotStep.settled {curhei : ℕ} (h : v.settle curhei gst = .ok v') :
    SlotStep gst cap (some v) (some v') 0 0 := by
  obtain ⟨hdata, hlive, hrecover⟩ := settle_ok h
  refine ⟨?_, fun hb w hw => ?_⟩
  · simp only [potential]
    have : (v'.liveCredit : ℤ) ≤ v.liveCredit := by exact_mod_cast hlive
    linarith
  · cases hw
    exact (hb v rfl).of_le hdata hlive hrecover

theorem SlotStep.expired (hp : RentParams gst cap) (old : Option ValueSto) :
    SlotStep gst cap old none 0 0 := by
  refine ⟨?_, fun _ v hv => by cases hv⟩
  cases old with
  | none => exact le_rfl
  | some v =>
    simp only [potential]
    have := mul_nonneg (Int.natCast_nonneg cap.storagePeriod) hp.key_nonneg
    linarith [Int.natCast_nonneg v.liveCredit]

/-! ### Gas and credit -/

theorem u64ToI64Sat_of_lt {n : ℕ} (h : n < 2 ^ 63) : u64ToI64Sat n = n := by
  rw [u64ToI64Sat]
  omega

theorem i64Sat_of_lt {x : ℤ} (h0 : 0 ≤ x) (h : x < 2 ^ 63) : i64Sat x = x := by
  rw [i64Sat]
  omega

theorem i64Sat_nonneg {x : ℤ} (h : 0 ≤ x) : 0 ≤ i64Sat x := by
  rw [i64Sat]
  omega

theorem periodGas_eq (hp : RentParams gst cap) (hpos : 1 ≤ period)
    (h : unit * (period * cap.storagePeriod) < 2 ^ 32) :
    i64Sat (u64ToI64Sat unit * period) = (unit * period : ℕ) ∧ unit * period < 2 ^ 32 := by
  have hle : unit * period ≤ unit * (period * cap.storagePeriod) :=
    Nat.mul_le_mul_left _ (Nat.le_mul_of_pos_right _ hp.period_pos)
  have hlt : unit * period < 2 ^ 32 := lt_of_le_of_lt hle h
  have hunit : unit ≤ unit * period := Nat.le_mul_of_pos_right _ hpos
  refine ⟨?_, hlt⟩
  rw [u64ToI64Sat_of_lt (by omega), i64Sat_of_lt (by positivity)]
  · push_cast
    rfl
  · have : ((unit * period : ℕ) : ℤ) < 2 ^ 32 := by exact_mod_cast hlt
    push_cast at this
    linarith

theorem refund_mul_le (credit : ℕ) :
    refundForLiveCredit credit cap.storagePeriod * cap.storagePeriod ≤ credit := by
  have hle : refundForLiveCredit credit cap.storagePeriod
      ≤ ((credit / cap.storagePeriod : ℕ) : ℤ) := by
    rw [refundForLiveCredit, u64ToI64Sat]
    exact min_le_left _ _
  calc refundForLiveCredit credit cap.storagePeriod * cap.storagePeriod
      ≤ ((credit / cap.storagePeriod : ℕ) : ℤ) * cap.storagePeriod :=
        mul_le_mul_of_nonneg_right hle (Int.natCast_nonneg _)
    _ = ((credit / cap.storagePeriod * cap.storagePeriod : ℕ) : ℤ) := by push_cast; rfl
    _ ≤ credit := by exact_mod_cast Nat.div_mul_le_self _ _

theorem periodCredit_ok {storagePeriod : ℕ}
    (h : periodCredit unit period storagePeriod = .ok credit) :
    credit = unit * (period * storagePeriod) ∧ period * storagePeriod ≤ u64Max := by
  replace h := check_drop h
  obtain ⟨hblocks, h⟩ := check_bind_iff.mp h
  replace h := check_drop h
  cases h
  exact ⟨rfl, hblocks⟩

theorem creditU32_ok {v w : ℕ} {tip : String} (h : creditU32 v tip = .ok w) :
    w = v ∧ v < 2 ^ 32 := by
  obtain ⟨hlt, h⟩ := check_bind_iff.mp h
  cases h
  exact ⟨rfl, hlt⟩

/-- The rest of an entry is rounded up. -/
theorem restBlocks_ok {blocks : ℕ} (h : restBlocks credit unit = .ok blocks) :
    credit ≤ unit * blocks := by
  obtain ⟨hunit, h⟩ := check_bind_iff.mp h
  cases h
  split_ifs with hzero
  · omega
  · have hdiv := Nat.lt_div_mul_add (a := credit - 1) (Nat.pos_of_ne_zero hunit)
    rw [Nat.mul_add, Nat.mul_one, Nat.mul_comm]
    omega

theorem topUp_ok {maxBlocks next : ℕ} {a b c d : String}
    (h : topUp cap unit credit period maxBlocks a b c d = .ok next) :
    next = credit + unit * (period * cap.storagePeriod) ∧ next < 2 ^ 32 ∧
      next ≤ unit * maxBlocks := by
  obtain ⟨add, hadd, h⟩ := bind_eq_ok h
  replace h := check_drop h
  obtain ⟨cur, hcur, h⟩ := bind_eq_ok h
  replace h := check_drop h
  obtain ⟨hmax, h⟩ := check_bind_iff.mp h
  replace h := check_drop h
  obtain ⟨rfl, hlt⟩ := creditU32_ok h
  obtain ⟨rfl, -⟩ := periodCredit_ok hadd
  refine ⟨rfl, hlt, ?_⟩
  calc credit + unit * (period * cap.storagePeriod)
      ≤ unit * cur + unit * (period * cap.storagePeriod) :=
        Nat.add_le_add_right (restBlocks_ok hcur) _
    _ = unit * (cur + period * cap.storagePeriod) := (Nat.mul_add _ _ _).symm
    _ ≤ unit * maxBlocks := Nat.mul_le_mul_left _ hmax

theorem parsePeriod_ok {v : Value} {maxPeriod : ℕ}
    (h : parsePeriod v maxPeriod = .ok period) : 1 ≤ period ∧ period ≤ maxPeriod := by
  rw [parsePeriod] at h
  cases hv : v.extractU128 with
  | error e =>
    rw [hv] at h
    cases h
  | ok n =>
    rw [hv] at h
    obtain ⟨hpos, h⟩ := check_bind_iff.mp h
    obtain ⟨hle, h⟩ := check_bind_iff.mp h
    cases h
    exact ⟨hpos, hle⟩

theorem unitFor_ok {v : Value} (h : unitFor gst v = .ok unit) :
    ∃ n, v.scalarSize = some n ∧ unit ≤ n + gst.storegeValueBaseSize.toNat := by
  obtain ⟨size, hsize, h⟩ := bind_eq_ok h
  cases h
  rw [Value.canGetSize] at hsize
  cases hn : v.scalarSize with
  | none =>
    rw [hn] at hsize
    cases hsize
  | some n =>
    rw [hn] at hsize
    replace hsize := check_drop hsize
    cases hsize
    exact ⟨_, rfl, min_le_left _ _⟩

theorem validateScalarPayloadLen_ok {v : Value} {valueMax : ℕ} {ec : ItrErrCode} {u : Unit}
    (h : validateScalarPayloadLen v valueMax ec = .ok u) :
    ∃ n, v.scalarSize = some n ∧ n ≤ valueMax := by
  obtain ⟨len, hlen, h⟩ := bind_eq_ok h
  have hfits := of_check h
  rw [scalarFieldLenFits, Bool.and_eq_true, decide_eq_true_eq, decide_eq_true_eq] at hfits
  refine ⟨len, ?_, hfits.2⟩
  cases v with
  | nil | tuple | compo | handle =>
    change itrErr ec = .ok len at hlen
    cases hlen
  | bool | uint | bytes | address =>
    cases Except.ok.inj hlen
    rfl

theorem CreditBounded.fits (hp : RentParams gst cap)
    (h : CreditBounded gst cap v) : v.liveCredit < 2 ^ 32 ∧ v.recoverCredit < 2 ^ 32 := by
  obtain ⟨n, hn, hle⟩ := h.size
  obtain ⟨unit, hunit, hlive, hrecover⟩ := h.credit
  obtain ⟨m, hm, hunitle⟩ := unitFor_ok hunit
  rw [hn] at hm
  cases hm
  have hmax : unit ≤ cap.valueSize + gst.storegeValueBaseSize.toNat := by omega
  refine ⟨?_, ?_⟩
  · exact lt_of_le_of_lt (hlive.trans (Nat.mul_le_mul_right _ hmax)) hp.live_fits
  · exact lt_of_le_of_lt (hrecover.trans (Nat.mul_le_mul_right _ hmax)) hp.recv_fits

end

/-! ## One operation -/

/-- An operation on an entry. -/
inductive StorageOp where
  | snew (v p : Value)
  | sedit (v : Value)
  | spatch (expected patchSet : Value)
  | srent (p : Value)
  | srecv (p : Value)
  | sdel
  | sload
  | sstat

open StorageOp

section

variable (hash : VmHash) (gst : GasExtra) (cap : SpaceCap) (cadr : Address) (k : Value)

/-- An operation at a height, with the gas that it charges and refunds. -/
def StorageOp.exec (curhei : ℕ) (op : StorageOp) (s : VMState) : VMState × VmrtRes (ℤ × ℤ) :=
  match op with
  | .snew v p => (Vm.snew hash gst cap curhei cadr k v p s).map id (·.map fun gas => (gas, 0))
  | .sedit v => Vm.sedit hash gst cap curhei cadr k v s
  | .spatch expected patchSet =>
    (Vm.spatch hash gst cap curhei cadr k expected patchSet s).map id
      (·.map fun (_, fee, rebate, _) => (fee, rebate))
  | .srent p => (Vm.srent hash gst cap curhei cadr k p s).map id (·.map fun gas => (gas, 0))
  | .srecv p => (Vm.srecv hash gst cap curhei cadr k p s).map id (·.map fun gas => (gas, 0))
  | .sdel => (Vm.sdel hash gst cap curhei cadr k s).map id (·.map fun refund => (0, refund))
  | .sload => (Vm.sload hash gst cap curhei cadr k s).map id (·.map fun _ => (0, 0))
  | .sstat => (Vm.sstat hash gst cap curhei cadr k s).map id (·.map fun _ => (0, 0))

end

/-- The gas charged and refunded, none by a failure. -/
def gasOf (r : VmrtRes (ℤ × ℤ)) : ℤ × ℤ :=
  match r with
  | .ok gas => gas
  | .error _ => (0, 0)

section

variable {gst : GasExtra} {cap : SpaceCap} {curhei : ℕ}

variable {old new : Option ValueSto}

theorem SlotStep.fetched (hp : RentParams gst cap)
    (h : Fetched curhei gst old new) : SlotStep gst cap old new 0 0 := by
  rcases h with rfl | ⟨v, v', rfl, hsettle, rfl⟩
  · exact .expired hp old
  · exact .settled hsettle

section

variable {v : Value} (hp : RentParams gst cap)
  (hsize : ∃ n, v.scalarSize = some n ∧ n ≤ cap.valueSize)
include hp hsize

/-- An edit refunds what it trims. -/
theorem commitEdit_step {old : ValueSto} {fee rebate : ℤ} {w : SlotWrite}
    (h : commitEdit gst cap curhei { old with data := v } = .ok ((fee, rebate), w)) :
    SlotStep gst cap (some old) (w.apply (some old)) fee rebate := by
  obtain ⟨unit, hunit, h⟩ := bind_eq_ok h
  obtain ⟨liveCap, hliveCap, h⟩ := bind_eq_ok h
  obtain ⟨recoverCap, hrecoverCap, h⟩ := bind_eq_ok h
  obtain ⟨live, hlive, h⟩ := bind_eq_ok h
  obtain ⟨recover, hrecover, h⟩ := bind_eq_ok h
  cases h
  replace hliveCap := check_drop hliveCap
  replace hrecoverCap := check_drop hrecoverCap
  cases hliveCap
  cases hrecoverCap
  obtain ⟨rfl, -⟩ := creditU32_ok hlive
  obtain ⟨rfl, -⟩ := creditU32_ok hrecover
  refine ⟨?_, fun _ x hx => ?_⟩
  · have hfee : 0 ≤ i64Sat (u64ToI64Sat unit * gst.storageEditMul) := by
      refine i64Sat_nonneg (mul_nonneg ?_ hp.edit_nonneg)
      rw [u64ToI64Sat]
      omega
    have hrefund := @refund_mul_le cap
      (old.liveCredit - min old.liveCredit (unit * cap.storageLiveMaxBlocks))
    have hpaid := mul_nonneg hfee (Int.natCast_nonneg cap.storagePeriod)
    simp only [SlotWrite.apply, potential]
    have hle : min old.liveCredit (unit * cap.storageLiveMaxBlocks) ≤ old.liveCredit :=
      min_le_left _ _
    push_cast [Nat.cast_sub hle] at hrefund ⊢
    linarith
  · cases hx
    exact ⟨hsize, unit, hunit, min_le_right _ _, min_le_right _ _⟩

/-- A creation pays for its credit and its key. -/
theorem snew_step {unit period credit : ℕ} {vobj : ValueSto}
    (hperiod : 1 ≤ period ∧ period ≤ cap.storageLiveMaxPeriods)
    (hunit : unitFor gst v = .ok unit)
    (hcredit : periodCredit unit period cap.storagePeriod = .ok credit)
    (hvobj : ValueSto.new curhei v credit 0 = .ok vobj) :
    SlotStep gst cap none (some vobj)
      (i64Sat (gst.storageKeyCost + i64Sat (u64ToI64Sat unit * period))) 0 := by
  obtain ⟨rfl, hblocks⟩ := periodCredit_ok hcredit
  obtain ⟨live, hlive, hvobj⟩ := bind_eq_ok hvobj
  obtain ⟨recover, hrecover, hvobj⟩ := bind_eq_ok hvobj
  cases hvobj
  obtain ⟨rfl, hlt⟩ := creditU32_ok hlive
  obtain ⟨rfl, -⟩ := creditU32_ok hrecover
  obtain ⟨hgas, hgaslt⟩ := periodGas_eq hp hperiod.1 hlt
  refine ⟨?_, fun _ x hx => ?_⟩
  · have hgaslt' : ((unit * period : ℕ) : ℤ) < 2 ^ 32 := by exact_mod_cast hgaslt
    have hkey := hp.key_le
    rw [hgas, i64Sat_of_lt (add_nonneg hp.key_nonneg (Int.natCast_nonneg _)) (by omega)]
    simp only [potential]
    push_cast
    nlinarith
  · cases hx
    refine ⟨hsize, unit, hunit, Nat.mul_le_mul_left _ (le_min ?_ hblocks), Nat.zero_le _⟩
    rw [Nat.mul_comm]
    exact Nat.mul_le_mul_left _ hperiod.2

end

/-- A deletion refunds the rest and the key. -/
theorem sdel_step {v : ValueSto} {refund : ℤ}
    (h : refund = refundForLiveCredit v.liveCredit cap.storagePeriod + gst.storageKeyCost) :
    SlotStep gst cap (some v) none 0 refund := by
  refine ⟨?_, fun _ x hx => by cases hx⟩
  have hrefund := @refund_mul_le cap v.liveCredit
  simp only [potential]
  rw [h]
  linarith

/-- A step with its key counted: it is refunded only for an entry that is there, after a creation.
-/
structure OpStep (gst : GasExtra) (cap : SpaceCap) (op : StorageOp) (old new : Option ValueSto)
    (r : VmrtRes (ℤ × ℤ)) : Prop where
  step : SlotStep gst cap old new (gasOf r).1 (gasOf r).2
  created : new.isSome = true → old.isSome = true ∨ (∃ v p, op = .snew v p) ∧ ∃ gas, r = .ok gas
  refunded : op = .sdel → (gasOf r).2 ≠ 0 → old.isSome = true ∧ new = none

/-- An entry that was fetched was there. -/
theorem Fetched.isSome (h : Fetched curhei gst old new)
    (hnew : new.isSome = true) : old.isSome = true := by
  rcases h with rfl | ⟨v, v', rfl, -, rfl⟩
  · cases hnew
  · rfl

/-- An operation makes a step if what it decides on an entry does; `Pre` is what was checked
before. -/
theorem withSlot_opStep {α β : Type} {slot : VmrtRes (List UInt8 × α)} {sk : List UInt8}
    {body : α → Option ValueSto → VmrtRes (β × SlotWrite)} {s s' : VMState} {r : VmrtRes β}
    {Pre : α → Prop} {gas : β → ℤ × ℤ} {op : StorageOp} (hp : RentParams gst cap) (hop : op ≠ .sdel)
    (hslot : ∀ sk' a, slot = .ok (sk', a) → sk' = sk ∧ Pre a)
    (hbody : ∀ a, Pre a → ∀ fetched b w, body a fetched = .ok (b, w) →
      SlotStep gst cap fetched (w.apply fetched) (gas b).1 (gas b).2 ∧
        ((w.apply fetched).isSome = true → fetched.isSome = true ∨ ∃ v p, op = .snew v p))
    (h : withSlot curhei gst slot body s = (s', r)) :
    OpStep gst cap op (s.ctrtkvdb sk) (s'.ctrtkvdb sk) (r.map gas) := by
  -- nothing done, or nothing but the fetch
  have hkept : ∀ {e : ItrErr} {new : Option ValueSto}, SlotStep gst cap (s.ctrtkvdb sk) new 0 0 →
      (new.isSome = true → (s.ctrtkvdb sk).isSome = true) →
      OpStep gst cap op (s.ctrtkvdb sk) new (.error e) := fun hstep hnew =>
    ⟨hstep, fun hsome => .inl (hnew hsome), fun hdel => absurd hdel hop⟩
  cases hs : slot with
  | error e =>
    rw [withSlot_error hs] at h
    cases h
    exact hkept (.refl _) fun h => h
  | ok p =>
    obtain ⟨sk', a⟩ := p
    obtain ⟨rfl, hpre⟩ := hslot sk' a hs
    obtain ⟨-, ⟨rfl, e, rfl⟩ | ⟨fetched, hfetched, hcase⟩⟩ := withSlot_ok hs h
    · exact hkept (.refl _) fun h => h
    · have hfirst := SlotStep.fetched hp hfetched
      rcases hcase with ⟨hslot', e, rfl⟩ | ⟨b, w, hb, rfl, hslot'⟩
      · rw [hslot']
        exact hkept hfirst hfetched.isSome
      · rw [hslot']
        obtain ⟨hdone, hnew⟩ := hbody a hpre fetched b w hb
        have hstep := hfirst.trans hdone
        rw [zero_add, zero_add] at hstep
        refine ⟨hstep, fun hsome => ?_, fun hdel => absurd hdel hop⟩
        exact (hnew hsome).imp hfetched.isSome fun hsnew => ⟨hsnew, _, rfl⟩

end

section

variable {hash : VmHash} {gst : GasExtra} {cap : SpaceCap} {cadr : Address} {k : Value}
  {curhei : ℕ} {sk : List UInt8}

theorem plainSlot_ok (hsk : skey hash cadr k cap.kvKeySize = .ok sk) (sk' : List UInt8) (u : Unit)
    (h : plainSlot hash cap cadr k = .ok (sk', u)) : sk' = sk ∧ True := by
  rw [plainSlot, hsk, ok_bind] at h
  cases h
  exact ⟨rfl, trivial⟩

theorem activeEntry_ok {old : Option ValueSto} {v : ValueSto} (h : activeEntry old = .ok v) :
    old = some v := by
  cases old with
  | none => cases h
  | some old =>
    replace h := check_drop h
    cases h
    rfl

/-- The slot of a rent of some periods. -/
theorem periodSlot_ok {p : Value} {maxPeriod : ℕ} (hsk : skey hash cadr k cap.kvKeySize = .ok sk)
    (sk' : List UInt8) (period : ℕ)
    (h : (do
      let period ← parsePeriod p maxPeriod
      let sk ← skey hash cadr k cap.kvKeySize
      return (sk, period)) = (.ok (sk', period) : VmrtRes (List UInt8 × ℕ))) :
    sk' = sk ∧ 1 ≤ period ∧ period ≤ maxPeriod := by
  obtain ⟨n, hn, h⟩ := bind_eq_ok h
  rw [hsk, ok_bind] at h
  cases h
  exact ⟨rfl, parsePeriod_ok hn⟩

variable {s s' : VMState}

variable {v p : Value} {r : VmrtRes ℤ} {e : ItrErr}

theorem applyPatchChecked_length {original final digest : List UInt8} {expected patchSet : Value}
    (h : applyPatchChecked hash original expected patchSet cap = .ok (final, digest)) :
    final.length ≤ cap.valueSize := by
  cases expected with
  | bytes expected =>
    cases patchSet with
    | bytes patchSet =>
      replace h := check_drop h
      obtain ⟨out, hout, h⟩ := bind_eq_ok h
      cases h
      obtain ⟨_, -, hout⟩ := bind_eq_ok hout
      replace hout := check_drop hout
      obtain ⟨hle, hout⟩ := check_bind_iff.mp hout
      cases hout
      exact hle
    | _ => cases h
  | _ => cases h

/-- A rent pays for the credit it adds. -/
theorem rent_step (hp : RentParams gst cap) {v : ValueSto} {unit period live : ℕ}
    {a b c d : String} (hperiod : 1 ≤ period) (hunit : unitFor gst v.data = .ok unit)
    (hlive : topUp cap unit v.liveCredit period cap.storageLiveMaxBlocks a b c d = .ok live) :
    SlotStep gst cap (some v) (some { v with charge := curhei, liveCredit := live })
      (i64Sat (u64ToI64Sat unit * period)) 0 := by
  obtain ⟨rfl, hlt, hmax⟩ := topUp_ok hlive
  obtain ⟨hgas, -⟩ := periodGas_eq hp hperiod (lt_of_le_of_lt (Nat.le_add_left _ _) hlt)
  refine ⟨?_, fun hb x hx => ?_⟩
  · rw [hgas]
    simp only [potential]
    push_cast
    nlinarith
  · cases hx
    obtain ⟨unit', hunit', -, hrecover⟩ := (hb v rfl).credit
    rw [hunit] at hunit'
    cases hunit'
    exact ⟨(hb v rfl).size, unit, hunit, hmax, hrecover⟩

/-- A recovery buys nothing that is refunded. -/
theorem recv_step {v : ValueSto} {unit period recover : ℕ}
    {a b c d : String} (hunit : unitFor gst v.data = .ok unit)
    (hrecover : topUp cap unit v.recoverCredit period cap.storageRecvMaxBlocks a b c d
      = .ok recover) :
    SlotStep gst cap (some v) (some { v with charge := curhei, recoverCredit := recover })
      (i64Sat (u64ToI64Sat unit * period) / 3) 0 := by
  obtain ⟨-, -, hmax⟩ := topUp_ok hrecover
  have hgas : 0 ≤ i64Sat (u64ToI64Sat unit * period) / 3 := by
    refine Int.ediv_nonneg (i64Sat_nonneg (mul_nonneg ?_ (Int.natCast_nonneg _))) (by decide)
    rw [u64ToI64Sat]
    omega
  refine ⟨?_, fun hb x hx => ?_⟩
  · simp only [potential]
    have := mul_nonneg hgas (Int.natCast_nonneg cap.storagePeriod)
    linarith
  · cases hx
    obtain ⟨unit', hunit', hlive, -⟩ := (hb v rfl).credit
    rw [hunit] at hunit'
    cases hunit'
    exact ⟨(hb v rfl).size, unit, hunit, hlive, hmax⟩

section

variable (hp : RentParams gst cap) (hsk : skey hash cadr k cap.kvKeySize = .ok sk)
include hp hsk

theorem snew_opStep (h : snew hash gst cap curhei cadr k v p s = (s', r)) :
    OpStep gst cap (.snew v p) (s.ctrtkvdb sk) (s'.ctrtkvdb sk) (r.map fun gas => (gas, 0)) := by
  have hslot : ∀ sk' period, (do
      v.checkNonNilScalar .storageNilNotAllowed
      validateScalarPayloadLen v cap.valueSize .storageValSizeErr
      let period ← parsePeriod p cap.storageLiveMaxPeriods
      let sk ← skey hash cadr k cap.kvKeySize
      return (sk, period)) = (.ok (sk', period) : VmrtRes (List UInt8 × ℕ)) →
      sk' = sk ∧ (∃ n, v.scalarSize = some n ∧ n ≤ cap.valueSize) ∧
        1 ≤ period ∧ period ≤ cap.storageLiveMaxPeriods := by
    intro sk' period h
    obtain ⟨_, -, h⟩ := bind_eq_ok h
    obtain ⟨_, hsize, h⟩ := bind_eq_ok h
    obtain ⟨heq, hperiod⟩ := periodSlot_ok hsk sk' period h
    exact ⟨heq, validateScalarPayloadLen_ok hsize, hperiod⟩
  refine withSlot_opStep hp nofun hslot ?_ h
  rintro period ⟨hsize, hperiod⟩ fetched gas w hbody
  obtain ⟨hnone, hbody⟩ := check_bind_iff.mp hbody
  obtain ⟨unit, hunit, hbody⟩ := bind_eq_ok hbody
  obtain ⟨credit, hcredit, hbody⟩ := bind_eq_ok hbody
  obtain ⟨vobj, hvobj, hbody⟩ := bind_eq_ok hbody
  cases hbody
  rw [Option.isNone_iff_eq_none] at hnone
  rw [hnone]
  exact ⟨snew_step hp hsize hperiod hunit hcredit hvobj, fun _ => .inr ⟨v, p, rfl⟩⟩

theorem sedit_opStep {r : VmrtRes (ℤ × ℤ)} (h : sedit hash gst cap curhei cadr k v s = (s', r)) :
    OpStep gst cap (.sedit v) (s.ctrtkvdb sk) (s'.ctrtkvdb sk) r := by
  have hslot : ∀ sk' u, (do
      v.checkNonNilScalar .storageNilNotAllowed
      validateScalarPayloadLen v cap.valueSize .storageValSizeErr
      plainSlot hash cap cadr k) = (.ok (sk', u) : VmrtRes (List UInt8 × Unit)) →
      sk' = sk ∧ ∃ n, v.scalarSize = some n ∧ n ≤ cap.valueSize := by
    intro sk' u h
    obtain ⟨_, -, h⟩ := bind_eq_ok h
    obtain ⟨_, hsize, h⟩ := bind_eq_ok h
    exact ⟨(plainSlot_ok hsk sk' u h).1, validateScalarPayloadLen_ok hsize⟩
  have hid : r.map id = r := congrFun Except.map_id r
  rw [← hid]
  refine withSlot_opStep hp nofun hslot ?_ h
  rintro - hsize fetched ⟨fee, rebate⟩ w hbody
  obtain ⟨old, hold, hbody⟩ := bind_eq_ok hbody
  rw [activeEntry_ok hold]
  exact ⟨commitEdit_step hp hsize hbody, fun _ => .inl rfl⟩

theorem spatch_opStep {expected patchSet : Value} {r : VmrtRes (List UInt8 × ℤ × ℤ × ℕ)}
    (h : spatch hash gst cap curhei cadr k expected patchSet s = (s', r)) :
    OpStep gst cap (.spatch expected patchSet) (s.ctrtkvdb sk) (s'.ctrtkvdb sk)
      (r.map fun (_, fee, rebate, _) => (fee, rebate)) := by
  refine withSlot_opStep hp nofun (plainSlot_ok hsk) ?_ h
  rintro - - fetched ⟨digest, fee, rebate, len⟩ w hbody
  obtain ⟨old, hold, hbody⟩ := bind_eq_ok hbody
  rw [activeEntry_ok hold]
  refine ⟨?_, fun _ => .inl rfl⟩
  cases hdata : old.data with
  | bytes b =>
    simp only [hdata] at hbody
    obtain ⟨⟨final, digest'⟩, hpatch, hbody⟩ := bind_eq_ok hbody
    obtain ⟨⟨⟨fee', rebate'⟩, w'⟩, hcommit, hbody⟩ := bind_eq_ok hbody
    cases hbody
    exact commitEdit_step hp ⟨final.length, rfl, applyPatchChecked_length hpatch⟩ hcommit
  | _ =>
    simp only [hdata] at hbody
    cases hbody

theorem srent_opStep (h : srent hash gst cap curhei cadr k p s = (s', r)) :
    OpStep gst cap (.srent p) (s.ctrtkvdb sk) (s'.ctrtkvdb sk) (r.map fun gas => (gas, 0)) := by
  refine withSlot_opStep hp nofun (periodSlot_ok hsk) ?_ h
  rintro period ⟨hpos, -⟩ fetched gas w hbody
  cases fetched with
  | none => cases hbody
  | some v =>
    obtain ⟨unit, hunit, hbody⟩ := bind_eq_ok hbody
    obtain ⟨live, hlive, hbody⟩ := bind_eq_ok hbody
    cases hbody
    exact ⟨rent_step hp hpos hunit hlive, fun _ => .inl rfl⟩

theorem srecv_opStep (h : srecv hash gst cap curhei cadr k p s = (s', r)) :
    OpStep gst cap (.srecv p) (s.ctrtkvdb sk) (s'.ctrtkvdb sk) (r.map fun gas => (gas, 0)) := by
  refine withSlot_opStep hp nofun (periodSlot_ok hsk) ?_ h
  rintro period - fetched gas w hbody
  cases fetched with
  | none => cases hbody
  | some v =>
    obtain ⟨unit, hunit, hbody⟩ := bind_eq_ok hbody
    obtain ⟨recover, hrecover, hbody⟩ := bind_eq_ok hbody
    cases hbody
    exact ⟨recv_step hunit hrecover, fun _ => .inl rfl⟩

/-- A read writes back what it fetched. -/
theorem read_opStep {op : StorageOp} {body : Unit → Option ValueSto → VmrtRes (Value × SlotWrite)}
    {r : VmrtRes Value}
    (hop : op ≠ .sdel) (hbody : ∀ u fetched b w, body u fetched = .ok (b, w) → w = .keep)
    (h : withSlot curhei gst (plainSlot hash cap cadr k) body s = (s', r)) :
    OpStep gst cap op (s.ctrtkvdb sk) (s'.ctrtkvdb sk) (r.map fun _ => (0, 0)) := by
  refine withSlot_opStep hp hop (plainSlot_ok hsk) ?_ h
  intro u _ fetched b w hb
  rw [hbody u fetched b w hb]
  exact ⟨.refl fetched, .inl⟩

theorem sload_opStep {r : VmrtRes Value} (h : sload hash gst cap curhei cadr k s = (s', r)) :
    OpStep gst cap .sload (s.ctrtkvdb sk) (s'.ctrtkvdb sk) (r.map fun _ => (0, 0)) := by
  refine read_opStep hp hsk nofun ?_ h
  intro _ fetched b w hbody
  cases fetched with
  | none => cases hbody; rfl
  | some v =>
    replace hbody := check_drop hbody
    cases hbody
    rfl

theorem sstat_opStep {r : VmrtRes Value} (h : sstat hash gst cap curhei cadr k s = (s', r)) :
    OpStep gst cap .sstat (s.ctrtkvdb sk) (s'.ctrtkvdb sk) (r.map fun _ => (0, 0)) := by
  refine read_opStep hp hsk nofun ?_ h
  intro _ fetched b w hbody
  cases fetched with
  | none => cases hbody; rfl
  | some v =>
    obtain ⟨_, _, hbody⟩ := bind_eq_ok hbody
    obtain ⟨_, _, hbody⟩ := bind_eq_ok hbody
    obtain ⟨_, _, hbody⟩ := bind_eq_ok hbody
    cases hbody
    rfl

theorem sdel_opStep (h : sdel hash gst cap curhei cadr k s = (s', r)) :
    OpStep gst cap .sdel (s.ctrtkvdb sk) (s'.ctrtkvdb sk) (r.map fun refund => (0, refund)) := by
  simp only [sdel, hsk] at h
  cases hv : s.ctrtkvdb sk with
  | none =>
    simp only [hv] at h
    cases h
    rw [hv]
    exact ⟨.refl none, nofun, fun _ hne => absurd rfl hne⟩
  | some v =>
    simp only [hv] at h
    cases hread : v.reload >>= fun v => v.settle curhei gst with
    | error e =>
      simp only [hread] at h
      cases h
      rw [hv]
      exact ⟨.refl _, fun _ => .inl rfl, fun _ hne => absurd rfl hne⟩
    | ok v' =>
      have hsettle := settle_of_reload hread
      simp only [hread] at h
      split_ifs at h with habsent
      · cases h
        rw [write_self]
        exact ⟨.expired hp _, nofun, fun _ hne => absurd rfl hne⟩
      · obtain ⟨rfl, rfl⟩ := Prod.mk.inj h
        rw [write_self]
        have hsettled : SlotStep gst cap (some v) (some v') 0 0 := .settled hsettle
        refine ⟨?_, nofun, fun _ _ => ⟨rfl, rfl⟩⟩
        by_cases hle : refundForLiveCredit v'.liveCredit cap.storagePeriod + gst.storageKeyCost
            ≤ 2 ^ 63 - 1
        · rw [check_of _ _ hle, ok_bind]
          have hstep := hsettled.trans (sdel_step rfl)
          rwa [zero_add, zero_add] at hstep
        · rw [check, if_neg hle]
          exact .expired hp _

/-- **Every operation makes a step**, and no other slot is touched. -/
theorem StorageOp.step {op : StorageOp} {r : VmrtRes (ℤ × ℤ)}
    (h : op.exec hash gst cap cadr k curhei s = (s', r)) :
    OpStep gst cap op (s.ctrtkvdb sk) (s'.ctrtkvdb sk) r := by
  cases op with
  | snew v p =>
    cases h
    exact snew_opStep hp hsk rfl
  | sedit v => exact sedit_opStep hp hsk h
  | spatch expected patchSet =>
    cases h
    exact spatch_opStep hp hsk rfl
  | srent p =>
    cases h
    exact srent_opStep hp hsk rfl
  | srecv p =>
    cases h
    exact srecv_opStep hp hsk rfl
  | sdel =>
    cases h
    exact sdel_opStep hp hsk rfl
  | sload =>
    cases h
    exact sload_opStep hp hsk rfl
  | sstat =>
    cases h
    exact sstat_opStep hp hsk rfl

end

theorem withSlot_no_slot {α β : Type} {slot : VmrtRes (List UInt8 × α)}
    {body : α → Option ValueSto → VmrtRes (β × SlotWrite)} (h : ∀ p, slot ≠ .ok p) :
    ∃ e, withSlot curhei gst slot body s = (s, .error e) := by
  cases hs : slot with
  | error e => exact ⟨e, rfl⟩
  | ok p => exact absurd hs (h p)

theorem plainSlot_ne_ok (hsk : skey hash cadr k cap.kvKeySize = .error e)
    (p : List UInt8 × Unit) : plainSlot hash cap cadr k ≠ .ok p := by
  intro h
  obtain ⟨sk, hok, -⟩ := bind_eq_ok h
  rw [hsk] at hok
  cases hok

theorem periodSlot_ne_ok (hsk : skey hash cadr k cap.kvKeySize = .error e)
    {maxPeriod : ℕ} (p : List UInt8 × ℕ) :
    (do
      let period ← parsePeriod v maxPeriod
      let sk ← skey hash cadr k cap.kvKeySize
      return (sk, period) : VmrtRes (List UInt8 × ℕ)) ≠ .ok p := by
  intro h
  obtain ⟨period, -, h⟩ := bind_eq_ok h
  obtain ⟨sk, hok, -⟩ := bind_eq_ok h
  rw [hsk] at hok
  cases hok

theorem no_slot_map {α : Type} {m : VMState × VmrtRes α} (f : α → ℤ × ℤ)
    (h : ∃ e, m = (s, .error e)) : ∃ e, m.map id (·.map f) = (s, .error e) := by
  obtain ⟨e, rfl⟩ := h
  exact ⟨e, rfl⟩

theorem StorageOp.exec_no_slot {e : ItrErr} (hsk : skey hash cadr k cap.kvKeySize = .error e)
    (op : StorageOp) : ∃ e', op.exec hash gst cap cadr k curhei s = (s, .error e') := by
  cases op with
  | snew v p =>
    refine no_slot_map _ (withSlot_no_slot fun q h => ?_)
    obtain ⟨_, -, h⟩ := bind_eq_ok h
    obtain ⟨_, -, h⟩ := bind_eq_ok h
    exact periodSlot_ne_ok hsk q h
  | sedit v =>
    refine withSlot_no_slot fun q h => ?_
    obtain ⟨_, -, h⟩ := bind_eq_ok h
    obtain ⟨_, -, h⟩ := bind_eq_ok h
    exact plainSlot_ne_ok hsk q h
  | spatch expected patchSet => exact no_slot_map _ (withSlot_no_slot (plainSlot_ne_ok hsk))
  | srent p | srecv p => exact no_slot_map _ (withSlot_no_slot (periodSlot_ne_ok hsk))
  | sdel =>
    refine ⟨e, ?_⟩
    simp only [exec, Vm.sdel, hsk]
    rfl
  | sload | sstat => exact no_slot_map _ (withSlot_no_slot (plainSlot_ne_ok hsk))

end

/-! ## Runs -/

/-- What the operations on a key did: each with its result, the latest first. -/
abbrev RentLog : Type := List (StorageOp × VmrtRes (ℤ × ℤ))

namespace RentLog

/-- The gas charged in all. -/
def charged (log : RentLog) : ℤ := (log.map fun x => (gasOf x.2).1).sum

/-- The gas refunded in all. -/
def rebated (log : RentLog) : ℤ := (log.map fun x => (gasOf x.2).2).sum

/-- The entries created. -/
def creations (log : RentLog) : ℕ :=
  log.countP fun x => match x with
    | (.snew _ _, .ok _) => true
    | _ => false

/-- The deletions that refunded a key. -/
def keyRefunds (log : RentLog) : ℕ :=
  log.countP fun x => match x with
    | (.sdel, .ok (_, refund)) => refund != 0
    | _ => false

end RentLog

open RentLog

section

variable (hash : VmHash) (gst : GasExtra) (cap : SpaceCap) (cadr : Address) (k : Value)

/-- Operations on one key, each at its height, failed ones with what they leave. -/
def StorageOp.run : VMState × RentLog → List (ℕ × StorageOp) → VMState × RentLog :=
  foldl fun (s, log) (curhei, op) =>
    let (s', r) := op.exec hash gst cap cadr k curhei s
    (s', (op, r) :: log)

variable {hash gst cap cadr k}

/-- **The books of a key**: what could still be refunded is paid for, and so is its key. -/
structure RentBooks (gst : GasExtra) (cap : SpaceCap) (slot : Option ValueSto) (log : RentLog) :
    Prop where
  covered : log.rebated * cap.storagePeriod + potential gst cap slot
    ≤ log.charged * cap.storagePeriod
  keys : log.keyRefunds + slot.isSome.toNat ≤ log.creations
  bounded : ∀ v, slot = some v → CreditBounded gst cap v

theorem rentBooks_nil : RentBooks gst cap none [] :=
  ⟨le_rfl, le_rfl, nofun⟩

theorem keyRefunds_cons_le (op : StorageOp) (r : VmrtRes (ℤ × ℤ)) (log : RentLog) :
    (keyRefunds ((op, r) :: log) = log.keyRefunds) ∨
      (keyRefunds ((op, r) :: log) = log.keyRefunds + 1 ∧ op = .sdel ∧ (gasOf r).2 ≠ 0) := by
  rw [keyRefunds, countP_cons]
  cases op with
  | sdel =>
    cases r with
    | error e => exact .inl rfl
    | ok gas =>
      by_cases hzero : gas.2 = 0
      · left
        simp [keyRefunds, hzero]
      · right
        refine ⟨?_, rfl, hzero⟩
        simp [keyRefunds, hzero]
  | _ => exact .inl rfl

theorem creations_le_cons (x : StorageOp × VmrtRes (ℤ × ℤ)) (log : RentLog) :
    log.creations ≤ creations (x :: log) := by
  rw [creations, creations, countP_cons]
  exact Nat.le_add_right _ _

/-- The books are kept by an operation. -/
theorem RentBooks.step {op : StorageOp} {old new : Option ValueSto} {r : VmrtRes (ℤ × ℤ)}
    {log : RentLog} (hb : RentBooks gst cap old log) (h : OpStep gst cap op old new r) :
    RentBooks gst cap new ((op, r) :: log) := by
  refine ⟨?_, ?_, h.step.bounded hb.bounded⟩
  · have h1 := hb.covered
    have h2 := h.step.covered
    simp only [charged, rebated, map_cons, sum_cons, add_mul] at h1 ⊢
    linarith
  · have hkeys := hb.keys
    have hmono := creations_le_cons (op, r) log
    rcases keyRefunds_cons_le op r log with heq | ⟨heq, rfl, hne⟩
    · rw [heq]
      cases hnew : new.isSome with
      | false => exact le_trans (by simp) (le_trans hkeys hmono)
      | true =>
        rcases h.created hnew with hold | ⟨⟨v, p, rfl⟩, gas, rfl⟩
        · rw [hold] at hkeys
          exact hkeys.trans hmono
        · -- the entry is new, and so is its creation
          have hone : creations ((.snew v p, .ok gas) :: log) = log.creations + 1 :=
            countP_cons_of_pos rfl
          rw [hone]
          exact Nat.add_le_add_right (le_trans (Nat.le_add_right _ _) hkeys) 1
    · obtain ⟨hold, rfl⟩ := h.refunded rfl hne
      rw [hold] at hkeys
      rw [heq]
      exact hkeys.trans hmono

theorem RentBooks.run {sk : List UInt8} (hp : RentParams gst cap)
    (hsk : skey hash cadr k cap.kvKeySize = .ok sk) (ops : List (ℕ × StorageOp)) (s : VMState)
    (log : RentLog) (hb : RentBooks gst cap (s.ctrtkvdb sk) log) :
    RentBooks gst cap ((run hash gst cap cadr k (s, log) ops).1.ctrtkvdb sk)
      (run hash gst cap cadr k (s, log) ops).2 := by
  induction ops generalizing s log with
  | nil => exact hb
  | cons o ops ih =>
    obtain ⟨curhei, op⟩ := o
    exact ih _ _ (hb.step (op.step hp hsk rfl))

/-- Without a slot every operation fails. -/
theorem run_no_slot {e : ItrErr} (hsk : skey hash cadr k cap.kvKeySize = .error e)
    (ops : List (ℕ × StorageOp)) (s : VMState) (log : RentLog) (hb : RentBooks gst cap none log) :
    RentBooks gst cap none (run hash gst cap cadr k (s, log) ops).2 := by
  induction ops generalizing s log with
  | nil => exact hb
  | cons o ops ih =>
    obtain ⟨curhei, op⟩ := o
    obtain ⟨e', hexec⟩ : ∃ e', op.exec hash gst cap cadr k curhei s = (s, .error e') :=
      op.exec_no_slot hsk
    have hstep : OpStep gst cap op none none (op.exec hash gst cap cadr k curhei s).2 := by
      rw [hexec]
      exact ⟨.refl none, nofun, fun _ hne => absurd rfl hne⟩
    exact ih _ _ (hb.step hstep)

end

/-- **Storage rent is never profitable.** Over any run on a key that was absent: refunds do not
exceed charges, the key is refunded once at most for each creation, and credits are within the caps
and fit 32 bits. -/
theorem storage_rent (hash : VmHash) (cadr : Address) (k : Value) (s : VMState)
    (habsent : ∀ sk, skey hash cadr k new.kvKeySize = .ok sk → s.ctrtkvdb sk = none)
    (ops : List (ℕ × StorageOp)) :
    let out := run hash .new .new cadr k (s, []) ops
    out.2.rebated ≤ out.2.charged ∧ out.2.keyRefunds ≤ out.2.creations ∧
      ∀ sk v, skey hash cadr k new.kvKeySize = .ok sk → out.1.ctrtkvdb sk = some v →
        ∃ unit, unitFor .new v.data = .ok unit ∧
          v.liveCredit ≤ unit * new.storageLiveMaxBlocks ∧
          v.recoverCredit ≤ unit * new.storageRecvMaxBlocks ∧
          v.liveCredit < 2 ^ 32 ∧ v.recoverCredit < 2 ^ 32 := by
  have hprofit : ∀ {slot : Option ValueSto} {log : RentLog}, RentBooks .new .new slot log →
      log.rebated ≤ log.charged := by
    intro slot log hb
    have hpot : 0 ≤ potential .new .new slot := by
      cases slot with
      | none => exact le_rfl
      | some v =>
        exact add_nonneg (Int.natCast_nonneg _) (by decide)
    have hpos : (0 : ℤ) < new.storagePeriod := by decide
    exact le_of_mul_le_mul_right (by linarith [hb.covered]) hpos
  cases hsk : skey hash cadr k new.kvKeySize with
  | error e =>
    have hb := run_no_slot hsk ops s [] (@rentBooks_nil .new .new)
    exact ⟨hprofit hb, le_trans (Nat.le_add_right _ _) hb.keys, nofun⟩
  | ok sk =>
    have hb := RentBooks.run rentParams_new hsk ops s []
      (by rw [habsent sk hsk]; exact rentBooks_nil)
    refine ⟨hprofit hb, le_trans (Nat.le_add_right _ _) hb.keys, ?_⟩
    intro sk' v hsk' hv
    cases hsk'
    obtain ⟨unit, hunit, hlive, hrecover⟩ := (hb.bounded v hv).credit
    obtain ⟨hlive32, hrecover32⟩ := (hb.bounded v hv).fits rentParams_new
    exact ⟨unit, hunit, hlive, hrecover, hlive32, hrecover32⟩

/-- A contract rents an entry, makes it smaller after some time and deletes it. -/
def rentSample : List (ℕ × StorageOp) :=
  [(5, .snew (.bytes [1, 2, 3]) (.uint .u8 9)), (200, .sedit (.bool true)), (300, .sdel)]

theorem storage_rent_sample :
    let hash : VmHash := ⟨fun _ => .fill 0, id⟩
    let s : VMState := ⟨fun _ => none, fun _ => none⟩
    let out := run hash .new .new (.fill 1) (.bytes [7]) (s, []) rentSample
    out.2.charged = 1315 ∧ out.2.rebated = 1165 ∧ out.2.rebated ≤ out.2.charged ∧
      out.2.keyRefunds ≤ out.2.creations := by
  intro hash s out
  have h := storage_rent hash (.fill 1) (.bytes [7]) s (fun _ _ => rfl) rentSample
  exact ⟨by decide +kernel, by decide +kernel, h.1, h.2.1⟩

end Vm

end Hacash
