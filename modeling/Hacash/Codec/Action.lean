import Hacash.Field.Wire

/-!
# The wire format of actions (`protocol::codec::action`, `base::registry`)

The kind of an action, its first two bytes, says which codec reads it. The codec of trees is
canonical if those of the leaves are (`decodeAction_codes`).
-/

namespace Hacash

open Lib List Decoder

/-- `AstSelect`. -/
structure AstSelect (A : Type) where
  exeMin : Uint 1
  exeMax : Uint 1
  actions : List A

/-- An action: a leaf, an `AstSelect` or an `AstIf`. -/
inductive ActionTree (L : Type) where
  | leaf (act : L)
  | select (sel : AstSelect (ActionTree L))
  | astIf (cond brIf brElse : AstSelect (ActionTree L))

open ActionTree

/-- `AstSelect::KIND`. -/
def astSelectKind : ℕ := 25

/-- `AstIf::KIND`. -/
def astIfKind : ℕ := 26

def astMaxDepth : ℕ := 64

/-- The leaf actions: their kinds, their encodings, and the decoder registered for a kind. -/
structure Registry (L : Type) where
  kind : L → Uint 2
  encode : L → List UInt8
  size : L → ℕ
  codec : ℕ → Option (Decode L)

variable {L : Type}

/-- The codecs of well-formed leaves (`wf`) are canonical, and an encoding starts with the kind. -/
structure Registry.Lawful (reg : Registry L) (wf : L → Prop) : Prop where
  codes : ∀ k d, reg.codec k = some d →
    Codes d reg.encode fun act => wf act ∧ (reg.kind act).uint = k
  registered : ∀ act, wf act → ∃ d, reg.codec (reg.kind act).uint = some d
  starts : ∀ act, wf act → ∃ body, reg.encode act = (reg.kind act).encode ++ body
  size : ∀ act, wf act → reg.size act = (reg.encode act).length
  not_select : reg.codec astSelectKind = none
  not_astIf : reg.codec astIfKind = none

/-! ## Encoding -/

mutual

/-- `encode_to` of an action. -/
def ActionTree.encode (reg : Registry L) : ActionTree L → List UInt8
  | .leaf act => reg.encode act
  | .select sel => encodeSelect reg sel
  | .astIf cond brIf brElse =>
    beBytes 2 astIfKind ++ encodeSelect reg cond ++ encodeSelect reg brIf
      ++ encodeSelect reg brElse

/-- `encode_to` of an `AstSelect`. -/
def encodeSelect (reg : Registry L) : AstSelect (ActionTree L) → List UInt8
  | ⟨exeMin, exeMax, actions⟩ =>
    beBytes 2 astSelectKind ++ exeMin.encode ++ exeMax.encode
      ++ (beBytes 1 actions.length ++ encodeActions reg actions)

/-- The encodings of the actions of a list, one after the other. -/
def encodeActions (reg : Registry L) : List (ActionTree L) → List UInt8
  | [] => []
  | act :: rest => act.encode reg ++ encodeActions reg rest

end

mutual

/-- `size` of an action. -/
def ActionTree.size (reg : Registry L) : ActionTree L → ℕ
  | .leaf act => reg.size act
  | .select sel => sizeSelect reg sel
  | .astIf cond brIf brElse =>
    2 + sizeSelect reg cond + sizeSelect reg brIf + sizeSelect reg brElse

/-- `size` of an `AstSelect`. -/
def sizeSelect (reg : Registry L) : AstSelect (ActionTree L) → ℕ
  | ⟨_, _, actions⟩ => 2 + 1 + 1 + (1 + sizeActions reg actions)

/-- The sum of the sizes of a list of actions. -/
def sizeActions (reg : Registry L) : List (ActionTree L) → ℕ
  | [] => 0
  | act :: rest => act.size reg + sizeActions reg rest

end

/-! ## Decoding -/

/-- The kind an action starts with, which must be that of its codec. -/
def decodeKind (k : ℕ) : Decode Unit := do
  let kind ← Uint.decode 2
  Decoder.guard (kind.uint = k) (.normal "action kind mismatch")

/-- The body of `decode_ast_select`: `children` decodes an action one level deeper. -/
def decodeSelectBody (children : Decode (ActionTree L)) : Decode (AstSelect (ActionTree L)) := do
  decodeKind astSelectKind
  let exeMin ← Uint.decode 1
  let exeMax ← Uint.decode 1
  let actions ← decodeListW 1 children
  return ⟨exeMin, exeMax, actions⟩

/-- The body of `create_ast_if`: `sel` decodes a select one level deeper. -/
def decodeIfBody (sel : Decode (AstSelect (ActionTree L))) : Decode (ActionTree L) := do
  decodeKind astIfKind
  let cond ← sel
  let brIf ← sel
  let brElse ← sel
  return .astIf cond brIf brElse

/-- `BinaryCodecs::decode_action`: the codec registered for the kind. -/
def decodeByKind (reg : Registry L) (sel : Decode (AstSelect (ActionTree L)))
    (astIf : Decode (ActionTree L)) : Decode (ActionTree L) :=
  peek (Uint.decode 2) fun kind =>
    if kind.uint = astSelectKind then do return .select (← sel)
    else if kind.uint = astIfKind then astIf
    else match reg.codec kind.uint with
      | some codec => do return .leaf (← codec)
      | none => Decoder.fail (.normal "action kind not registered")

/-- The error of `AstDepthGuard::enter`. -/
def tooDeep : Error := .normal "AST action nesting exceeds 64 levels"

mutual

/-- `decode_ast_select` with `room` levels left. -/
def decodeSelect (reg : Registry L) : ℕ → Decode (AstSelect (ActionTree L))
  | 0 => fail tooDeep
  | room + 1 => decodeSelectBody (decodeAction reg room)

/-- `decode_action` with `room` levels left. -/
def decodeAction (reg : Registry L) : ℕ → Decode (ActionTree L)
  | 0 => decodeByKind reg (fail tooDeep) (fail tooDeep)
  | room + 1 =>
    decodeByKind reg (decodeSelectBody (decodeAction reg room))
      (decodeIfBody (decodeSelect reg room))

end

/-! ## Well-formed actions -/

/-- The children of a select are well formed, and their count fits its byte. -/
def AstSelect.Holds {A : Type} (valid : A → Prop) (sel : AstSelect A) : Prop :=
  sel.actions.length < 256 ∧ ∀ act ∈ sel.actions, valid act

mutual

/-- A select that can be decoded with `room` levels left. -/
def ValidSelect (wf : L → Prop) : ℕ → AstSelect (ActionTree L) → Prop
  | 0, _ => False
  | room + 1, sel => sel.Holds (ActionTree.Valid wf room)

/-- An action that can be decoded with `room` levels left. -/
def ActionTree.Valid (wf : L → Prop) : ℕ → ActionTree L → Prop
  | _, .leaf act => wf act
  | 0, _ => False
  | room + 1, .select sel => sel.Holds (ActionTree.Valid wf room)
  | room + 1, .astIf cond brIf brElse =>
    ValidSelect wf room cond ∧ ValidSelect wf room brIf ∧ ValidSelect wf room brElse

end

/-! ## The codec is canonical -/

theorem encodeActions_eq (reg : Registry L) :
    ∀ actions, encodeActions reg actions = actions.flatMap (encode reg)
  | [] => by rw [encodeActions, flatMap_nil]
  | act :: rest => by rw [encodeActions, encodeActions_eq reg rest, flatMap_cons]

theorem encodeSelect_eq (reg : Registry L) (sel : AstSelect (ActionTree L)) :
    encodeSelect reg sel = beBytes 2 astSelectKind ++ (sel.exeMin.encode ++ (sel.exeMax.encode
      ++ encodeListW 1 (encode reg) sel.actions)) := by
  cases sel
  rw [encodeSelect, encodeActions_eq, encodeListW, append_assoc, append_assoc]

theorem decodeKind_reads (k : ℕ) : (decodeKind k).Reads fun _ bytes => bytes = beBytes 2 k := by
  refine reads_bind (Uint.codes 2).reads fun kind u hu =>
    reads_mono (reads_guard _) fun _ v hv => ?_
  obtain ⟨rfl, rfl⟩ := hv
  rw [hu.1, append_nil]
  rfl

theorem decodeKind_accepts {k : ℕ} (hk : k < 256 ^ 2) :
    (decodeKind k).Accepts () (beBytes 2 k) := by
  rw [← append_nil (beBytes 2 k)]
  exact accepts_bind ((Uint.codes 2).accepts ⟨k, hk⟩ trivial)
    (accepts_guard _ rfl)

section

variable {reg : Registry L} {wf : L → Prop} {valid : ActionTree L → Prop}

theorem decodeSelectBody_codes {children : Decode (ActionTree L)}
    (h : Codes children (encode reg) valid) :
    Codes (decodeSelectBody children) (encodeSelect reg) (AstSelect.Holds valid) where
  reads := by
    refine reads_bind (decodeKind_reads _) fun _ s hs =>
      reads_bind (Uint.codes 1).reads fun exeMin t ht =>
        reads_bind (Uint.codes 1).reads fun exeMax u hu =>
          reads_bind (decodeListW_codes h).reads fun actions v hv =>
            reads_pure ?_
    obtain ⟨rfl, hlen, hvalid⟩ := hv
    refine ⟨?_, hlen, hvalid⟩
    rw [encodeSelect_eq, hs, ht.1, hu.1, append_nil]
  accepts sel hsel := by
    rw [encodeSelect_eq]
    exact accepts_bind (decodeKind_accepts (by decide))
      (accepts_bind ((Uint.codes 1).accepts _ trivial)
        (accepts_bind ((Uint.codes 1).accepts _ trivial)
          (accepts_last ((decodeListW_codes h).accepts _ hsel) rfl)))

/-- The `AstIf` nodes among the actions, with selects that are `validSel`. -/
def IsAstIf (validSel : AstSelect (ActionTree L) → Prop) : ActionTree L → Prop
  | .astIf cond brIf brElse => validSel cond ∧ validSel brIf ∧ validSel brElse
  | _ => False

theorem decodeIfBody_codes {sel : Decode (AstSelect (ActionTree L))}
    {validSel : AstSelect (ActionTree L) → Prop} (h : Codes sel (encodeSelect reg) validSel) :
    Codes (decodeIfBody sel) (encode reg) (IsAstIf validSel) where
  reads := by
    refine reads_bind (decodeKind_reads _) fun _ s hs =>
      reads_bind h.reads fun cond t ht =>
        reads_bind h.reads fun brIf u hu =>
          reads_bind h.reads fun brElse v hv => reads_pure ?_
    refine ⟨?_, ht.2, hu.2, hv.2⟩
    rw [encode, hs, ht.1, hu.1, hv.1, append_nil, append_assoc,
      append_assoc]
  accepts act hact := by
    cases act with
    | leaf _ | select _ => exact hact.elim
    | astIf cond brIf brElse =>
      obtain ⟨hcond, hif, helse⟩ := hact
      rw [encode, append_assoc, append_assoc]
      exact accepts_bind (decodeKind_accepts (by decide))
        (accepts_bind (h.accepts cond hcond) (accepts_bind (h.accepts brIf hif)
          (accepts_last (h.accepts brElse helse) rfl)))

/-- The kind at the head of an encoding, as `decode_action` looks at it. -/
theorem decode_kind_of_starts {bytes body : List UInt8} {kind : Uint 2}
    (h : bytes = kind.encode ++ body) (rest : List UInt8) :
    Uint.decode 2 (bytes ++ rest) = .ok (kind, 2) := by
  rw [h, append_assoc]
  have := (Uint.codes 2).accepts kind trivial (body ++ rest)
  rwa [Uint.encode_length] at this

/-- An action read by the codec of its kind. -/
def ValidByKind (wf : L → Prop) (validSel : AstSelect (ActionTree L) → Prop)
    (validIf : ActionTree L → Prop) : ActionTree L → Prop
  | .leaf act => wf act
  | .select sel => validSel sel
  | .astIf cond brIf brElse => validIf (.astIf cond brIf brElse)

theorem decodeByKind_codes (hreg : reg.Lawful wf) {sel : Decode (AstSelect (ActionTree L))}
    {astIf : Decode (ActionTree L)} {validSel inner : AstSelect (ActionTree L) → Prop}
    (hsel : Codes sel (encodeSelect reg) validSel)
    (hif : Codes astIf (encode reg) (IsAstIf inner)) :
    Codes (decodeByKind reg sel astIf) (encode reg)
      (ValidByKind wf validSel (IsAstIf inner)) where
  reads := by
    refine reads_peek fun kind => ?_
    by_cases hselect : kind.uint = astSelectKind
    · rw [if_pos hselect]
      refine reads_bind hsel.reads fun s u hu => reads_pure ?_
      exact ⟨by rw [append_nil, hu.1, encode], hu.2⟩
    rw [if_neg hselect]
    by_cases hastIf : kind.uint = astIfKind
    · rw [if_pos hastIf]
      refine reads_mono hif.reads fun act bytes hact => ⟨hact.1, ?_⟩
      cases act with
      | leaf _ | select _ => exact hact.2.elim
      | astIf cond brIf brElse => exact hact.2
    rw [if_neg hastIf]
    cases hcodec : reg.codec kind.uint with
    | none => exact reads_fail _
    | some codec =>
      refine reads_bind (hreg.codes _ _ hcodec).reads fun act u hu =>
        reads_pure ?_
      exact ⟨by rw [append_nil, hu.1, encode], hu.2.1⟩
  accepts act hact := by
    cases act with
    | leaf act =>
      obtain ⟨codec, hcodec⟩ := hreg.registered act hact
      obtain ⟨body, hbody⟩ := hreg.starts act hact
      have hselect : (reg.kind act).uint ≠ astSelectKind := by
        intro h
        rw [h, hreg.not_select] at hcodec
        cases hcodec
      have hastIf : (reg.kind act).uint ≠ astIfKind := by
        intro h
        rw [h, hreg.not_astIf] at hcodec
        cases hcodec
      rw [encode]
      refine accepts_peek (decode_kind_of_starts hbody) ?_
      rw [if_neg hselect, if_neg hastIf, hcodec]
      exact accepts_last ((hreg.codes _ _ hcodec).accepts act ⟨hact, rfl⟩) rfl
    | select s =>
      rw [encode]
      have hstarts : encodeSelect reg s = (⟨astSelectKind, by decide⟩ : Uint 2).encode ++ _ :=
        encodeSelect_eq reg s
      refine accepts_peek (decode_kind_of_starts hstarts) ?_
      rw [if_pos rfl]
      exact accepts_last (hsel.accepts s hact) rfl
    | astIf cond brIf brElse =>
      have hstarts : (ActionTree.astIf cond brIf brElse).encode reg
          = (⟨astIfKind, by decide⟩ : Uint 2).encode
            ++ (encodeSelect reg cond ++ (encodeSelect reg brIf ++ encodeSelect reg brElse)) := by
        rw [ActionTree.encode, append_assoc, append_assoc]
        rfl
      refine accepts_peek (decode_kind_of_starts hstarts) ?_
      rw [if_neg (by decide), if_pos rfl]
      exact hif.accepts _ hact

/-- **The two codecs are canonical**, by induction on the levels that are left. -/
theorem decode_codes (hreg : reg.Lawful wf) (room : ℕ) :
    Codes (decodeSelect reg room) (encodeSelect reg) (ValidSelect wf room) ∧
      Codes (decodeAction reg room) (encode reg) (ActionTree.Valid wf room) := by
  induction room with
  | zero =>
    refine ⟨?_, ?_⟩
    · rw [decodeSelect]
      exact (Codes.fail _ _).congr fun sel => by rw [ValidSelect]
    · rw [decodeAction]
      have hif : Codes (fail tooDeep) (encode reg) (IsAstIf fun _ => False) :=
        (Codes.fail _ _).congr fun act => by cases act <;> simp [IsAstIf]
      refine (decodeByKind_codes hreg (Codes.fail _ _) hif).congr fun act => ?_
      cases act <;> simp [ValidByKind, IsAstIf, ActionTree.Valid]
  | succ room ih =>
    obtain ⟨hsel, haction⟩ := ih
    refine ⟨?_, ?_⟩
    · rw [decodeSelect]
      exact (decodeSelectBody_codes haction).congr fun sel => by rw [ValidSelect]
    · rw [decodeAction]
      refine (decodeByKind_codes hreg (decodeSelectBody_codes haction)
        (decodeIfBody_codes hsel)).congr fun act => ?_
      cases act <;> simp [ValidByKind, IsAstIf, ActionTree.Valid]

theorem decodeAction_codes (hreg : reg.Lawful wf) (room : ℕ) :
    Codes (decodeAction reg room) (encode reg) (ActionTree.Valid wf room) :=
  (decode_codes hreg room).2

/-! ## Sizes -/

theorem sizeActions_of : ∀ {actions : List (ActionTree L)},
    (∀ act ∈ actions, act.size reg = (act.encode reg).length) →
      sizeActions reg actions = (encodeActions reg actions).length
  | [], _ => by rw [sizeActions, encodeActions, length_nil]
  | act :: rest, h => by
    rw [sizeActions, encodeActions, length_append, h act mem_cons_self,
      sizeActions_of fun a ha => h a (mem_cons_of_mem act ha)]

theorem sizeSelect_of {sel : AstSelect (ActionTree L)}
    (h : ∀ act ∈ sel.actions, act.size reg = (act.encode reg).length) :
    sizeSelect reg sel = (encodeSelect reg sel).length := by
  cases sel
  rw [sizeSelect, encodeSelect, sizeActions_of h]
  simp only [length_append, beBytes_length, Uint.encode_length]

/-- `size` is the length of the encoding, by induction on the levels that are left. -/
theorem size_eq (hreg : reg.Lawful wf) : ∀ room,
    (∀ sel, ValidSelect wf room sel → sizeSelect reg sel = (encodeSelect reg sel).length) ∧
      ∀ act, ActionTree.Valid wf room act → act.size reg = (act.encode reg).length := by
  intro room
  induction room with
  | zero =>
    refine ⟨fun sel h => by rw [ValidSelect] at h; exact h.elim, fun act h => ?_⟩
    cases act with
    | leaf act =>
      rw [ActionTree.Valid] at h
      rw [ActionTree.size, encode, hreg.size act h]
    | select _ | astIf _ _ _ => simp [ActionTree.Valid] at h
  | succ room ih =>
    obtain ⟨hsel, hact⟩ := ih
    refine ⟨fun sel h => ?_, fun act h => ?_⟩
    · rw [ValidSelect] at h
      exact sizeSelect_of fun act ha => hact act (h.2 act ha)
    cases act with
    | leaf act =>
      rw [ActionTree.Valid] at h
      rw [ActionTree.size, encode, hreg.size act h]
    | select sel =>
      rw [ActionTree.Valid] at h
      rw [ActionTree.size, encode]
      exact sizeSelect_of fun act ha => hact act (h.2 act ha)
    | astIf cond brIf brElse =>
      rw [ActionTree.Valid] at h
      obtain ⟨hcond, hif, helse⟩ := h
      rw [ActionTree.size, encode, hsel cond hcond, hsel brIf hif, hsel brElse helse]
      simp only [length_append, beBytes_length]

end

end Hacash
