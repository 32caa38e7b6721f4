import MarkupQuery.Pipeline.Call
import MarkupQuery.Proofs.Pipeline.Pipe
import MarkupQuery.Proofs.Pipeline.RoundTrip

/-!
# Building stages and reading them

Stages are built by a call just as they are read from a query of one stage: the same arguments are
accepted, with the same stages, and when there is something wrong with them the call and the query
are refused for the same cause. Only the position and the text that is quoted differ. A query cannot
write a literal with a backtick in it, and no call accepts one.

## Main definitions

* `Call.Writes`: the operator and the arguments with which a query writes a call
* `Call.strings`: the literals among the arguments of a call

## Main results

* `Pipeline.exists_compile_applied`: the cause for which a query of one stage is refused is that for
  which its operator refuses its arguments
* `Call.Writes.exists_stages?`: an operator refuses the arguments of a call for the same cause
* `Call.stages_iff_compile`: a call builds what its query is read as
-/

namespace MarkupQuery

variable {α : Type}

theorem forall_mem_pair {p : α → Prop} {x y : α} (hx : p x) (hy : p y) : ∀ z ∈ [x, y], p z :=
  List.forall_mem_cons.mpr ⟨hx, List.forall_mem_singleton.mpr hy⟩

/-- Every integer is a number. -/
theorem Number.integer?_ofInt (n : Int) : (Number.ofInt n).integer? = some n := by
  have hvalue : (if n < 0 then -(n.natAbs : Int) else n.natAbs) = n := by
    split <;> omega
  simpa [ofInt, integer?, Nat.mod_one] using hvalue

/-! ## Calls as queries -/

namespace Call

/-- The operator and the arguments with which a query writes a call: its texts as literals, a flag
as `1` or `0`, and an index in decimal. A flag that holds may be left out. -/
inductive Writes : Call → Operator → List Lexeme → Prop
  | flat : Writes .flat .flat []
  | path (content : Text) : Writes (.path content) .path [.literal content]
  | attr (field : Text) : Writes (.attr field none) .attr [.literal field]
  | attrValue (field value : Text) :
      Writes (.attr field (some value)) .attr [.literal field, .literal value]
  | identifier (value : Text) : Writes (.identifier value true) .identifier [.literal value]
  | identifierFlag (value : Text) (flag : Bool) :
      Writes (.identifier value flag) .identifier [.literal value, .bare (CaseFlag.toText flag)]
  | className (value : Text) : Writes (.className value true) .className [.literal value]
  | classNameFlag (value : Text) (flag : Bool) :
      Writes (.className value flag) .className [.literal value, .bare (CaseFlag.toText flag)]
  | child {number : Number} {index : Int} (hnumber : number.integer? = some index)
      (hindex : index.natAbs ≤ 2 ^ 53 - 1) :
      Writes (.child number) .child [.bare (Decimal.ofInt index)]
  | text : Writes .text .text []
  | trim : Writes .trim .trim []
  | trimPrefix (lead : Text) : Writes (.trimPrefix lead) .trimPrefix [.literal lead]
  | trimSuffix (tail : Text) : Writes (.trimSuffix tail) .trimSuffix [.literal tail]
  | attrText (field : Text) : Writes (.attrText field) .attrText [.literal field]

/-- The texts that a query writes as literals. -/
def strings : Call → List Text
  | flat => []
  | path content => [content]
  | attr field value => field :: value.toList
  | identifier value _ => [value]
  | className value _ => [value]
  | child _ => []
  | text => []
  | trim => []
  | trimPrefix lead => [lead]
  | trimSuffix tail => [tail]
  | attrText field => [field]

variable {c : Call} {operator : Operator} {lexemes : List Lexeme}

/-- Without a backtick in its texts, a call is read back from how it is written. -/
theorem Writes.isPlain (h : c.Writes operator lexemes)
    (hstrings : ∀ s ∈ c.strings, CodeUnit.backtick ∉ s) : ∀ l ∈ lexemes, l.IsPlain := by
  cases h
  case flat | text | trim => exact nofun
  case attrValue field value =>
    have hfield := hstrings field List.mem_cons_self
    have hvalue := hstrings value (List.mem_cons_of_mem _ List.mem_cons_self)
    exact forall_mem_pair (.literal hfield) (.literal hvalue)
  case identifierFlag value flag | classNameFlag value flag =>
    exact forall_mem_pair (.literal (hstrings value List.mem_cons_self)) (isPlain_flag flag)
  case child number index hnumber hindex =>
    exact List.forall_mem_singleton.mpr (isPlain_numeral (Decimal.signedNumeral_ofInt index))
  all_goals exact List.forall_mem_singleton.mpr (.literal (hstrings _ List.mem_cons_self))

end Call

/-! ## Causes -/

/-- A literal is refused for the cause that its content gives. -/
theorem Argument.mapError_cause_literal {a : Argument} {content : Text}
    (h : a.lexeme = .literal content) (kind : LiteralKind) :
    (a.literal kind).mapError Fault.cause = kind.check content := by
  obtain ⟨hquoted, rfl⟩ := lexeme_eq_literal_iff.mp h
  rw [literal, if_pos hquoted, located, mapError_mapError]
  cases kind.check a.content <;> rfl

theorem Argument.mapError_cause_path {a : Argument} {content : Text}
    (h : a.lexeme = .literal content) :
    a.path.mapError Fault.cause = (Path.read content).mapError .path := by
  have hliteral : a.literal .path = .ok content := literal_eq_ok_iff.mpr ⟨h, rfl⟩
  rw [path, hliteral]
  show (a.located ((Path.read content).mapError .path)).mapError Fault.cause = _
  rw [located, mapError_mapError, mapError_mapError]

namespace Call

theorem mapError_cause_quoted (operator : Operator) (arguments : List Text)
    (result : Except Cause α) :
    (quoted operator arguments result).mapError (·.cause) = result := by
  rw [quoted, mapError_mapError]
  cases result <;> rfl

theorem mapError_cause_literal (operator : Operator) (kind : LiteralKind) (content : Text) :
    (literal operator kind content).mapError (·.cause) = kind.check content :=
  mapError_cause_quoted operator [content.enclosed] (kind.check content)

variable {c : Call} {operator : Operator} {lexemes : List Lexeme}

/-- A literal of a call and an argument that writes it are refused for the same cause. -/
theorem mapError_literal_eq {a : Argument} {content : Text} (h : a.lexeme = .literal content)
    (operator : Operator) (kind : LiteralKind) :
    (a.literal kind).mapError Fault.cause = (literal operator kind content).mapError (·.cause) := by
  rw [Argument.mapError_cause_literal h, mapError_cause_literal]

/-- **An operator makes of the arguments of a call what the call builds**, or refuses them for the
same cause. -/
theorem Writes.exists_stages? (h : c.Writes operator lexemes) {as : List Argument}
    (has : as.map Argument.lexeme = lexemes) :
    ∃ result, operator.stages? as = some result ∧
      result.mapError Fault.cause = c.stages.mapError (·.cause) := by
  cases h
  case flat | text | trim =>
    obtain rfl := List.map_eq_nil_iff.mp has
    exact ⟨_, rfl, rfl⟩
  case path content =>
    obtain ⟨a, rfl, ha⟩ := List.map_eq_singleton_iff.mp has
    refine ⟨_, rfl, mapError_bind_congr ?_ fun _ => rfl⟩
    rw [Argument.mapError_cause_path ha, mapError_cause_quoted]
  case attrValue field value =>
    obtain ⟨a, b, rfl, ha, hb⟩ := Operator.exists_pair_of_map_eq has
    refine ⟨_, rfl, mapError_bind_congr (mapError_literal_eq ha .attr .field) fun field' => ?_⟩
    refine mapError_bind_congr ?_ fun _ => rfl
    rw [Argument.mapError_cause_literal hb, mapError_cause_quoted]
  case identifierFlag value flag | classNameFlag value flag =>
    obtain ⟨a, b, rfl, ha, hb⟩ := Operator.exists_pair_of_map_eq has
    refine ⟨_, rfl, mapError_bind_congr (mapError_literal_eq ha _ .field) fun value' => ?_⟩
    rw [Argument.caseFlag_eq_ok_iff.mpr hb]
    rfl
  case child number index hnumber hindex =>
    obtain ⟨a, rfl, ha⟩ := List.map_eq_singleton_iff.mp has
    have hread := Argument.index_eq_ok_iff.mpr ⟨_, ha, Decimal.signedNumeral_ofInt index, hindex⟩
    have hbuilt : number.index? = some index := by
      rw [Number.index?, hnumber]
      exact Option.filter_eq_some_iff.mpr ⟨rfl, decide_eq_true hindex⟩
    refine ⟨_, rfl, ?_⟩
    rw [hread, stages, hbuilt]
    rfl
  all_goals
    obtain ⟨a, rfl, ha⟩ := List.map_eq_singleton_iff.mp has
    exact ⟨_, rfl, mapError_bind_congr (mapError_literal_eq ha _ _) fun _ => rfl⟩

end Call

/-! ## Queries of one stage -/

theorem Lexeme.IsPlain.isArgument {l : Lexeme} (h : l.IsPlain) : l.IsArgument := by
  cases h with
  | literal _ => exact .literal _
  | bare _ _ _ => exact .bare _

theorem Segment.compile_cons (whole : Text) (first : Token) (rest : List Token) (stop : Nat) :
    compile whole ⟨first :: rest, stop⟩ = (stages first rest).mapError fun fault =>
      { fault with segment := excerpt whole first rest } := rfl

namespace Pipeline

theorem ofSegments_singleton (whole : Text) (segment : Segment) :
    ofSegments whole [segment] = segment.compile whole := by
  rw [ofSegments_cons]
  cases segment.compile whole with
  | error e => rfl
  | ok p => exact congrArg Except.ok (List.append_nil p)

/-- **A query of one stage is read as what its operator makes of its arguments**, or refused for the
same cause. -/
theorem exists_compile_applied (operator : Operator) {lexemes : List Lexeme}
    (hplain : ∀ l ∈ lexemes, l.IsPlain) :
    ∃ as : List Argument, as.map Argument.lexeme = lexemes ∧
      ∀ result, operator.stages? as = some result →
        (compile (operator.applied (lexemes.map Lexeme.spelling))).mapError (·.cause) =
          result.mapError Fault.cause := by
  have hall : ∀ l ∈ lexemes, l.IsArgument := fun l hl => (hplain l hl).isArgument
  obtain ⟨tokens, hscan, htokens⟩ := Text.lexes_applied operator hplain Text.lexes_nil 0 0
  rw [List.append_nil] at hscan htokens
  have hfree : Segment.PipeFree tokens :=
    Segment.pipeFree_iff.mpr (htokens ▸ Operator.pipe_notMem_lexemes hall)
  have htokenize : tokenize (operator.applied (lexemes.map Lexeme.spelling)) = .ok tokens :=
    mapError_eq_ok_iff.mpr hscan
  obtain ⟨first, rest, rfl, -⟩ := List.map_eq_cons_iff.mp htokens
  obtain ⟨as, has, hstages⟩ := Segment.exists_stages_eq htokens hall
  refine ⟨as, has, fun result hresult => ?_⟩
  rw [compile_of_tokenize htokenize, Segment.all_of_pipeFree hfree, ofSegments_singleton,
    Segment.compile_cons, hstages result hresult, mapError_mapError]

end Pipeline

/-! ## Refusals -/

namespace LiteralKind

variable {kind : LiteralKind} {content t : Text}

theorem check_eq_ok_iff :
    kind.check content = .ok t ↔ kind.accepts content = true ∧ content = t := by
  rw [check]
  split
  · next h => simp [h]
  · next h => simp [h]

theorem code_of_check {cause : Cause} (h : kind.check content = .error cause) :
    cause.code = .malformedStage := by
  rw [check] at h
  split at h
  · cases h
  · cases h
    rfl

/-- No kind but that of paths, which are checked when they are read, admits a backtick. -/
theorem backtick_notMem_of_check (h : kind.check content = .ok t) (hkind : kind ≠ .path) :
    CodeUnit.backtick ∉ content := by
  have haccepts := (check_eq_ok_iff.mp h).1
  cases kind with
  | path => contradiction
  | field =>
    have hmade := (Text.isMadeOf_iff CodeUnit.isFieldUnit_iff).mpr haccepts
    exact backtick_notMem_of_isMadeOf (by decide) hmade
  | text =>
    have hmade := (Text.isMadeOf_iff CodeUnit.isAlpha_iff).mpr haccepts
    exact backtick_notMem_of_isMadeOf (by decide) hmade

end LiteralKind

namespace Call

variable {c : Call} {operator : Operator} {kind : LiteralKind} {content t : Text}

/-- If the result is an error, it is that of a malformed stage. -/
def RefusesMalformed (result : Except ParseError α) : Prop :=
  ∀ e, result = .error e → e.code = .malformedStage

theorem refusesMalformed_pure (a : α) : RefusesMalformed (pure a) := nofun

theorem RefusesMalformed.bind {β : Type} {result : Except ParseError α}
    {k : α → Except ParseError β} (h : RefusesMalformed result)
    (hk : ∀ a, RefusesMalformed (k a)) : RefusesMalformed (result >>= k) :=
  Refuses.bind h fun a _ => hk a

theorem refusesMalformed_quoted {arguments : List Text} {result : Except Cause α}
    (h : Refuses (·.code = .malformedStage) result) :
    RefusesMalformed (quoted operator arguments result) :=
  Refuses.mapError h

theorem refusesMalformed_literal (operator : Operator) (kind : LiteralKind) (content : Text) :
    RefusesMalformed (literal operator kind content) :=
  refusesMalformed_quoted fun _ => LiteralKind.code_of_check

/-- A call with a text is refused as malformed, if at all. -/
theorem refusesMalformed_stages (hc : c.strings ≠ []) : RefusesMalformed c.stages := by
  cases c
  case path content =>
    refine .bind (refusesMalformed_quoted ?_) fun _ => refusesMalformed_pure _
    exact .mapError fun _ _ => rfl
  case attr field value =>
    cases value with
    | none => exact .bind (refusesMalformed_literal _ _ field) fun _ => refusesMalformed_pure _
    | some value =>
      refine .bind (refusesMalformed_literal _ _ field) fun _ => .bind ?_ fun _ =>
        refusesMalformed_pure _
      exact refusesMalformed_quoted fun _ => LiteralKind.code_of_check
  case flat | child | text | trim => exact absurd rfl hc
  all_goals exact .bind (refusesMalformed_literal _ _ _) fun _ => refusesMalformed_pure _

theorem backtick_notMem_of_literal (h : literal operator kind content = .ok t)
    (hkind : kind ≠ .path) : CodeUnit.backtick ∉ content :=
  LiteralKind.backtick_notMem_of_check (mapError_eq_ok_iff.mp h) hkind

/-- No call that is accepted has a text with a backtick. -/
theorem backtick_notMem_of_stages {p : Pipeline} (h : c.stages = .ok p) :
    ∀ s ∈ c.strings, CodeUnit.backtick ∉ s := by
  cases c
  case path content =>
    obtain ⟨steps, hsteps, -⟩ := bind_eq_ok_iff.mp h
    obtain ⟨rfl, -, hvalid⟩ :=
      Path.read_eq_ok_iff.mp (mapError_eq_ok_iff.mp (mapError_eq_ok_iff.mp hsteps))
    cases isPlain_path hvalid with
    | literal hplain => exact List.forall_mem_singleton.mpr hplain
  case attr field value =>
    cases value with
    | none =>
      obtain ⟨_, hfield, -⟩ := bind_eq_ok_iff.mp h
      exact List.forall_mem_singleton.mpr (backtick_notMem_of_literal hfield nofun)
    | some value =>
      obtain ⟨_, hfield, hrest⟩ := bind_eq_ok_iff.mp h
      obtain ⟨_, hvalue, -⟩ := bind_eq_ok_iff.mp hrest
      exact forall_mem_pair (backtick_notMem_of_literal hfield nofun)
        (LiteralKind.backtick_notMem_of_check (mapError_eq_ok_iff.mp hvalue) nofun)
  case flat | child | text | trim => exact nofun
  all_goals
    obtain ⟨_, hliteral, -⟩ := bind_eq_ok_iff.mp h
    exact List.forall_mem_singleton.mpr (backtick_notMem_of_literal hliteral nofun)

/-- **A call builds what its query is read as**, when its texts can be written as literals. Both
succeed and give the same stages, or both are refused with the same code and reason. And a call with
a backtick in a text is refused as malformed. -/
theorem stages_iff_compile (c : Call) :
    (∀ operator lexemes, c.Writes operator lexemes → (∀ s ∈ c.strings, ('`' : CodeUnit) ∉ s) →
        (∀ p, c.stages = .ok p ↔
            Pipeline.compile (operator.applied (lexemes.map Lexeme.spelling)) = .ok p) ∧
          ∀ e e', c.stages = .error e →
            Pipeline.compile (operator.applied (lexemes.map Lexeme.spelling)) = .error e' →
              e.code = e'.code ∧ e.reason = e'.reason) ∧
      ∀ s ∈ c.strings, ('`' : CodeUnit) ∈ s →
        ∃ e, c.stages = .error e ∧ e.code = .malformedStage := by
  constructor
  · intro operator lexemes hwrites hstrings
    obtain ⟨as, has, hcompile⟩ :=
      Pipeline.exists_compile_applied operator (hwrites.isPlain hstrings)
    obtain ⟨result, hresult, hcause⟩ := hwrites.exists_stages? has
    have hsame := hcause.symm.trans (hcompile result hresult).symm
    constructor
    · intro p
      rw [← mapError_eq_ok_iff (f := fun e : ParseError => e.cause), hsame, mapError_eq_ok_iff]
    · intro e e' he he'
      rw [he, he'] at hsame
      have hcause : e.cause = e'.cause := Except.error.inj hsame
      exact ⟨congrArg Cause.code hcause, congrArg Cause.reason hcause⟩
  · intro s hs hmem
    cases h : c.stages with
    | ok p => exact absurd hmem (backtick_notMem_of_stages h s hs)
    | error e => exact ⟨e, rfl, refusesMalformed_stages (List.ne_nil_of_mem hs) e h⟩

/-- The value is refused in both for its pipe and parenthesis, which do not end the stage of the
query; and no query writes the text that the other call refuses. -/
theorem stages_iff_compile_attr :
    (attr "class" (some "a|b)")).stages = .error
        { cause := .invalidLiteral .field "a|b)", position := 0,
          segment := "@attr(`class`, `a|b)`)" } ∧
      Pipeline.compile "@attr(`class`, `a|b)`)" = .error
        { cause := .invalidLiteral .field "a|b)", position := 15,
          segment := "@attr(`class`, `a|b)`)" } ∧
      ParseError.reason
          { cause := .invalidLiteral .field "a|b)", position := 0,
            segment := "@attr(`class`, `a|b)`)" } =
        ParseError.reason
          { cause := .invalidLiteral .field "a|b)", position := 15,
            segment := "@attr(`class`, `a|b)`)" } ∧
      (∀ p, (child (.ofInt (-2))).stages = .ok p ↔ Pipeline.compile "@child(-2)" = .ok p) ∧
      ∃ e, (trimPrefix "a`b").stages = .error e ∧ e.code = .malformedStage := by
  have hbuilt : (attr "class" (some "a|b)")).stages = .error
      { cause := .invalidLiteral .field "a|b)", position := 0,
        segment := "@attr(`class`, `a|b)`)" } := by decide +kernel
  have hread : Pipeline.compile (Operator.attr.applied
      ([.literal "class", .literal "a|b)"].map Lexeme.spelling)) = .error
        { cause := .invalidLiteral .field "a|b)", position := 15,
          segment := "@attr(`class`, `a|b)`)" } := by decide +kernel
  have hsame := ((stages_iff_compile (attr "class" (some "a|b)"))).1 .attr _ (.attrValue _ _)
    (by decide)).2 _ _ hbuilt hread
  have hindex := (stages_iff_compile (child (.ofInt (-2)))).1 .child _
    (.child (Number.integer?_ofInt (-2)) (by decide)) (List.forall_mem_nil _)
  have htext : Operator.child.applied ([.bare (Decimal.ofInt (-2))].map Lexeme.spelling) =
      "@child(-2)" := by decide +kernel
  rw [htext] at hindex
  exact ⟨hbuilt, hread, hsame.2, hindex.1,
    (stages_iff_compile (trimPrefix "a`b")).2 "a`b" List.mem_cons_self (by decide)⟩

end Call

end MarkupQuery
