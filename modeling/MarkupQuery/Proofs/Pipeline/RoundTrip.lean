import MarkupQuery.Proofs.Pipeline.Lexing

/-!
# Pipelines that are read back

The text of a pipeline is read as the pipeline itself exactly when there is a stage and all that
the stages hold can be written. What is read always is of this kind, whatever the text, so the
pipelines that are read back are all that reading can give.

## Main definitions

* `Stage.IsValid`: whether all that a stage holds can be written
* `Pipeline.Part.stages`: the stages that are written as one application

## Main results

* `Pipeline.Means.isValid`: what a query means has a stage and valid stages only
* `Pipeline.exists_lexes_toText`: the text of a valid pipeline is cut into lexemes that mean it
* `Pipeline.compile_toText_eq_ok_iff`: the pipelines that are read back
-/

namespace MarkupQuery

/-! ## Valid stages -/

/-- Whether all that a stage holds can be written: names and texts are made of their units, and a
child index is within the bound. -/
def Stage.IsValid : Stage → Prop
  | .select .flat => True
  | .select (.path step) => step.IsValid
  | .select (.attr field none) => field.IsMadeOf CodeUnit.fieldUnits
  | .select (.attr field (some value)) =>
    field.IsMadeOf CodeUnit.fieldUnits ∧ value.IsMadeOf CodeUnit.fieldUnits
  | .select (.identifier value _) => value.IsMadeOf CodeUnit.fieldUnits
  | .select (.className value _) => value.IsMadeOf CodeUnit.fieldUnits
  | .select (.child index) => index.natAbs ≤ 2 ^ 53 - 1
  | .extract .text => True
  | .extract (.attr field) => field.IsMadeOf CodeUnit.fieldUnits
  | .edit .trim => True
  | .edit (.trimPrefix lead) => lead.IsMadeOf CodeUnit.letters
  | .edit (.trimSuffix tail) => tail.IsMadeOf CodeUnit.letters

theorem Operator.Means.isValid {name : Text} {arguments : List Lexeme} {p : Pipeline}
    (h : Operator.Means name arguments p) : p ≠ [] ∧ ∀ s ∈ p, s.IsValid := by
  cases h
  case path hne hvalid =>
    refine ⟨by simpa using hne, fun s hs => ?_⟩
    obtain ⟨step, hstep, rfl⟩ := List.mem_map.mp hs
    exact hvalid step hstep
  all_goals refine ⟨List.cons_ne_nil _ _, fun s hs => ?_⟩
  all_goals rw [List.mem_singleton] at hs; subst hs
  case attrValue hfield hvalue => exact ⟨hfield, hvalue⟩
  case child hindex => exact hindex
  case flat | text | trim => trivial
  all_goals assumption

/-- What a query means has a stage and valid stages only. -/
theorem Pipeline.Means.isValid {lexemes : List Lexeme} {p : Pipeline}
    (h : Pipeline.Means lexemes p) : p ≠ [] ∧ ∀ s ∈ p, s.IsValid := by
  induction h with
  | single h => exact h.isValid
  | pipe h _ ih =>
    obtain ⟨hne, hp⟩ := h.isValid
    refine ⟨by simp [hne], fun s hs => ?_⟩
    rcases List.mem_append.mp hs with hs | hs
    · exact hp s hs
    · exact ih.2 s hs

/-! ## What is written in backticks and bare -/

section Plain

variable {t : Text}

theorem backtick_notMem_of_isMadeOf {alphabet : Text} (halphabet : CodeUnit.backtick ∉ alphabet)
    (h : t.IsMadeOf alphabet) : CodeUnit.backtick ∉ t :=
  fun hmem => halphabet (h.2 _ hmem)

/-- A field needs no more than backticks around it. -/
theorem isPlain_field (h : t.IsMadeOf CodeUnit.fieldUnits) : Lexeme.IsPlain (.literal t) :=
  .literal (backtick_notMem_of_isMadeOf (by decide) h)

/-- Neither does a text to take off. -/
theorem isPlain_text (h : t.IsMadeOf CodeUnit.letters) : Lexeme.IsPlain (.literal t) :=
  .literal (backtick_notMem_of_isMadeOf (by decide) h)

/-- Neither does a path: it is made of slashes and tag units. -/
theorem isPlain_path {p : Path} (h : ∀ s ∈ p, s.IsValid) :
    Lexeme.IsPlain (.literal (Path.toText p)) := by
  refine .literal fun hmem => ?_
  obtain ⟨s, hs, hmem⟩ := List.mem_flatMap.mp hmem
  rcases List.mem_append.mp hmem with hslash | htag
  · cases haxis : s.axis <;> rw [haxis] at hslash <;> revert hslash <;> decide
  · exact backtick_notMem_of_isMadeOf (by decide) (h s hs) htag

theorem isPlain_flag (b : Bool) : Lexeme.IsPlain (.bare (CaseFlag.toText b)) := by
  obtain ⟨c, hb, hc⟩ : ∃ c, CaseFlag.toText b = [c] ∧ (c = CodeUnit.zero ∨ c = CodeUnit.one) := by
    cases b with
    | false => exact ⟨_, rfl, .inl rfl⟩
    | true => exact ⟨_, rfl, .inr rfl⟩
  rw [hb]
  refine .bare (List.cons_ne_nil _ _) ?_ ?_
  · rcases hc with rfl | rfl <;> simp <;> decide
  · rcases hc with rfl | rfl <;> simp <;> decide

theorem digit_ne_delimiter {c : CodeUnit} (h : c ∈ CodeUnit.digits) :
    Lexeme.isDelimiter c = false ∧ c ≠ CodeUnit.atSign ∧ c ≠ CodeUnit.hash := by
  have hall : (CodeUnit.digits.all fun d => !Lexeme.isDelimiter d && d != CodeUnit.atSign &&
      d != CodeUnit.hash) = true := by decide
  simpa [and_assoc] using List.all_eq_true.mp hall c h

/-- A numeral is written bare: no digit is a delimiter or a sign of an operator. -/
theorem isPlain_numeral {n : Int} (h : Decimal.SignedNumeral t n) : Lexeme.IsPlain (.bare t) := by
  have hdigits : ∀ {t : Text} {n : Nat}, Decimal.Numeral t n → ∀ c ∈ t,
      Lexeme.isDelimiter c = false ∧ c ≠ CodeUnit.atSign ∧ c ≠ CodeUnit.hash := by
    intro t n h c hc
    exact digit_ne_delimiter (CodeUnit.isDigit_iff.mp (List.all_eq_true.mp h.all_isDigit c hc))
  cases h with
  | plain h =>
    refine .bare h.ne_nil (fun c hc => (hdigits h c hc).1) fun c hc => ?_
    exact (hdigits h c (List.mem_of_mem_head? hc)).2
  | negated h =>
    refine .bare (List.cons_ne_nil _ _) (fun c hc => ?_) (by simp; decide)
    rcases List.mem_cons.mp hc with rfl | hc
    · decide
    · exact (hdigits h c hc).1

end Plain

/-! ## Parts -/

namespace Pipeline

/-- The stages that a part writes. -/
def Part.stages : Part → Pipeline
  | .path steps => steps.map fun s => .select (.path s)
  | .stage s => [s]

/-- Whether all that a part holds can be written. -/
def Part.IsValid : Part → Prop
  | .path steps => steps ≠ [] ∧ ∀ s ∈ steps, s.IsValid
  | .stage s => s.IsValid

/-- The application as which a valid part is written means the stages of the part. -/
theorem Part.exists_applied {part : Part} (h : part.IsValid) :
    ∃ (operator : Operator) (arguments : List Lexeme),
      part.toText = operator.applied (arguments.map Lexeme.spelling) ∧
        (∀ l ∈ arguments, l.IsPlain) ∧ Operator.Means operator.name arguments part.stages := by
  cases part with
  | path steps =>
    obtain ⟨hne, hvalid⟩ := h
    refine ⟨.path, [.literal (Path.toText steps)], rfl, ?_, .path hne hvalid⟩
    simpa using isPlain_path hvalid
  | stage s =>
    have hvalid : s.IsValid := h
    rcases s with selection | extraction | edit
    · rcases selection with _ | step | ⟨field, _ | value⟩ | ⟨value, _ | _⟩ | ⟨value, _ | _⟩ | index
      · exact ⟨.flat, [], rfl, by simp, .flat⟩
      · have hstep : ∀ s ∈ [step], s.IsValid := by
          intro s hs
          rw [List.mem_singleton] at hs
          exact hs ▸ hvalid
        refine ⟨.path, [.literal (Path.toText [step])], ?_, ?_, .path (List.cons_ne_nil _ _) hstep⟩
        · simp [toText, Stage.toText, Selection.toText, Lexeme.spelling]
        · simpa using isPlain_path hstep
      · exact ⟨.attr, [.literal field], rfl, by simpa using isPlain_field hvalid, .attr hvalid⟩
      · obtain ⟨hfield, hvalue⟩ := hvalid
        refine ⟨.attr, [.literal field, .literal value], rfl, ?_, .attrValue hfield hvalue⟩
        simpa using ⟨isPlain_field hfield, isPlain_field hvalue⟩
      · refine ⟨.identifier, [.literal value, .bare (CaseFlag.toText false)], rfl, ?_,
          .identifierFlag hvalid⟩
        simpa using ⟨isPlain_field hvalid, isPlain_flag false⟩
      · refine ⟨.identifier, [.literal value], rfl, ?_, .identifier hvalid⟩
        simpa using isPlain_field hvalid
      · refine ⟨.className, [.literal value, .bare (CaseFlag.toText false)], rfl, ?_,
          .classNameFlag hvalid⟩
        simpa using ⟨isPlain_field hvalid, isPlain_flag false⟩
      · refine ⟨.className, [.literal value], rfl, ?_, .className hvalid⟩
        simpa using isPlain_field hvalid
      · have hnumeral := Decimal.signedNumeral_ofInt index
        refine ⟨.child, [.bare (Decimal.ofInt index)], rfl, ?_, .child hnumeral hvalid⟩
        simpa using isPlain_numeral hnumeral
    · rcases extraction with _ | field
      · exact ⟨.text, [], rfl, by simp, .text⟩
      · refine ⟨.attrText, [.literal field], rfl, ?_, .attrText hvalid⟩
        simpa using isPlain_field hvalid
    · rcases edit with _ | lead | tail
      · exact ⟨.trim, [], rfl, by simp, .trim⟩
      · refine ⟨.trimPrefix, [.literal lead], rfl, ?_, .trimPrefix hvalid⟩
        simpa using isPlain_text hvalid
      · refine ⟨.trimSuffix, [.literal tail], rfl, ?_, .trimSuffix hvalid⟩
        simpa using isPlain_text hvalid

theorem stages_consStep (step : Step) (ps : List Part) :
    (consStep step ps).flatMap Part.stages = .select (.path step) :: ps.flatMap Part.stages := by
  unfold consStep
  split
  · simp [Part.stages]
  · simp [Part.stages]

/-- Gathering steps into paths drops, joins and reorders nothing. -/
theorem flatMap_stages_parts (p : Pipeline) : p.parts.flatMap Part.stages = p := by
  fun_induction parts p with
  | case1 => rfl
  | case2 step rest ih => rw [stages_consStep, ih]
  | case3 s rest _ ih => rw [List.flatMap_cons, ih]; rfl

theorem isValid_consStep {step : Step} (hstep : step.IsValid) {ps : List Part}
    (hps : ∀ q ∈ ps, q.IsValid) : ∀ q ∈ consStep step ps, q.IsValid := by
  unfold consStep
  split
  · next steps rest =>
    intro q hq
    rcases List.mem_cons.mp hq with rfl | hq
    · obtain ⟨-, hsteps⟩ := hps (.path steps) List.mem_cons_self
      refine ⟨List.cons_ne_nil _ _, fun s hs => ?_⟩
      rcases List.mem_cons.mp hs with rfl | hs
      · exact hstep
      · exact hsteps s hs
    · exact hps q (List.mem_cons_of_mem _ hq)
  · intro q hq
    rcases List.mem_cons.mp hq with rfl | hq
    · exact ⟨List.cons_ne_nil _ _, by simpa using hstep⟩
    · exact hps q hq

/-- The parts of valid stages are valid. -/
theorem isValid_parts {p : Pipeline} (h : ∀ s ∈ p, s.IsValid) : ∀ q ∈ p.parts, q.IsValid := by
  fun_induction parts p with
  | case1 => simp
  | case2 step rest ih =>
    exact isValid_consStep (h _ List.mem_cons_self) (ih fun s hs => h s (List.mem_cons_of_mem _ hs))
  | case3 s rest _ ih =>
    intro q hq
    rcases List.mem_cons.mp hq with rfl | hq
    · exact h s List.mem_cons_self
    · exact ih (fun s hs => h s (List.mem_cons_of_mem _ hs)) q hq

/-! ## Pipelines -/

/-- Valid parts joined by pipes are cut into lexemes that mean their stages. -/
theorem exists_lexes_of_parts {ps : List Part} (hne : ps ≠ []) (h : ∀ q ∈ ps, q.IsValid) :
    ∃ lexemes, Text.Lexes (List.intercalate " | " (ps.map Part.toText)) lexemes ∧
      Means lexemes (ps.flatMap Part.stages) := by
  induction ps with
  | nil => exact absurd rfl hne
  | cons part ps ih =>
    obtain ⟨operator, arguments, htext, hplain, hmeans⟩ :=
      Part.exists_applied (h part List.mem_cons_self)
    cases ps with
    | nil =>
      refine ⟨Operator.lexemes operator.name arguments, ?_, by simpa using Means.single hmeans⟩
      simpa [htext] using Text.lexes_applied operator hplain Text.lexes_nil
    | cons next ps =>
      obtain ⟨lexemes, hlexes, hrest⟩ :=
        ih (List.cons_ne_nil _ _) fun q hq => h q (List.mem_cons_of_mem _ hq)
      refine ⟨Operator.lexemes operator.name arguments ++ .pipe :: lexemes, ?_, .pipe hmeans hrest⟩
      have hseparator : (" | " : Text) = [CodeUnit.space, CodeUnit.pipe, CodeUnit.space] := by
        decide
      have hpipe := Text.lexes_layout (by decide : CodeUnit.isLayout CodeUnit.space = true)
        (Text.lexes_punctuation (by decide : Lexeme.punctuation? CodeUnit.pipe = some .pipe)
          (Text.lexes_layout (by decide : CodeUnit.isLayout CodeUnit.space = true) hlexes))
      simpa [htext, hseparator] using Text.lexes_applied operator hplain hpipe

/-- The text of a valid pipeline is cut into lexemes that mean it. -/
theorem exists_lexes_toText {p : Pipeline} (hne : p ≠ []) (h : ∀ s ∈ p, s.IsValid) :
    ∃ lexemes, Text.Lexes p.toText lexemes ∧ Means lexemes p := by
  have hparts : p.parts ≠ [] := by
    intro hnil
    have := flatMap_stages_parts p
    rw [hnil] at this
    exact hne this.symm
  have := exists_lexes_of_parts hparts (isValid_parts h)
  rwa [flatMap_stages_parts] at this

theorem compile_toText {p : Pipeline} (hne : p ≠ []) (h : ∀ s ∈ p, s.IsValid) :
    compile p.toText = .ok p := by
  obtain ⟨lexemes, hlexes, hmeans⟩ := exists_lexes_toText hne h
  obtain ⟨tokens, hscan, rfl⟩ := hlexes 0 0
  exact compile_of_means (by rw [tokenize, hscan]; rfl) hmeans

theorem isValid_of_compile {text : Text} {p : Pipeline} (h : compile text = .ok p) :
    p ≠ [] ∧ ∀ s ∈ p, s.IsValid := by
  obtain ⟨tokens, -, hmeans⟩ := means_of_compile h
  exact hmeans.isValid

/-- **The pipelines that are read back** from their text are those with a stage and valid stages
only, and reading gives no others, whatever the text. The applications in which any pipeline is
written hold all its stages, each once and in order. -/
theorem compile_toText_eq_ok_iff (p : Pipeline) :
    (compile p.toText = .ok p ↔ p ≠ [] ∧ ∀ s ∈ p, s.IsValid) ∧
      ((∃ text, compile text = .ok p) ↔ p ≠ [] ∧ ∀ s ∈ p, s.IsValid) ∧
      p.parts.flatMap Part.stages = p := by
  refine ⟨⟨isValid_of_compile, fun ⟨hne, h⟩ => compile_toText hne h⟩, ?_, flatMap_stages_parts p⟩
  constructor
  · rintro ⟨text, h⟩
    exact isValid_of_compile h
  · rintro ⟨hne, h⟩
    exact ⟨p.toText, compile_toText hne h⟩

end Pipeline

end MarkupQuery
