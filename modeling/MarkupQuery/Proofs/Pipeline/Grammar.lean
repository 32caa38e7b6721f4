import MarkupQuery.Proofs.Pipeline.Argument

/-!
# The grammar of queries

A query is one stage or more with a pipe between any two, and a stage is an operator with
arguments in parentheses. The grammar says of lexemes which of them make up a query, and which
pipeline the query means; it knows nothing of positions, segments or the order of checks.
Reading a query succeeds exactly on the texts of the grammar and gives what they mean.

## Main definitions

* `Operator.Means`: the stages that a name stands for with its arguments
* `Operator.lexemes`: an operator with its arguments in parentheses
* `Pipeline.Means`: the pipeline that a query means
* `Segment.Reads`: the ways in which a segment is read

## Main results

* `Operator.stages?_eq_ok_iff`, `Segment.stages_eq_ok_iff`: an operator and a segment are read as
  what they mean
* `Segment.means_of_mapM`, `Segment.mapM_of_means`: so are the segments between the pipes
* `Segment.all_append_pipe`: the segments of two token lists with a pipe between them
* `Pipeline.compile_eq_ok_iff_means`: the texts that are read, and as what
-/

namespace MarkupQuery

/-! ## Meaning -/

/-- The stages that the operator of a name stands for with the given arguments, each a literal or a
bare run. -/
inductive Operator.Means : Text → List Lexeme → Pipeline → Prop
  | flat : Means "@flat" [] [.select .flat]
  /-- A stage for each step of a path. -/
  | path {p : Path} (hne : p ≠ []) (hp : ∀ s ∈ p, s.IsValid) :
      Means "@path" [.literal (Path.toText p)] (p.map fun s => .select (.path s))
  | attr {field : Text} (hfield : field.IsMadeOf CodeUnit.fieldUnits) :
      Means "@attr" [.literal field] [.select (.attr field none)]
  | attrValue {field value : Text} (hfield : field.IsMadeOf CodeUnit.fieldUnits)
      (hvalue : value.IsMadeOf CodeUnit.fieldUnits) :
      Means "@attr" [.literal field, .literal value] [.select (.attr field (some value))]
  /-- An identifier in the case that is written. -/
  | identifier {value : Text} (hvalue : value.IsMadeOf CodeUnit.fieldUnits) :
      Means "@id" [.literal value] [.select (.identifier value true)]
  | identifierFlag {value : Text} {flag : Bool}
      (hvalue : value.IsMadeOf CodeUnit.fieldUnits) :
      Means "@id" [.literal value, .bare (CaseFlag.toText flag)]
        [.select (.identifier value flag)]
  | className {value : Text} (hvalue : value.IsMadeOf CodeUnit.fieldUnits) :
      Means "@class" [.literal value] [.select (.className value true)]
  | classNameFlag {value : Text} {flag : Bool}
      (hvalue : value.IsMadeOf CodeUnit.fieldUnits) :
      Means "@class" [.literal value, .bare (CaseFlag.toText flag)]
        [.select (.className value flag)]
  /-- A child index, which is a numeral within the bound. -/
  | child {numeral : Text} {index : Int} (hnumeral : Decimal.SignedNumeral numeral index)
      (hindex : index.natAbs ≤ 2 ^ 53 - 1) :
      Means "@child" [.bare numeral] [.select (.child index)]
  | text : Means "#text" [] [.extract .text]
  | trim : Means "#trim" [] [.edit .trim]
  | trimPrefix {lead : Text} (hlead : lead.IsMadeOf CodeUnit.letters) :
      Means "#trimPrefix" [.literal lead] [.edit (.trimPrefix lead)]
  | trimSuffix {tail : Text} (htail : tail.IsMadeOf CodeUnit.letters) :
      Means "#trimSuffix" [.literal tail] [.edit (.trimSuffix tail)]
  | attrText {field : Text} (hfield : field.IsMadeOf CodeUnit.fieldUnits) :
      Means "#attr" [.literal field] [.extract (.attr field)]

/-- The name of an operator, and arguments in parentheses with commas between them. -/
def Operator.lexemes (name : Text) (arguments : List Lexeme) : List Lexeme :=
  .operator name :: .lparen :: (arguments.intersperse .comma ++ [.rparen])

/-- The pipeline that a query means: the stages of its operators in order. -/
inductive Pipeline.Means : List Lexeme → Pipeline → Prop
  /-- A query of one operator. -/
  | single {name : Text} {arguments : List Lexeme} {p : Pipeline}
      (h : Operator.Means name arguments p) : Means (Operator.lexemes name arguments) p
  /-- An operator, a pipe, and the rest of the query. -/
  | pipe {name : Text} {arguments rest : List Lexeme} {p q : Pipeline}
      (h : Operator.Means name arguments p) (hrest : Means rest q) :
      Means (Operator.lexemes name arguments ++ .pipe :: rest) (p ++ q)

/-! ## Operators -/

namespace Operator

theorem Means.isArgument {name : Text} {arguments : List Lexeme} {p : Pipeline}
    (h : Means name arguments p) : ∀ l ∈ arguments, l.IsArgument := by
  intro l hl
  cases h <;> simp only [List.mem_cons, List.not_mem_nil, or_false] at hl
  case attrValue =>
    rcases hl with rfl | rfl
    · exact .literal _
    · exact .literal _
  case identifierFlag | classNameFlag =>
    rcases hl with rfl | rfl
    · exact .literal _
    · exact .bare _
  case child => exact hl ▸ .bare _
  all_goals exact hl ▸ .literal _

/-- What has a meaning is the name of an operator. -/
theorem Means.exists_name_eq {name : Text} {arguments : List Lexeme} {p : Pipeline}
    (h : Means name arguments p) : ∃ operator : Operator, operator.name = name := by
  cases h with
  | flat => exact ⟨.flat, rfl⟩
  | path => exact ⟨.path, rfl⟩
  | attr | attrValue => exact ⟨.attr, rfl⟩
  | identifier | identifierFlag => exact ⟨.identifier, rfl⟩
  | className | classNameFlag => exact ⟨.className, rfl⟩
  | child => exact ⟨.child, rfl⟩
  | text => exact ⟨.text, rfl⟩
  | trim => exact ⟨.trim, rfl⟩
  | trimPrefix => exact ⟨.trimPrefix, rfl⟩
  | trimSuffix => exact ⟨.trimSuffix, rfl⟩
  | attrText => exact ⟨.attrText, rfl⟩

theorem ofName?_eq_some_iff {name : Text} {operator : Operator} :
    ofName? name = some operator ↔ name = operator.name := by
  constructor
  · intro h
    have hname := List.find?_some (p := fun o : Operator => o.name == name) h
    exact (beq_iff_eq.mp hname).symm
  · rintro rfl
    cases operator <;> decide

theorem name_injective {o o' : Operator} (h : o.name = o'.name) : o = o' :=
  Option.some.inj ((ofName?_eq_some_iff.mpr rfl).symm.trans (ofName?_eq_some_iff.mpr h))

theorem exists_pair_of_map_eq {α β : Type} {f : α → β} {l : List α} {x y : β}
    (h : l.map f = [x, y]) : ∃ a b, l = [a, b] ∧ f a = x ∧ f b = y := by
  obtain ⟨a, l, rfl, ha, h⟩ := List.map_eq_cons_iff.mp h
  obtain ⟨b, rfl, hb⟩ := List.map_eq_singleton_iff.mp h
  exact ⟨a, b, rfl, ha, hb⟩

/-- Arguments are read as what their operator means with them. -/
theorem stages?_of_means {operator : Operator} {arguments : List Argument} {p : Pipeline}
    (h : Means operator.name (arguments.map Argument.lexeme) p) :
    operator.stages? arguments = some (.ok p) := by
  generalize hname : operator.name = name at h
  generalize hl : arguments.map Argument.lexeme = lexemes at h
  cases h
  case flat =>
    obtain rfl : operator = .flat := name_injective hname
    obtain rfl : arguments = [] := List.map_eq_nil_iff.mp hl
    rfl
  case text =>
    obtain rfl : operator = .text := name_injective hname
    obtain rfl : arguments = [] := List.map_eq_nil_iff.mp hl
    rfl
  case trim =>
    obtain rfl : operator = .trim := name_injective hname
    obtain rfl : arguments = [] := List.map_eq_nil_iff.mp hl
    rfl
  case path steps hne hvalid =>
    obtain rfl : operator = .path := name_injective hname
    obtain ⟨a, rfl, ha⟩ := List.map_eq_singleton_iff.mp hl
    rw [stages?, Argument.path_eq_ok_iff.mpr ⟨ha, hne, hvalid⟩]
    rfl
  case attr hfield =>
    obtain rfl : operator = .attr := name_injective hname
    obtain ⟨a, rfl, ha⟩ := List.map_eq_singleton_iff.mp hl
    rw [stages?, Argument.field_eq_ok_iff.mpr ⟨ha, hfield⟩]
    rfl
  case attrValue hfield hvalue =>
    obtain rfl : operator = .attr := name_injective hname
    obtain ⟨a, b, rfl, ha, hb⟩ := exists_pair_of_map_eq hl
    rw [stages?, Argument.field_eq_ok_iff.mpr ⟨ha, hfield⟩,
      Argument.field_eq_ok_iff.mpr ⟨hb, hvalue⟩]
    rfl
  case identifier hvalue =>
    obtain rfl : operator = .identifier := name_injective hname
    obtain ⟨a, rfl, ha⟩ := List.map_eq_singleton_iff.mp hl
    rw [stages?, Argument.field_eq_ok_iff.mpr ⟨ha, hvalue⟩]
    rfl
  case identifierFlag hvalue =>
    obtain rfl : operator = .identifier := name_injective hname
    obtain ⟨a, b, rfl, ha, hb⟩ := exists_pair_of_map_eq hl
    rw [stages?, Argument.field_eq_ok_iff.mpr ⟨ha, hvalue⟩,
      Argument.caseFlag_eq_ok_iff.mpr hb]
    rfl
  case className hvalue =>
    obtain rfl : operator = .className := name_injective hname
    obtain ⟨a, rfl, ha⟩ := List.map_eq_singleton_iff.mp hl
    rw [stages?, Argument.field_eq_ok_iff.mpr ⟨ha, hvalue⟩]
    rfl
  case classNameFlag hvalue =>
    obtain rfl : operator = .className := name_injective hname
    obtain ⟨a, b, rfl, ha, hb⟩ := exists_pair_of_map_eq hl
    rw [stages?, Argument.field_eq_ok_iff.mpr ⟨ha, hvalue⟩,
      Argument.caseFlag_eq_ok_iff.mpr hb]
    rfl
  case child hnumeral hindex =>
    obtain rfl : operator = .child := name_injective hname
    obtain ⟨a, rfl, ha⟩ := List.map_eq_singleton_iff.mp hl
    rw [stages?, Argument.index_eq_ok_iff.mpr ⟨_, ha, hnumeral, hindex⟩]
    rfl
  case trimPrefix htext =>
    obtain rfl : operator = .trimPrefix := name_injective hname
    obtain ⟨a, rfl, ha⟩ := List.map_eq_singleton_iff.mp hl
    rw [stages?, Argument.text_eq_ok_iff.mpr ⟨ha, htext⟩]
    rfl
  case trimSuffix htext =>
    obtain rfl : operator = .trimSuffix := name_injective hname
    obtain ⟨a, rfl, ha⟩ := List.map_eq_singleton_iff.mp hl
    rw [stages?, Argument.text_eq_ok_iff.mpr ⟨ha, htext⟩]
    rfl
  case attrText hfield =>
    obtain rfl : operator = .attrText := name_injective hname
    obtain ⟨a, rfl, ha⟩ := List.map_eq_singleton_iff.mp hl
    rw [stages?, Argument.field_eq_ok_iff.mpr ⟨ha, hfield⟩]
    rfl

/-- What arguments are read as, their operator means with them. -/
theorem means_of_stages? {operator : Operator} {arguments : List Argument} {p : Pipeline}
    (h : operator.stages? arguments = some (.ok p)) :
    Means operator.name (arguments.map Argument.lexeme) p := by
  unfold stages? at h
  split at h <;>
    simp only [reduceCtorEq, Option.some.injEq, Except.ok.injEq, bind_eq_ok_iff,
      pure_eq_ok_iff] at h
  · exact h ▸ .flat
  · obtain ⟨steps, hsteps, rfl⟩ := h
    obtain ⟨ha, hne, hvalid⟩ := Argument.path_eq_ok_iff.mp hsteps
    simpa [name, ha] using Means.path hne hvalid
  · obtain ⟨field, hfield, rfl⟩ := h
    obtain ⟨ha, hfield⟩ := Argument.field_eq_ok_iff.mp hfield
    simpa [name, ha] using Means.attr hfield
  · obtain ⟨field, hfield, value, hvalue, rfl⟩ := h
    obtain ⟨ha, hfield⟩ := Argument.field_eq_ok_iff.mp hfield
    obtain ⟨hb, hvalue⟩ := Argument.field_eq_ok_iff.mp hvalue
    simpa [name, ha, hb] using Means.attrValue hfield hvalue
  · obtain ⟨value, hvalue, rfl⟩ := h
    obtain ⟨ha, hvalue⟩ := Argument.field_eq_ok_iff.mp hvalue
    simpa [name, ha] using Means.identifier hvalue
  · obtain ⟨value, hvalue, flag, hflag, rfl⟩ := h
    obtain ⟨ha, hvalue⟩ := Argument.field_eq_ok_iff.mp hvalue
    simpa [name, ha, Argument.caseFlag_eq_ok_iff.mp hflag] using Means.identifierFlag hvalue
  · obtain ⟨value, hvalue, rfl⟩ := h
    obtain ⟨ha, hvalue⟩ := Argument.field_eq_ok_iff.mp hvalue
    simpa [name, ha] using Means.className hvalue
  · obtain ⟨value, hvalue, flag, hflag, rfl⟩ := h
    obtain ⟨ha, hvalue⟩ := Argument.field_eq_ok_iff.mp hvalue
    simpa [name, ha, Argument.caseFlag_eq_ok_iff.mp hflag] using Means.classNameFlag hvalue
  · obtain ⟨index, hindex, rfl⟩ := h
    obtain ⟨numeral, ha, hnumeral, hindex⟩ := Argument.index_eq_ok_iff.mp hindex
    simpa [name, ha] using Means.child hnumeral hindex
  · exact h ▸ .text
  · exact h ▸ .trim
  · obtain ⟨lead, hlead, rfl⟩ := h
    obtain ⟨ha, hlead⟩ := Argument.text_eq_ok_iff.mp hlead
    simpa [name, ha] using Means.trimPrefix hlead
  · obtain ⟨tail, htail, rfl⟩ := h
    obtain ⟨ha, htail⟩ := Argument.text_eq_ok_iff.mp htail
    simpa [name, ha] using Means.trimSuffix htail
  · obtain ⟨field, hfield, rfl⟩ := h
    obtain ⟨ha, hfield⟩ := Argument.field_eq_ok_iff.mp hfield
    simpa [name, ha] using Means.attrText hfield

theorem stages?_eq_ok_iff {operator : Operator} {arguments : List Argument} {p : Pipeline} :
    operator.stages? arguments = some (.ok p) ↔
      Means operator.name (arguments.map Argument.lexeme) p :=
  ⟨means_of_stages?, stages?_of_means⟩

/-- No pipe stands in an operator with its arguments. -/
theorem pipe_notMem_lexemes {name : Text} {arguments : List Lexeme}
    (h : ∀ l ∈ arguments, l.IsArgument) : Lexeme.pipe ∉ lexemes name arguments := by
  have hinner : Lexeme.pipe ∉ arguments.intersperse .comma := by
    induction arguments with
    | nil => simp
    | cons l arguments ih =>
      have hl : Lexeme.pipe ≠ l := by
        rintro rfl
        cases h _ List.mem_cons_self
      have hrest := ih fun m hm => h m (List.mem_cons_of_mem _ hm)
      cases arguments with
      | nil => simpa using hl
      | cons m arguments => simpa [hl] using hrest
  simp [lexemes, hinner]

end Operator

/-! ## Segments -/

namespace Segment

/-- Arguments stand in parentheses, the closing one at the end of the segment. -/
theorem arguments_eq_ok_iff {operator : Operator} {name : Token} {tokens : List Token}
    {as : List Argument} :
    arguments operator name tokens = .ok as ↔
      ∃ opening inner closing, tokens = opening :: (inner ++ [closing]) ∧
        opening.lexeme = .lparen ∧ closing.lexeme = .rparen ∧ Argument.list inner = .ok as := by
  constructor
  · intro h
    rcases tokens with _ | ⟨opening, rest⟩
    · simp [arguments] at h
    rw [arguments] at h
    split at h
    · next hopening =>
      split at h
      · exact absurd h (by simp)
      · next closing hlast =>
        split at h
        · next hclosing =>
          obtain ⟨inner, rfl⟩ := List.getLast?_eq_some_iff.mp hlast
          rw [List.dropLast_concat] at h
          exact ⟨opening, inner, closing, rfl, hopening, hclosing, h⟩
        · exact absurd h (by simp)
    · exact absurd h (by simp)
  · rintro ⟨opening, inner, closing, rfl, hopening, hclosing, h⟩
    simpa [arguments, hopening, hclosing] using h

variable {operator : Operator} {first : Token} {rest : List Token}

/-- The arguments of an operator are read from how it is applied to them. -/
theorem exists_arguments {lexemes : List Lexeme}
    (h : (first :: rest).map Token.lexeme = Operator.lexemes operator.name lexemes)
    (hall : ∀ l ∈ lexemes, l.IsArgument) :
    first.lexeme = .operator operator.name ∧
      ∃ as, arguments operator first rest = .ok as ∧ as.map Argument.lexeme = lexemes := by
  obtain ⟨hfirst, hrest⟩ : first.lexeme = .operator operator.name ∧
      rest.map Token.lexeme = .lparen :: (lexemes.intersperse .comma ++ [.rparen]) := by
    simpa [Operator.lexemes] using h
  obtain ⟨opening, rest, rfl, hopening, hrest⟩ := List.map_eq_cons_iff.mp hrest
  obtain ⟨inner, last, rfl, hinner, hlast⟩ := List.map_eq_append_iff.mp hrest
  obtain ⟨closing, rfl, hclosing⟩ := List.map_eq_singleton_iff.mp hlast
  obtain ⟨as, hlist, hmap⟩ := Argument.exists_list hinner hall
  exact ⟨hfirst, as,
    arguments_eq_ok_iff.mpr ⟨opening, inner, closing, rfl, hopening, hclosing, hlist⟩, hmap⟩

/-- And only from there. -/
theorem lexemes_of_arguments {as : List Argument} (hfirst : first.lexeme = .operator operator.name)
    (h : arguments operator first rest = .ok as) :
    (first :: rest).map Token.lexeme = Operator.lexemes operator.name (as.map Argument.lexeme) := by
  obtain ⟨opening, inner, closing, rfl, hopening, hclosing, hlist⟩ := arguments_eq_ok_iff.mp h
  simp [Operator.lexemes, hfirst, hopening, hclosing, Argument.lexemes_of_list hlist]

/-- An operator with its arguments in parentheses is read as the stages that it makes of the
arguments. -/
theorem exists_stages_eq {lexemes : List Lexeme}
    (h : (first :: rest).map Token.lexeme = Operator.lexemes operator.name lexemes)
    (hall : ∀ l ∈ lexemes, l.IsArgument) :
    ∃ as : List Argument, as.map Argument.lexeme = lexemes ∧
      ∀ result, operator.stages? as = some result → stages first rest = result := by
  obtain ⟨hfirst, as, has, hmap⟩ := exists_arguments h hall
  refine ⟨as, hmap, fun result hresult => ?_⟩
  simp only [stages, hfirst, Operator.ofName?_eq_some_iff.mpr rfl, has, hresult, bind, Except.bind]

/-- The ways in which a segment is read: the first check that fails, or what the operator makes of
its arguments. -/
inductive Reads (first : Token) (rest : List Token) : Except Fault Pipeline → Prop
  | stray (hfirst : ∀ name, first.lexeme ≠ .operator name) :
      Reads first rest (.error ⟨.operatorExpected first.lexeme.value, first.start⟩)
  | unknown {name : Text} (hfirst : first.lexeme = .operator name)
      (hname : Operator.ofName? name = none) :
      Reads first rest (.error ⟨.unknownOperator name, first.start⟩)
  | misshapen {operator : Operator} {f : Fault} (hfirst : first.lexeme = .operator operator.name)
      (has : arguments operator first rest = .error f) : Reads first rest (.error f)
  | miscounted {operator : Operator} {as : List Argument}
      (hfirst : first.lexeme = .operator operator.name)
      (has : arguments operator first rest = .ok as) (hnone : operator.stages? as = none) :
      Reads first rest (.error ⟨.arity operator as.length, first.start⟩)
  | applied {operator : Operator} {as : List Argument} {result : Except Fault Pipeline}
      (hfirst : first.lexeme = .operator operator.name)
      (has : arguments operator first rest = .ok as)
      (hsome : operator.stages? as = some result) : Reads first rest result

theorem reads_stages (first : Token) (rest : List Token) :
    Reads first rest (stages first rest) := by
  unfold stages
  split
  · next name hfirst =>
    split
    · next hname => exact .unknown hfirst hname
    · next operator hname =>
      obtain rfl := Operator.ofName?_eq_some_iff.mp hname
      cases has : arguments operator first rest with
      | error f => exact .misshapen hfirst has
      | ok as =>
        dsimp only [bind, Except.bind]
        split
        · next hnone => exact .miscounted hfirst has hnone
        · next result hsome => exact .applied hfirst has hsome
  · next hfirst => exact .stray hfirst

/-- A segment is read as what its operator means with its arguments. -/
theorem stages_eq_ok_iff {p : Pipeline} :
    stages first rest = .ok p ↔
      ∃ (name : Text) (arguments : List Lexeme),
        (first :: rest).map Token.lexeme = Operator.lexemes name arguments ∧
          Operator.Means name arguments p := by
  constructor
  · intro h
    have hreads := reads_stages first rest
    rw [h] at hreads
    cases hreads with
    | @applied operator as _ hfirst has hsome =>
      exact ⟨operator.name, as.map Argument.lexeme, lexemes_of_arguments hfirst has,
        Operator.stages?_eq_ok_iff.mp hsome⟩
  · rintro ⟨name, lexemes, htokens, hmeans⟩
    obtain ⟨operator, rfl⟩ := hmeans.exists_name_eq
    obtain ⟨as, rfl, hstages⟩ := exists_stages_eq htokens hmeans.isArgument
    exact hstages _ (Operator.stages?_eq_ok_iff.mpr hmeans)

theorem compile_eq_ok_iff {whole : Text} {segment : Segment} {p : Pipeline} :
    segment.compile whole = .ok p ↔
      ∃ (name : Text) (arguments : List Lexeme),
        segment.tokens.map Token.lexeme = Operator.lexemes name arguments ∧
          Operator.Means name arguments p := by
  obtain ⟨tokens, stop⟩ := segment
  cases tokens with
  | nil => simp [compile, Operator.lexemes]
  | cons first rest => rw [compile, mapError_eq_ok_iff, stages_eq_ok_iff]

/-! ## Cutting at the pipes -/

/-- No token of the list is a pipe. -/
def PipeFree (tokens : List Token) : Prop := ∀ t ∈ tokens, t.lexeme ≠ .pipe

theorem pipeFree_iff {tokens : List Token} :
    PipeFree tokens ↔ Lexeme.pipe ∉ tokens.map Token.lexeme := by
  simp [PipeFree]

/-- The segments of a token list. -/
def all (length : Nat) (tokens : List Token) : List Segment :=
  (cut length tokens).1 :: (cut length tokens).2

/-- A pipe ends a segment without tokens, and all other segments come after it. -/
theorem cut_cons_of_pipe {t : Token} (ht : t.lexeme = .pipe) (length : Nat) (tokens : List Token) :
    cut length (t :: tokens) = (⟨[], t.start⟩, all length tokens) :=
  if_pos ht

/-- Any other token comes first in the first segment. -/
theorem cut_cons_of_ne {t : Token} (ht : t.lexeme ≠ .pipe) (length : Nat) (tokens : List Token) :
    cut length (t :: tokens) =
      (⟨t :: (cut length tokens).1.tokens, (cut length tokens).1.stop⟩, (cut length tokens).2) :=
  if_neg ht

/-- The segments of two token lists with a pipe between them: the pipe ends the last segment of
the one. -/
theorem all_append_pipe {pipe : Token} (hpipe : pipe.lexeme = .pipe) (length : Nat)
    (before after : List Token) :
    all length (before ++ pipe :: after) = all pipe.start before ++ all length after := by
  have hcut : cut length (before ++ pipe :: after) =
      ((cut pipe.start before).1, (cut pipe.start before).2 ++ all length after) := by
    induction before with
    | nil => exact cut_cons_of_pipe hpipe length after
    | cons t before ih =>
      rw [List.cons_append]
      by_cases ht : t.lexeme = .pipe
      · rw [cut_cons_of_pipe ht, cut_cons_of_pipe ht, all, ih]
        rfl
      · rw [cut_cons_of_ne ht, cut_cons_of_ne ht, ih]
  rw [all, hcut]
  rfl

/-- Without a pipe there is one segment. -/
theorem all_of_pipeFree {tokens : List Token} (h : PipeFree tokens) (length : Nat) :
    all length tokens = [⟨tokens, length⟩] := by
  induction tokens with
  | nil => rfl
  | cons t tokens ih =>
    obtain ⟨hfirst, hrest⟩ := List.cons.inj (ih fun u hu => h u (List.mem_cons_of_mem _ hu))
    rw [all, cut_cons_of_ne (h t List.mem_cons_self), hfirst, hrest]

/-- Every token list is one segment, or a segment, a pipe and a token list. -/
theorem cut_induction {motive : List Token → Prop}
    (single : ∀ tokens, PipeFree tokens → motive tokens)
    (pipe : ∀ tokens t rest, PipeFree tokens → t.lexeme = .pipe → motive rest →
      motive (tokens ++ t :: rest)) (tokens : List Token) : motive tokens := by
  -- The first segment grows to the left, so all token lists before a given one are considered.
  suffices h : ∀ front, PipeFree front → motive (front ++ tokens) from
    h [] fun _ h => absurd h List.not_mem_nil
  induction tokens with
  | nil =>
    intro front hfront
    rw [List.append_nil]
    exact single front hfront
  | cons t tokens ih =>
    intro front hfront
    by_cases ht : t.lexeme = .pipe
    · exact pipe front t tokens hfront ht (ih [] fun _ h => absurd h List.not_mem_nil)
    · rw [List.append_cons]
      refine ih _ fun u hu => ?_
      rcases List.mem_append.mp hu with hu | hu
      · exact hfront u hu
      · rw [List.mem_singleton] at hu
        exact hu ▸ ht

theorem mapM_cons_eq_ok_iff {whole : Text} {segment : Segment} {segments : List Segment}
    {ps : List Pipeline} :
    (segment :: segments).mapM (compile whole) = .ok ps ↔
      ∃ p qs, segment.compile whole = .ok p ∧ segments.mapM (compile whole) = .ok qs ∧
        p :: qs = ps := by
  simp only [List.mapM_cons, bind_eq_ok_iff, pure_eq_ok_iff]
  constructor
  · rintro ⟨p, hp, qs, hqs, rfl⟩
    exact ⟨p, qs, hp, hqs, rfl⟩
  · rintro ⟨p, qs, hp, hqs, rfl⟩
    exact ⟨p, hp, qs, hqs, rfl⟩

/-- What the segments of a token list are read as, the lexemes mean. -/
theorem means_of_mapM {whole : Text} {length : Nat} {tokens : List Token} {ps : List Pipeline}
    (h : (all length tokens).mapM (compile whole) = .ok ps) :
    Pipeline.Means (tokens.map Token.lexeme) ps.flatten := by
  induction tokens using cut_induction generalizing ps with
  | single tokens hfree =>
    rw [all_of_pipeFree hfree, mapM_cons_eq_ok_iff] at h
    obtain ⟨p, qs, hp, hqs, rfl⟩ := h
    obtain ⟨name, arguments, hlexemes, hmeans⟩ := compile_eq_ok_iff.mp hp
    obtain rfl : [] = qs := pure_eq_ok_iff.mp hqs
    simp only [List.flatten_cons, List.flatten_nil, List.append_nil]
    exact hlexemes ▸ .single hmeans
  | pipe tokens t rest hfree ht ih =>
    rw [all_append_pipe ht, all_of_pipeFree hfree, List.singleton_append, mapM_cons_eq_ok_iff] at h
    obtain ⟨p, qs, hp, hqs, rfl⟩ := h
    obtain ⟨name, arguments, hlexemes, hmeans⟩ := compile_eq_ok_iff.mp hp
    rw [List.map_append, List.map_cons, hlexemes, ht, List.flatten_cons]
    exact .pipe hmeans (ih hqs)

/-- What the lexemes mean, the segments of a token list are read as. -/
theorem mapM_of_means (whole : Text) (length : Nat) {lexemes : List Lexeme} {p : Pipeline}
    (h : Pipeline.Means lexemes p) {tokens : List Token}
    (htokens : tokens.map Token.lexeme = lexemes) :
    ∃ ps, (all length tokens).mapM (compile whole) = .ok ps ∧ ps.flatten = p := by
  induction h generalizing tokens with
  | @single name arguments p hmeans =>
    have hfree : PipeFree tokens :=
      pipeFree_iff.mpr (htokens ▸ Operator.pipe_notMem_lexemes hmeans.isArgument)
    refine ⟨[p], ?_, by simp⟩
    rw [all_of_pipeFree hfree, mapM_cons_eq_ok_iff]
    exact ⟨p, [], compile_eq_ok_iff.mpr ⟨name, arguments, htokens, hmeans⟩, rfl, rfl⟩
  | @pipe name arguments rest p q hmeans _ ih =>
    obtain ⟨front, others, rfl, hfront, hothers⟩ := List.map_eq_append_iff.mp htokens
    obtain ⟨t, tokens, rfl, ht, htokens⟩ := List.map_eq_cons_iff.mp hothers
    have hfree : PipeFree front :=
      pipeFree_iff.mpr (hfront ▸ Operator.pipe_notMem_lexemes hmeans.isArgument)
    obtain ⟨ps, hps, rfl⟩ := ih htokens
    refine ⟨p :: ps, ?_, by simp⟩
    rw [all_append_pipe ht, all_of_pipeFree hfree, List.singleton_append, mapM_cons_eq_ok_iff]
    exact ⟨p, ps, compile_eq_ok_iff.mpr ⟨name, arguments, hfront, hmeans⟩, hps, rfl⟩

end Segment

/-! ## Queries -/

namespace Pipeline

variable {text : Text} {p : Pipeline}

/-- A query that is read is cut into lexemes that mean what it is read as. -/
theorem means_of_compile (h : compile text = .ok p) :
    ∃ tokens, tokenize text = .ok tokens ∧ Means (tokens.map Token.lexeme) p := by
  obtain ⟨tokens, htokens, h⟩ := bind_eq_ok_iff.mp h
  obtain ⟨ps, hps, h⟩ := bind_eq_ok_iff.mp h
  obtain rfl := pure_eq_ok_iff.mp h
  exact ⟨tokens, htokens, Segment.means_of_mapM hps⟩

/-- A query that is cut into lexemes with a meaning is read as what they mean. -/
theorem compile_of_means {tokens : List Token} (htokens : tokenize text = .ok tokens)
    (h : Means (tokens.map Token.lexeme) p) : compile text = .ok p := by
  obtain ⟨ps, hps, rfl⟩ := Segment.mapM_of_means text text.length h rfl
  exact bind_eq_ok_iff.mpr
    ⟨tokens, htokens, bind_eq_ok_iff.mpr ⟨ps, hps, pure_eq_ok_iff.mpr rfl⟩⟩

/-- **Reading accepts exactly the grammar and gives the meaning**: a text is read as a pipeline
exactly when it is cut into lexemes, and these mean the pipeline. -/
theorem compile_eq_ok_iff_means (text : Text) (p : Pipeline) :
    compile text = .ok p ↔
      ∃ tokens, tokenize text = .ok tokens ∧ Means (tokens.map Token.lexeme) p := by
  constructor
  · exact means_of_compile
  · rintro ⟨tokens, htokens, h⟩
    exact compile_of_means htokens h

end Pipeline

end MarkupQuery
