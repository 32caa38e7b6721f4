import MarkupQuery.Proofs.Pipeline.Building

/-!
# Why a stage is refused

A segment is refused at the first check that fails: it begins with an operator, which has a name
that is known, its arguments stand in parentheses with a comma between any two, there are as many as
the operator takes, and the operator accepts each of them. The class of the error tells which check
it was, and so can be said of the lexemes alone.

## Main definitions

* `Fault.ShowsAt`: a fault of a class that shows at one of the arguments
* `Operator.names`: the names that a segment may begin with
* `Operator.Applied`: the lexemes that apply a name to arguments
* `Segment.NamesUnknown`, `Segment.Miscounts`, `Segment.Misindexes`: what the classes of errors
  stand for
* `Segment.Refusal`: a class, and what it stands for

## Main results

* `Operator.refuses_stages?`: how an operator refuses its arguments
* `Operator.stages?_eq_none_iff`: how many arguments an operator takes
* `Pipeline.code_of_compile`: the class of the error for which a query of one stage is refused
-/

namespace MarkupQuery

/-! ## Arguments -/

/-- A fault of a class that shows at one of the arguments. -/
def Fault.ShowsAt (code : ErrorCode) (arguments : List Argument) (f : Fault) : Prop :=
  f.cause.code = code ∧ ∃ a ∈ arguments, f.position = a.position

namespace Argument

variable {as : List Argument} {a : Argument} {code : ErrorCode}

theorem refuses_located {α : Type} {result : Except Cause α} (ha : a ∈ as)
    (h : Refuses (·.code = code) result) : Refuses (Fault.ShowsAt code as) (a.located result) :=
  .mapError (h.mono fun _ hcode => ⟨hcode, a, ha, rfl⟩)

theorem refuses_literal (ha : a ∈ as) (kind : LiteralKind) :
    Refuses (Fault.ShowsAt .malformedStage as) (a.literal kind) := by
  refine refuses_located ha ?_
  split
  · exact fun _ => LiteralKind.code_of_check
  · exact .error rfl

theorem refuses_path (ha : a ∈ as) : Refuses (Fault.ShowsAt .malformedStage as) a.path := by
  refine .bind (refuses_literal ha .path) fun content _ => refuses_located ha ?_
  exact .mapError fun _ _ => rfl

theorem refuses_caseFlag (ha : a ∈ as) :
    Refuses (Fault.ShowsAt .malformedStage as) a.caseFlag := by
  refine refuses_located ha ?_
  split
  · exact .ok _
  · exact .error rfl

theorem refuses_index (ha : a ∈ as) : Refuses (Fault.ShowsAt .invalidNumber as) a.index := by
  refine refuses_located ha ?_
  split
  · exact .ok _
  · exact .error rfl

/-- The arguments are the literals and bare runs among the tokens. -/
theorem filterMap_of_list {tokens : List Token} (h : list tokens = .ok as) :
    tokens.filterMap ofToken? = as := by
  induction tokens using list_induction generalizing as with
  | nil => exact Except.ok.inj h
  | stray t rest ht => simp [list_cons_of_none ht] at h
  | single t a ht =>
    rw [list_cons_of_some ht] at h
    rw [List.filterMap_cons_some ht]
    exact Except.ok.inj h
  | pair t a separator more ht ih =>
    simp only [list_cons_of_some ht] at h
    split at h
    · next hcomma =>
      split at h
      · contradiction
      · obtain ⟨others, hothers, rfl⟩ := map_eq_ok_iff.mp h
        have hseparator : ofToken? separator = none := by simp [ofToken?, hcomma]
        rw [List.filterMap_cons_some ht, List.filterMap_cons_none hseparator, ih hothers]
    · contradiction

/-- What is no argument list is malformed at one of the tokens. -/
theorem refuses_list (tokens : List Token) :
    Refuses (fun f => f.cause.code = .malformedStage ∧ ∃ t ∈ tokens, f.position = t.start)
      (list tokens) := by
  induction tokens using list_induction with
  | nil => exact .ok _
  | stray t rest ht =>
    rw [list_cons_of_none ht]
    exact .error ⟨rfl, t, List.mem_cons_self, rfl⟩
  | single t a ht =>
    rw [list_cons_of_some ht]
    exact .ok _
  | pair t a separator more ht ih =>
    have hseparator : separator ∈ t :: separator :: more :=
      List.mem_cons_of_mem t List.mem_cons_self
    simp only [list_cons_of_some ht]
    split
    · split
      · exact .error ⟨rfl, separator, hseparator, rfl⟩
      · refine .map _ (ih.mono ?_)
        rintro f ⟨hcode, u, hu, hposition⟩
        exact ⟨hcode, u, List.mem_cons_of_mem t (List.mem_cons_of_mem separator hu), hposition⟩
    · exact .error ⟨rfl, separator, hseparator, rfl⟩

theorem isArgument_lexeme (a : Argument) : a.lexeme.IsArgument := by
  rw [lexeme]
  split
  · exact .literal _
  · exact .bare _

end Argument

/-! ## Operators -/

/-- A number of arguments is in the range. -/
def Arity.Admits (a : Arity) (count : Nat) : Prop := a.least ≤ count ∧ count ≤ a.most

namespace Operator

/-- The names of the eleven operators. -/
def names : List Text :=
  ["@flat", "@path", "@attr", "@id", "@class", "@child", "#text", "#trim", "#trimPrefix",
    "#trimSuffix", "#attr"]

theorem ofName?_eq_none_iff {name : Text} : ofName? name = none ↔ name ∉ names := by
  have hnames : names = all.map Operator.name := rfl
  simp only [ofName?, List.find?_eq_none, beq_iff_eq, hnames, List.mem_map, not_exists, not_and]

/-- **An operator makes stages of as many arguments as its range says**, and of no others. -/
theorem stages?_eq_none_iff {operator : Operator} {as : List Argument} :
    operator.stages? as = none ↔ ¬ operator.arity.Admits as.length := by
  -- No operator takes more than two arguments, so three stand for any more.
  rcases as with _ | ⟨a, _ | ⟨b, _ | ⟨c, more⟩⟩⟩ <;> cases operator <;>
    simp [stages?, arity, Arity.Admits]

/-- The class of the errors for which an operator refuses an argument. -/
def refusal : Operator → ErrorCode
  | child => .invalidNumber
  | _ => .malformedStage

/-- **The arguments that an operator does not accept** are malformed, or for a child index an
invalid number, and the fault shows at one of them. -/
theorem refuses_stages? {operator : Operator} {as : List Argument} {result : Except Fault Pipeline}
    (h : operator.stages? as = some result) :
    Refuses (Fault.ShowsAt operator.refusal as) result := by
  have hfirst {a : Argument} {more : List Argument} : a ∈ a :: more := List.mem_cons_self
  have hsecond {a b : Argument} : b ∈ [a, b] := List.mem_cons_of_mem a List.mem_cons_self
  unfold stages? at h
  -- One case for each row of the table, in its order.
  split at h <;> cases h
  · exact .ok _
  · exact .bind (Argument.refuses_path hfirst) fun _ _ => .ok _
  · exact .bind (Argument.refuses_literal hfirst _) fun _ _ => .ok _
  · exact .bind (Argument.refuses_literal hfirst _) fun _ _ =>
      .bind (Argument.refuses_literal hsecond _) fun _ _ => .ok _
  · exact .bind (Argument.refuses_literal hfirst _) fun _ _ => .ok _
  · exact .bind (Argument.refuses_literal hfirst _) fun _ _ =>
      .bind (Argument.refuses_caseFlag hsecond) fun _ _ => .ok _
  · exact .bind (Argument.refuses_literal hfirst _) fun _ _ => .ok _
  · exact .bind (Argument.refuses_literal hfirst _) fun _ _ =>
      .bind (Argument.refuses_caseFlag hsecond) fun _ _ => .ok _
  · exact .bind (Argument.refuses_index hfirst) fun _ _ => .ok _
  · exact .ok _
  · exact .ok _
  · exact .bind (Argument.refuses_literal hfirst _) fun _ _ => .ok _
  · exact .bind (Argument.refuses_literal hfirst _) fun _ _ => .ok _
  · exact .bind (Argument.refuses_literal hfirst _) fun _ _ => .ok _

/-- A child is refused for its one argument, which is no index. -/
theorem exists_of_stages?_child {as : List Argument} {f : Fault}
    (h : child.stages? as = some (.error f)) : ∃ a, as = [a] ∧ a.index = .error f := by
  rcases as with _ | ⟨a, _ | ⟨b, more⟩⟩
  · contradiction
  · refine ⟨a, rfl, ?_⟩
    rcases bind_eq_error_iff.mp (Option.some.inj h) with hindex | ⟨n, -, hn⟩
    · exact hindex
    · contradiction
  · contradiction

/-- The lexemes are a name with arguments in parentheses and commas between them: no more and no
less. -/
def Applied (name : Text) (arguments lexemes : List Lexeme) : Prop :=
  (∀ l ∈ arguments, l.IsArgument) ∧ lexemes = Operator.lexemes name arguments

end Operator

/-! ## Segments -/

namespace Segment

variable {first : Token} {rest : List Token}

/-- The segment begins like an operator, but no operator has the name. -/
def NamesUnknown (lexemes : List Lexeme) : Prop :=
  ∃ name rest, lexemes = .operator name :: rest ∧ name ∉ Operator.names

/-- An operator is applied to too few or too many arguments. -/
def Miscounts (lexemes : List Lexeme) : Prop :=
  ∃ (operator : Operator) (arguments : List Lexeme),
    Operator.Applied operator.name arguments lexemes ∧ ¬ operator.arity.Admits arguments.length

/-- A child is to be chosen, and the one argument is no bare numeral within the bound. -/
def Misindexes (lexemes : List Lexeme) : Prop :=
  ∃ argument, Operator.Applied "@child" [argument] lexemes ∧
    ¬ ∃ numeral index, argument = .bare numeral ∧ Decimal.SignedNumeral numeral index ∧
      index.natAbs ≤ 2 ^ 53 - 1

theorem namesUnknown_iff :
    NamesUnknown ((first :: rest).map Token.lexeme) ↔
      ∃ name, first.lexeme = .operator name ∧ Operator.ofName? name = none := by
  simp only [NamesUnknown, List.map_cons, List.cons.injEq, Operator.ofName?_eq_none_iff]
  constructor
  · rintro ⟨name, _, ⟨hfirst, -⟩, hname⟩
    exact ⟨name, hfirst, hname⟩
  · rintro ⟨name, hfirst, hname⟩
    exact ⟨name, _, ⟨hfirst, rfl⟩, hname⟩

/-- An operator is applied to the arguments that are read between its parentheses. -/
theorem applied_iff {operator : Operator} {lexemes : List Lexeme} :
    Operator.Applied operator.name lexemes ((first :: rest).map Token.lexeme) ↔
      first.lexeme = .operator operator.name ∧
        ∃ as, arguments operator first rest = .ok as ∧ as.map Argument.lexeme = lexemes := by
  constructor
  · rintro ⟨hall, h⟩
    exact exists_arguments h hall
  · rintro ⟨hfirst, as, has, rfl⟩
    refine ⟨fun l hl => ?_, lexemes_of_arguments hfirst has⟩
    obtain ⟨a, -, rfl⟩ := List.mem_map.mp hl
    exact a.isArgument_lexeme

theorem miscounts_iff :
    Miscounts ((first :: rest).map Token.lexeme) ↔
      ∃ (operator : Operator) (as : List Argument), first.lexeme = .operator operator.name ∧
        arguments operator first rest = .ok as ∧ operator.stages? as = none := by
  simp only [Miscounts, applied_iff]
  constructor
  · rintro ⟨operator, _, ⟨hfirst, as, has, rfl⟩, hcount⟩
    rw [List.length_map] at hcount
    exact ⟨operator, as, hfirst, has, Operator.stages?_eq_none_iff.mpr hcount⟩
  · rintro ⟨operator, as, hfirst, has, hnone⟩
    refine ⟨operator, _, ⟨hfirst, as, has, rfl⟩, ?_⟩
    rw [List.length_map]
    exact Operator.stages?_eq_none_iff.mp hnone

theorem misindexes_iff :
    Misindexes ((first :: rest).map Token.lexeme) ↔
      ∃ a f, first.lexeme = .operator Operator.child.name ∧
        arguments .child first rest = .ok [a] ∧ a.index = .error f := by
  have hname : Operator.child.name = "@child" := rfl
  simp only [Misindexes, ← hname, applied_iff]
  constructor
  · rintro ⟨_, ⟨hfirst, as, has, hmap⟩, hindex⟩
    obtain ⟨a, rfl, rfl⟩ := List.map_eq_singleton_iff.mp hmap
    cases hread : a.index with
    | ok n => exact absurd ⟨_, n, Argument.index_eq_ok_iff.mp hread |>.choose_spec⟩ hindex
    | error f => exact ⟨a, f, hfirst, has, hread⟩
  · rintro ⟨a, f, hfirst, has, hread⟩
    refine ⟨a.lexeme, ⟨hfirst, [a], has, rfl⟩, ?_⟩
    rintro ⟨numeral, n, hindex⟩
    rw [Argument.index_eq_ok_iff.mpr ⟨numeral, hindex⟩] at hread
    contradiction

/-! ## The first check that fails -/

section First

variable {operator : Operator} (hfirst : first.lexeme = .operator operator.name)
include hfirst

theorem eq_of_first {o : Operator} (h : first.lexeme = .operator o.name) : o = operator :=
  Operator.name_injective (Lexeme.operator.inj (h.symm.trans hfirst))

theorem not_namesUnknown_of_first : ¬ NamesUnknown ((first :: rest).map Token.lexeme) := by
  rw [namesUnknown_iff]
  rintro ⟨name, hname, hnone⟩
  obtain rfl := Lexeme.operator.inj (hfirst.symm.trans hname)
  rw [Operator.ofName?_eq_some_iff.mpr rfl] at hnone
  contradiction

theorem miscounts_iff_of_first :
    Miscounts ((first :: rest).map Token.lexeme) ↔
      ∃ as, arguments operator first rest = .ok as ∧ operator.stages? as = none := by
  rw [miscounts_iff]
  constructor
  · rintro ⟨o, as, ho, has, hnone⟩
    obtain rfl := eq_of_first hfirst ho
    exact ⟨as, has, hnone⟩
  · rintro ⟨as, has, hnone⟩
    exact ⟨operator, as, hfirst, has, hnone⟩

theorem misindexes_iff_of_first :
    Misindexes ((first :: rest).map Token.lexeme) ↔
      operator = .child ∧ ∃ a f, arguments operator first rest = .ok [a] ∧ a.index = .error f := by
  rw [misindexes_iff]
  constructor
  · rintro ⟨a, f, hchild, has, hindex⟩
    obtain rfl := eq_of_first hfirst hchild
    exact ⟨rfl, a, f, has, hindex⟩
  · rintro ⟨rfl, a, f, has, hindex⟩
    exact ⟨a, f, hfirst, has, hindex⟩

end First

/-- A segment without arguments in parentheses is malformed at one of its tokens. -/
theorem refuses_arguments (operator : Operator) (name : Token) (tokens : List Token) :
    Refuses (fun f => f.cause.code = .malformedStage ∧
        ∃ t ∈ name :: tokens, f.position = t.start ∨ f.position = t.stop)
      (arguments operator name tokens) := by
  rcases tokens with _ | ⟨opening, rest⟩
  · exact .error ⟨rfl, name, List.mem_cons_self, .inr rfl⟩
  have hmem {t : Token} (ht : t ∈ opening :: rest) : t ∈ name :: opening :: rest :=
    List.mem_cons_of_mem name ht
  rw [arguments]
  split
  · split
    · exact .error ⟨rfl, opening, hmem List.mem_cons_self, .inr rfl⟩
    · next closing hlast =>
      split
      · refine (Argument.refuses_list _).mono ?_
        rintro f ⟨hcode, t, ht, hposition⟩
        have ht := List.mem_cons_of_mem opening (List.dropLast_subset rest ht)
        exact ⟨hcode, t, hmem ht, .inl hposition⟩
      · have hclosing := List.mem_cons_of_mem opening (List.mem_of_getLast? hlast)
        exact .error ⟨rfl, closing, hmem hclosing, .inr rfl⟩
  · exact .error ⟨rfl, opening, hmem List.mem_cons_self, .inl rfl⟩

/-- The arguments that are read stand among the tokens. -/
theorem exists_token_of_arguments {operator : Operator} {as : List Argument} {a : Argument}
    (h : arguments operator first rest = .ok as) (ha : a ∈ as) :
    ∃ t ∈ rest, a.position = t.start := by
  obtain ⟨opening, inner, closing, rfl, -, -, hlist⟩ := arguments_eq_ok_iff.mp h
  rw [← Argument.filterMap_of_list hlist] at ha
  obtain ⟨t, ht, hta⟩ := List.mem_filterMap.mp ha
  refine ⟨t, List.mem_cons_of_mem opening (List.mem_append_left _ ht), ?_⟩
  exact (Argument.ofToken?_eq_some_iff.mp hta).2.symm

/-- **A segment is refused at one of its tokens**, where it starts or where it stops. -/
theorem refuses_stages (first : Token) (rest : List Token) :
    Refuses (fun f => ∃ t ∈ first :: rest, f.position = t.start ∨ f.position = t.stop)
      (stages first rest) := by
  have hreads := reads_stages first rest
  generalize stages first rest = result at hreads ⊢
  cases hreads with
  | stray hfirst => exact .error ⟨first, List.mem_cons_self, .inl rfl⟩
  | unknown hfirst hname => exact .error ⟨first, List.mem_cons_self, .inl rfl⟩
  | misshapen hfirst has => exact .error (refuses_arguments _ _ _ _ has).2
  | miscounted hfirst has hnone => exact .error ⟨first, List.mem_cons_self, .inl rfl⟩
  | applied hfirst has hsome =>
    refine (Operator.refuses_stages? hsome).mono ?_
    rintro f ⟨-, a, ha, hposition⟩
    obtain ⟨t, ht, hstart⟩ := exists_token_of_arguments has ha
    exact ⟨t, List.mem_cons_of_mem first ht, .inl (hposition.trans hstart)⟩

/-- The class of an error, and what it stands for. -/
inductive Refusal (lexemes : List Lexeme) : ErrorCode → Prop
  | unknown (h : NamesUnknown lexemes) (hcount : ¬ Miscounts lexemes)
      (hindex : ¬ Misindexes lexemes) : Refusal lexemes .unknownOperator
  | count (hname : ¬ NamesUnknown lexemes) (h : Miscounts lexemes)
      (hindex : ¬ Misindexes lexemes) : Refusal lexemes .arityMismatch
  | index (hname : ¬ NamesUnknown lexemes) (hcount : ¬ Miscounts lexemes)
      (h : Misindexes lexemes) : Refusal lexemes .invalidNumber
  | malformed (hname : ¬ NamesUnknown lexemes) (hcount : ¬ Miscounts lexemes)
      (hindex : ¬ Misindexes lexemes) : Refusal lexemes .malformedStage

/-- The class tells what is wrong. -/
theorem Refusal.code_iff {lexemes : List Lexeme} {code : ErrorCode} (h : Refusal lexemes code) :
    (code = .unknownOperator ↔ NamesUnknown lexemes) ∧
      (code = .arityMismatch ↔ Miscounts lexemes) ∧
      (code = .invalidNumber ↔ Misindexes lexemes) ∧
      (code = .malformedStage ↔
        ¬ NamesUnknown lexemes ∧ ¬ Miscounts lexemes ∧ ¬ Misindexes lexemes) := by
  cases h <;> simp [*]

/-- **A segment is refused for what is wrong with its lexemes.** -/
theorem refusal_of_stages {f : Fault} (h : stages first rest = .error f) :
    Refusal ((first :: rest).map Token.lexeme) f.cause.code := by
  have hreads := reads_stages first rest
  rw [h] at hreads
  cases hreads with
  | stray hfirst =>
    refine .malformed ?_ ?_ ?_
    · rw [namesUnknown_iff]
      rintro ⟨name, hname, -⟩
      exact hfirst name hname
    · rw [miscounts_iff]
      rintro ⟨operator, as, hname, -⟩
      exact hfirst _ hname
    · rw [misindexes_iff]
      rintro ⟨a, f, hname, -⟩
      exact hfirst _ hname
  | @unknown name hfirst hname =>
    have hne {operator : Operator} (h : first.lexeme = .operator operator.name) : False := by
      obtain rfl := Lexeme.operator.inj (hfirst.symm.trans h)
      rw [Operator.ofName?_eq_some_iff.mpr rfl] at hname
      contradiction
    refine .unknown (namesUnknown_iff.mpr ⟨name, hfirst, hname⟩) ?_ ?_
    · rw [miscounts_iff]
      rintro ⟨operator, as, h, -⟩
      exact hne h
    · rw [misindexes_iff]
      rintro ⟨a, f, h, -⟩
      exact hne h
  | misshapen hfirst has =>
    rw [(refuses_arguments _ _ _ _ has).1]
    refine .malformed (not_namesUnknown_of_first hfirst) ?_ ?_
    · rw [miscounts_iff_of_first hfirst, has]
      rintro ⟨as, has', -⟩
      contradiction
    · rw [misindexes_iff_of_first hfirst, has]
      rintro ⟨-, a, f, has', -⟩
      contradiction
  | miscounted hfirst has hnone =>
    refine .count (not_namesUnknown_of_first hfirst)
      ((miscounts_iff_of_first hfirst).mpr ⟨_, has, hnone⟩) ?_
    rw [misindexes_iff_of_first hfirst, has]
    rintro ⟨rfl, a, f, has', -⟩
    obtain rfl := Except.ok.inj has'
    contradiction
  | @applied operator as _ hfirst has hsome =>
    obtain ⟨hcode, -⟩ := Operator.refuses_stages? hsome f rfl
    have hcount : ¬ Miscounts ((first :: rest).map Token.lexeme) := by
      rw [miscounts_iff_of_first hfirst, has]
      rintro ⟨as', has', hnone⟩
      obtain rfl := Except.ok.inj has'
      rw [hsome] at hnone
      contradiction
    rw [hcode]
    by_cases hchild : operator = .child
    · -- The operator takes one argument, which is looked at for nothing but its index.
      subst hchild
      obtain ⟨a, rfl, hindex⟩ := Operator.exists_of_stages?_child hsome
      exact .index (not_namesUnknown_of_first hfirst) hcount
        ((misindexes_iff_of_first hfirst).mpr ⟨rfl, a, f, has, hindex⟩)
    · have hrefusal : operator.refusal = .malformedStage := by
        cases operator <;> first | rfl | contradiction
      rw [hrefusal]
      refine .malformed (not_namesUnknown_of_first hfirst) hcount fun hindex => ?_
      exact hchild ((misindexes_iff_of_first hfirst).mp hindex).1

end Segment

/-! ## Queries of one stage -/

/-- **The class of an error says what is wrong with a stage**: the name of its operator, the number
of arguments, or the child index; all else is malformed. A stage is looked at in this order, so no
two of them go together. -/
theorem Pipeline.code_of_compile {text : Text} {tokens : List Token}
    (htokens : tokenize text = .ok tokens) (hne : tokens ≠ []) (hfree : Segment.PipeFree tokens)
    {e : ParseError} (he : compile text = .error e) :
    (e.code = .unknownOperator ↔ Segment.NamesUnknown (tokens.map Token.lexeme)) ∧
      (e.code = .arityMismatch ↔ Segment.Miscounts (tokens.map Token.lexeme)) ∧
      (e.code = .invalidNumber ↔ Segment.Misindexes (tokens.map Token.lexeme)) ∧
      (e.code = .malformedStage ↔ ¬ Segment.NamesUnknown (tokens.map Token.lexeme) ∧
        ¬ Segment.Miscounts (tokens.map Token.lexeme) ∧
        ¬ Segment.Misindexes (tokens.map Token.lexeme)) := by
  obtain ⟨first, rest, rfl⟩ := List.exists_cons_of_ne_nil hne
  rw [compile_of_tokenize htokens, Segment.all_of_pipeFree hfree, ofSegments_singleton,
    Segment.compile_cons, mapError_eq_error_iff] at he
  obtain ⟨f, hf, rfl⟩ := he
  exact (Segment.refusal_of_stages hf).code_iff

/-- Neither argument is an index, but there are two of them. -/
theorem Pipeline.code_of_compile_child :
    tokenize "@child(x, `y`)" =
        .ok [⟨.operator "@child", 0, 6⟩, ⟨.lparen, 6, 7⟩, ⟨.bare "x", 7, 8⟩, ⟨.comma, 8, 9⟩,
          ⟨.literal "y", 10, 13⟩, ⟨.rparen, 13, 14⟩] ∧
      compile "@child(x, `y`)" =
        .error { cause := .arity .child 2, position := 0, segment := "@child(x, `y`)" } ∧
      Segment.Miscounts
        [.operator "@child", .lparen, .bare "x", .comma, .literal "y", .rparen] ∧
      ¬ Segment.Misindexes
        [.operator "@child", .lparen, .bare "x", .comma, .literal "y", .rparen] := by
  have htokens : tokenize "@child(x, `y`)" =
      .ok [⟨.operator "@child", 0, 6⟩, ⟨.lparen, 6, 7⟩, ⟨.bare "x", 7, 8⟩, ⟨.comma, 8, 9⟩,
        ⟨.literal "y", 10, 13⟩, ⟨.rparen, 13, 14⟩] := by decide +kernel
  have herror : compile "@child(x, `y`)" =
      .error { cause := .arity .child 2, position := 0, segment := "@child(x, `y`)" } := by
    decide +kernel
  have hfree : Segment.PipeFree
      [⟨.operator "@child", 0, 6⟩, ⟨.lparen, 6, 7⟩, ⟨.bare "x", 7, 8⟩, ⟨.comma, 8, 9⟩,
        ⟨.literal "y", 10, 13⟩, ⟨.rparen, 13, 14⟩] := by
    rw [Segment.pipeFree_iff]
    decide
  obtain ⟨-, hcount, hindex, -⟩ := code_of_compile htokens (List.cons_ne_nil _ _) hfree herror
  exact ⟨htokens, herror, hcount.mp rfl, fun h => absurd (hindex.mpr h) (by decide)⟩

end MarkupQuery
