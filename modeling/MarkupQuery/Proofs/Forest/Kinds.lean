import MarkupQuery.Markup.Query
import MarkupQuery.Proofs.Result

/-!
# Kinds of value

Whether a pipeline runs to its end is decided by the kinds of value that its stages take and give.
The nodes, their links and all that is asked of them change the value of a run, but neither its kind
nor the stage that it ends at.

## Main definitions

* `Pipeline.Gives`: the shape of the pipelines that give nodes, and of those that give a text
* `Pipeline.Breaks`: the error of the leftmost stage that breaks the shape
* `Pipeline.check`: the kind of value that a pipeline gives, followed stage by stage

## Main results

* `Pipeline.check_eq_ok_iff_gives`, `Pipeline.check_eq_error_iff_breaks`: a check succeeds on the
  pipelines that have the shape, and ends at the stage that breaks it on the others
* `Forest.map_kind_step`, `Forest.map_kind_steps`: the kind of value along a run is the checked one
* `Pipeline.outcome_iff_shape`: the shape of a pipeline decides whether runs and queries succeed
-/

namespace MarkupQuery

/-! ## Shapes -/

/-- Of the two kinds of value, the other one. -/
def ValueKind.other : ValueKind → ValueKind
  | nodes => .text
  | text => .nodes

theorem ValueKind.eq_other_of_ne {k l : ValueKind} (h : k ≠ l) : l = k.other := by
  cases k with
  | nodes =>
    cases l with
    | nodes => contradiction
    | text => rfl
  | text =>
    cases l with
    | nodes => rfl
    | text => contradiction

theorem ValueKind.ne_other (k : ValueKind) : k ≠ k.other := by cases k <;> nofun

/-- The kind of value that a stage gives when it is given the kind that it takes. -/
def Stage.check (kind : ValueKind) (stage : Stage) : Except EvalError ValueKind :=
  if stage.input = kind then .ok stage.output else .error ⟨stage, kind⟩

namespace Pipeline

/-- The shape of the pipelines that give a kind of value: selections alone give nodes, and
selections, an extraction and then edits give a text. -/
def Gives : ValueKind → Pipeline → Prop
  | .nodes, p => ∃ selections : List Selection, p = selections.map .select
  | .text, p => ∃ (selections : List Selection) (extraction : Extraction) (edits : List Edit),
    p = selections.map .select ++ .extract extraction :: edits.map .edit

/-- The error of a pipeline without the shape. The stages before some stage have the shape, and with
that stage they no longer do. The error names that stage, the kind of value that it takes and the
other kind, which it is given. -/
def Breaks (p : Pipeline) (e : EvalError) : Prop :=
  ∃ before stage rest, p = before ++ stage :: rest ∧
    (∃ k, Gives k before) ∧ (∀ k, ¬ Gives k (before ++ [stage])) ∧
    e.stage = stage ∧ e.expected = stage.input ∧ e.actual = stage.input.other ∧
    e.message = ("Stage " : Text) ++ stage.toText ++ " expects " ++ stage.input.name ++ ", got " ++
      stage.input.other.name

variable {p : Pipeline} {kind k : ValueKind} {stage : Stage} {e : EvalError}

/-- A pipeline is made of one sort of stages when its first stage is of the sort and so are the
others. -/
theorem exists_cons_eq_map {β : Type} {f : β → Stage} :
    (∃ l : List β, stage :: p = l.map f) ↔ (∃ b, stage = f b) ∧ ∃ l : List β, p = l.map f := by
  constructor
  · rintro ⟨l, h⟩
    obtain ⟨b, rest, -, hb, hrest⟩ := List.map_eq_cons_iff.mp h.symm
    exact ⟨⟨b, hb.symm⟩, rest, hrest.symm⟩
  · rintro ⟨⟨b, rfl⟩, l, rfl⟩
    exact ⟨b :: l, rfl⟩

theorem gives_nil : Gives k [] ↔ k = .nodes := by
  cases k with
  | nodes => exact iff_of_true ⟨[], rfl⟩ rfl
  | text =>
    refine iff_of_false ?_ nofun
    rintro ⟨selections, extraction, edits, h⟩
    exact List.append_ne_nil_of_right_ne_nil _ (List.cons_ne_nil _ _) h.symm

theorem gives_select_cons {selection : Selection} :
    Gives k (.select selection :: p) ↔ Gives k p := by
  cases k with
  | nodes => exact exists_cons_eq_map.trans (and_iff_right ⟨selection, rfl⟩)
  | text =>
    constructor
    · rintro ⟨selections, extraction, edits, h⟩
      cases selections with
      | nil => cases h
      | cons _ rest => exact ⟨rest, extraction, edits, (List.cons.inj h).2⟩
    · rintro ⟨selections, extraction, edits, rfl⟩
      exact ⟨selection :: selections, extraction, edits, rfl⟩

theorem gives_extract_cons {extraction : Extraction} :
    Gives k (.extract extraction :: p) ↔ k = .text ∧ ∃ edits : List Edit, p = edits.map .edit := by
  cases k with
  | nodes =>
    refine iff_of_false (fun h => ?_) nofun
    obtain ⟨⟨selection, hselect⟩, -⟩ := exists_cons_eq_map.mp h
    cases hselect
  | text =>
    constructor
    · rintro ⟨selections, extraction', edits, h⟩
      cases selections with
      | nil => exact ⟨rfl, edits, (List.cons.inj h).2⟩
      | cons _ _ => cases h
    · rintro ⟨-, edits, rfl⟩
      exact ⟨[], extraction, edits, rfl⟩

theorem not_gives_edit_cons {edit : Edit} : ¬ Gives k (.edit edit :: p) := by
  cases k with
  | nodes =>
    intro h
    obtain ⟨⟨selection, hselect⟩, -⟩ := exists_cons_eq_map.mp h
    cases hselect
  | text =>
    rintro ⟨selections, extraction, edits, h⟩
    cases selections with
    | nil => cases h
    | cons _ _ => cases h

/-! ## Checks -/

/-- The kind of value that a pipeline gives from a kind. -/
def check (kind : ValueKind) (p : Pipeline) : Except EvalError ValueKind :=
  p.foldlM Stage.check kind

theorem check_cons (kind : ValueKind) (stage : Stage) (p : Pipeline) :
    check kind (stage :: p) = stage.check kind >>= fun kind => check kind p := List.foldlM_cons

theorem check_append (kind : ValueKind) (p q : Pipeline) :
    check kind (p ++ q) = check kind p >>= fun kind => check kind q := List.foldlM_append

theorem check_text_eq_ok_iff :
    check .text p = .ok k ↔ k = .text ∧ ∃ edits : List Edit, p = edits.map .edit := by
  induction p with
  | nil =>
    rw [check, List.foldlM_nil, pure_eq_ok_iff]
    exact ⟨fun h => ⟨h.symm, [], rfl⟩, fun h => h.1.symm⟩
  | cons stage p ih =>
    cases stage with
    | edit edit =>
      refine ih.trans (and_congr_right fun _ => ?_)
      exact (exists_cons_eq_map.trans (and_iff_right ⟨edit, rfl⟩)).symm
    | _ =>
      refine iff_of_false nofun ?_
      rintro ⟨-, h⟩
      obtain ⟨⟨edit, hedit⟩, -⟩ := exists_cons_eq_map.mp h
      cases hedit

/-- **A check succeeds on the pipelines that have the shape.** -/
theorem check_eq_ok_iff_gives : check .nodes p = .ok k ↔ p.Gives k := by
  induction p with
  | nil =>
    rw [check, List.foldlM_nil, pure_eq_ok_iff, gives_nil]
    exact eq_comm
  | cons stage p ih =>
    cases stage with
    | select selection => exact ih.trans gives_select_cons.symm
    | extract extraction => exact check_text_eq_ok_iff.trans gives_extract_cons.symm
    | edit edit => exact iff_of_false nofun not_gives_edit_cons

/-- A check ends at the first stage that is not given the kind that it takes. -/
theorem check_eq_error_iff :
    check kind p = .error e ↔ ∃ before rest, p = before ++ e.stage :: rest ∧
      check kind before = .ok e.actual ∧ e.stage.input ≠ e.actual := by
  induction p generalizing kind with
  | nil =>
    refine iff_of_false nofun ?_
    rintro ⟨before, rest, h, -⟩
    exact List.append_ne_nil_of_right_ne_nil _ (List.cons_ne_nil _ _) h.symm
  | cons stage p ih =>
    by_cases hkind : stage.input = kind
    · have hstage : stage.check kind = .ok stage.output := if_pos hkind
      rw [check_cons, hstage]
      refine ih.trans ⟨?_, ?_⟩
      · rintro ⟨before, rest, rfl, hbefore, hinput⟩
        refine ⟨stage :: before, rest, rfl, ?_, hinput⟩
        rw [check_cons, hstage]
        exact hbefore
      · rintro ⟨before, rest, h, hbefore, hinput⟩
        cases before with
        | nil =>
          obtain ⟨rfl, -⟩ := List.cons.inj h
          exact absurd (hkind.trans (Except.ok.inj hbefore)) hinput
        | cons _ before =>
          obtain ⟨rfl, hp⟩ := List.cons.inj h
          rw [check_cons, hstage] at hbefore
          exact ⟨before, rest, hp, hbefore, hinput⟩
    · have hstage : stage.check kind = .error ⟨stage, kind⟩ := if_neg hkind
      rw [check_cons, hstage]
      constructor
      · intro h
        obtain rfl := Except.error.inj h
        exact ⟨[], p, rfl, rfl, hkind⟩
      · rintro ⟨before, rest, h, hbefore, -⟩
        cases before with
        | nil =>
          obtain ⟨rfl, -⟩ := List.cons.inj h
          obtain rfl := Except.ok.inj hbefore
          rfl
        | cons _ before =>
          obtain ⟨rfl, -⟩ := List.cons.inj h
          rw [check_cons, hstage] at hbefore
          cases hbefore

/-- **A check of a pipeline without the shape ends at the stage that breaks it.** -/
theorem check_eq_error_iff_breaks : check .nodes p = .error e ↔ p.Breaks e := by
  rw [check_eq_error_iff]
  constructor
  · rintro ⟨before, rest, hp, hbefore, hinput⟩
    have hactual := ValueKind.eq_other_of_ne hinput
    have hgives := check_eq_ok_iff_gives.mp hbefore
    refine ⟨before, e.stage, rest, hp, ⟨_, hgives⟩, ?_, rfl, rfl, hactual, ?_⟩
    · intro k hk
      rw [← check_eq_ok_iff_gives, check_append, hbefore] at hk
      have hstage : e.stage.check e.actual = .error ⟨e.stage, e.actual⟩ := if_neg hinput
      have : check e.actual [e.stage] = .ok k := hk
      rw [check_cons, hstage] at this
      cases this
    · rw [EvalError.message, EvalError.expected, hactual]
  · rintro ⟨before, stage, rest, hp, ⟨k, hk⟩, hbreaks, rfl, -, hactual, -⟩
    rw [← check_eq_ok_iff_gives] at hk
    have hinput : e.stage.input ≠ k := by
      intro hinput
      refine hbreaks e.stage.output (check_eq_ok_iff_gives.mp ?_)
      have hstage : e.stage.check k = .ok e.stage.output := if_pos hinput
      rw [check_append, hk]
      show check k [e.stage] = _
      rw [check_cons, hstage]
      rfl
    rw [ValueKind.eq_other_of_ne hinput, ← hactual] at hk
    exact ⟨before, rest, hp, hk, hactual ▸ ValueKind.ne_other _⟩

end Pipeline

/-! ## Runs -/

namespace Forest

variable {ν : Type} [BEq ν] [Hashable ν] (F : Forest ν)

theorem map_kind_step (run : Run ν) (stage : Stage) :
    (F.step run stage).map (·.value.kind) = stage.check run.value.kind := by
  obtain ⟨order, value⟩ := run
  cases stage <;> cases value <;> rfl

/-- **The kind of value along a run is the checked one**, and a run ends where the check does. -/
theorem map_kind_steps (run : Run ν) (p : Pipeline) :
    (F.steps run p).map (·.value.kind) = p.check run.value.kind := by
  induction p generalizing run with
  | nil => rfl
  | cons stage p ih =>
    rw [steps, List.foldlM_cons, Pipeline.check_cons, ← map_kind_step F run stage]
    cases F.step run stage with
    | error e => rfl
    | ok next => exact ih next

theorem map_kind_evaluate (p : Pipeline) (context : List ν) :
    (F.evaluate p context).map Value.kind = p.check .nodes := by
  rw [evaluate, map_map]
  exact map_kind_steps F (F.start context) p

/-- A run gives a value of the kind that its pipeline gives. -/
theorem exists_evaluate_iff (p : Pipeline) (context : List ν) (k : ValueKind) :
    (∃ v, F.evaluate p context = .ok v ∧ v.kind = k) ↔ p.Gives k := by
  rw [← Pipeline.check_eq_ok_iff_gives, ← map_kind_evaluate F p context, map_eq_ok_iff]

theorem evaluate_eq_nodes_iff (p : Pipeline) (context : List ν) :
    (∃ ns, F.evaluate p context = .ok (.nodes ns)) ↔ p.Gives .nodes := by
  rw [← F.exists_evaluate_iff p context]
  constructor
  · rintro ⟨ns, h⟩
    exact ⟨_, h, rfl⟩
  · rintro ⟨ns | t, h, hkind⟩
    · exact ⟨ns, h⟩
    · cases hkind

theorem evaluate_eq_text_iff (p : Pipeline) (context : List ν) :
    (∃ t, F.evaluate p context = .ok (.text t)) ↔ p.Gives .text := by
  rw [← F.exists_evaluate_iff p context]
  constructor
  · rintro ⟨t, h⟩
    exact ⟨_, h, rfl⟩
  · rintro ⟨ns | t, h, hkind⟩
    · cases hkind
    · exact ⟨t, h⟩

theorem evaluate_eq_error_iff (p : Pipeline) (context : List ν) (e : EvalError) :
    F.evaluate p context = .error e ↔ p.Breaks e := by
  rw [← Pipeline.check_eq_error_iff_breaks, ← map_kind_evaluate F p context, map_eq_error_iff]

end Forest

/-- A query has a value on every markup, or the same error on all of them. -/
theorem query_ok_or_error (text : Text) :
    (∀ markup keepWhitespace, ∃ v, query text markup keepWhitespace = .ok v) ∨
      ∃ e, ∀ markup keepWhitespace, query text markup keepWhitespace = .error e := by
  cases hcompile : Pipeline.compile text with
  | error e =>
    refine Or.inr ⟨.parse e, fun markup keepWhitespace => ?_⟩
    rw [query, hcompile]
    rfl
  | ok p =>
    have hquery (markup : Text) (keepWhitespace : Bool) : query text markup keepWhitespace =
        (Index.ofDocuments [Node.parse keepWhitespace markup]).evaluate p [0] := by
      rw [query, hcompile]
      rfl
    cases hcheck : Pipeline.check .nodes p with
    | ok k =>
      refine Or.inl fun markup keepWhitespace => ?_
      have hkind := Forest.map_kind_evaluate
        (Index.ofDocuments [Node.parse keepWhitespace markup]).forest p [0]
      rw [hcheck, map_eq_ok_iff] at hkind
      obtain ⟨v, hv, -⟩ := hkind
      exact ⟨v, by rw [hquery, Index.evaluate, hv]; rfl⟩
    | error e =>
      refine Or.inr ⟨.evaluation e, fun markup keepWhitespace => ?_⟩
      rw [Pipeline.check_eq_error_iff_breaks] at hcheck
      rw [hquery, Index.evaluate, (Forest.evaluate_eq_error_iff _ p [0] e).mpr hcheck]
      rfl

/-- **The shape of a pipeline decides whether it runs to its end**, on any nodes of any forest. With
the one shape it gives nodes, with the other a text, and without both the error of the leftmost
stage that breaks the shape. So a query has a value on every markup, or the same error on all. -/
theorem Pipeline.outcome_iff_shape :
    (∀ (ν : Type) [BEq ν] [Hashable ν] (F : Forest ν) (p : Pipeline) (context : List ν),
        ((∃ ns, F.evaluate p context = .ok (.nodes ns)) ↔ p.Gives .nodes) ∧
          ((∃ t, F.evaluate p context = .ok (.text t)) ↔ p.Gives .text) ∧
            ∀ e, F.evaluate p context = .error e ↔ p.Breaks e) ∧
      ∀ text, (∀ markup keepWhitespace, ∃ v, query text markup keepWhitespace = .ok v) ∨
        ∃ e, ∀ markup keepWhitespace, query text markup keepWhitespace = .error e := by
  constructor
  · intro ν _ _ F p context
    exact ⟨F.evaluate_eq_nodes_iff p context, F.evaluate_eq_text_iff p context,
      F.evaluate_eq_error_iff p context⟩
  · exact query_ok_or_error

end MarkupQuery
