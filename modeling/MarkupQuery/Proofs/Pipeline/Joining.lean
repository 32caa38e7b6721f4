import Mathlib.Data.List.Forall2
import Mathlib.Data.List.SplitBy
import MarkupQuery.Proofs.Pipeline.RoundTrip

/-!
# Pipelines that are put together

The text of a pipeline can be put together from texts of its parts, wherever the pipeline is cut and
whatever the stages hold. If the cut has a step on either side, the two are written in one path, and
the path goes on where it was cut. At any other cut there is a pipe. So the text is that of the
longest runs of steps and of the other stages, one after the other.

## Main definitions

* `Stage.isStep`: whether a stage is a step
* `Pipeline.RunText`: how a longest run of steps, or another stage, is written

## Main results

* `Pipeline.parts_append`, `Pipeline.exists_parts_append_eq`: the parts on both sides of a cut
* `Pipeline.splitBy_eq_map_stages`: the parts of a pipeline are its longest runs of steps and its
  other stages
* `Pipeline.toText_append`: the text of pipelines that are put together
-/

namespace MarkupQuery

/-- Whether a stage is a step. -/
def Stage.isStep : Stage → Bool
  | .select (.path _) => true
  | _ => false

theorem Stage.isStep_iff {s : Stage} : s.isStep = true ↔ ∃ step, s = .select (.path step) := by
  constructor
  · intro h
    match s, h with
    | .select (.path step), _ => exact ⟨step, rfl⟩
  · rintro ⟨step, rfl⟩
    rfl

/-! ## Texts with a separator -/

section Separator

variable (separator : Text)

/-- A text among others has a separator on both sides, if there is a text. -/
theorem Text.intercalate_append_cons (before after : List Text) (t : Text) :
    List.intercalate separator (before ++ t :: after) =
      before.flatMap (· ++ separator) ++ t ++ after.flatMap (separator ++ ·) := by
  induction before with
  | nil =>
    induction after generalizing t with
    | nil => simp
    | cons u after ih => simpa using ih u
  | cons u before ih =>
    cases before with
    | nil => simpa using ih
    | cons v before => simpa using ih

theorem Text.intercalate_append {ts us : List Text} (hts : ts ≠ []) (hus : us ≠ []) :
    List.intercalate separator (ts ++ us) =
      List.intercalate separator ts ++ separator ++ List.intercalate separator us := by
  induction ts with
  | nil => contradiction
  | cons t ts ih =>
    by_cases hts : ts = []
    · rw [hts, List.singleton_append, List.intercalate_cons_of_ne_nil hus,
        List.intercalate_singleton]
    · have happend : ts ++ us ≠ [] := List.append_ne_nil_of_left_ne_nil hts us
      rw [List.cons_append, List.intercalate_cons_of_ne_nil happend, ih hts,
        List.intercalate_cons_of_ne_nil hts]
      simp

end Separator

namespace Pipeline

variable {p q : Pipeline} {step : Step} {ps qs : List Part}

/-! ## Gathering -/

theorem parts_step (step : Step) (p : Pipeline) :
    parts (.select (.path step) :: p) = consStep step p.parts := rfl

theorem parts_of_isStep_eq_false {s : Stage} (h : s.isStep = false) (p : Pipeline) :
    parts (s :: p) = .stage s :: p.parts := by
  rw [parts]
  rintro step rfl
  contradiction

theorem parts_eq_nil_iff : p.parts = [] ↔ p = [] := by
  constructor
  · intro h
    have := flatMap_stages_parts p
    rw [h] at this
    exact this.symm
  · rintro rfl
    rfl

theorem exists_consStep_eq (step : Step) (ps : List Part) :
    ∃ steps qs, consStep step ps = .path (step :: steps) :: qs := by
  unfold consStep
  split
  · next steps qs => exact ⟨steps, qs, rfl⟩
  · exact ⟨[], ps, rfl⟩

theorem consStep_append (hps : ps ≠ []) : consStep step (ps ++ qs) = consStep step ps ++ qs := by
  cases ps with
  | nil => contradiction
  | cons part ps => cases part <;> rfl

/-- Steps that are put in front of a path one by one go on in it. -/
theorem foldr_consStep (steps more : Path) (ps : List Part) :
    steps.foldr consStep (.path more :: ps) = .path (steps ++ more) :: ps := by
  induction steps with
  | nil => rfl
  | cons step steps ih =>
    rw [List.foldr_cons, ih]
    rfl

/-! ## Cuts -/

/-- Where a cut has not a step on either side, the two sides are gathered by themselves. -/
theorem parts_append (h : ∀ s ∈ p.getLast?, ∀ t ∈ q.head?, (s.isStep && t.isStep) = false) :
    parts (p ++ q) = p.parts ++ q.parts := by
  induction p with
  | nil => rfl
  | cons s p ih =>
    have hlast : ∀ t ∈ p.getLast?, t ∈ (s :: p).getLast? := by
      intro t ht
      rw [List.getLast?_cons, Option.mem_def.mp ht]
      rfl
    have ih := ih fun t ht => h t (hlast t ht)
    cases hs : s.isStep with
    | false =>
      rw [List.cons_append, parts_of_isStep_eq_false hs, parts_of_isStep_eq_false hs, ih,
        List.cons_append]
    | true =>
      obtain ⟨step, rfl⟩ := Stage.isStep_iff.mp hs
      rw [List.cons_append, parts_step, parts_step, ih]
      by_cases hp : p = []
      · -- The step stands at the cut, and behind the cut there is none.
        subst hp
        cases q with
        | nil => rfl
        | cons t q =>
          have ht : t.isStep = false := h _ rfl t rfl
          rw [parts_of_isStep_eq_false ht]
          rfl
      · exact consStep_append (mt parts_eq_nil_iff.mp hp)

/-- The steps up to a step and all that is before them are gathered alike whatever follows. -/
theorem exists_parts_append (p : Pipeline) (step : Step) : ∃ (ps : List Part) (steps : Path), ∀ q,
    parts (p ++ .select (.path step) :: q) =
      ps ++ steps.foldr consStep (consStep step (parts q)) := by
  induction p with
  | nil => exact ⟨[], [], fun q => rfl⟩
  | cons s p ih =>
    obtain ⟨ps, steps, h⟩ := ih
    cases hs : s.isStep with
    | false =>
      refine ⟨.stage s :: ps, steps, fun q => ?_⟩
      rw [List.cons_append, parts_of_isStep_eq_false hs, h, List.cons_append]
    | true =>
      obtain ⟨first, rfl⟩ := Stage.isStep_iff.mp hs
      by_cases hps : ps = []
      · refine ⟨[], first :: steps, fun q => ?_⟩
        rw [List.cons_append, parts_step, h, hps]
        rfl
      · refine ⟨consStep first ps, steps, fun q => ?_⟩
        rw [List.cons_append, parts_step, h, consStep_append hps]

/-- Where a cut has a step on either side, the last path before it and the first behind it are
one. -/
theorem exists_parts_append_eq (p q : Pipeline) (last first : Step) : ∃ ps steps more qs,
    parts (p ++ [.select (.path last)]) = ps ++ [.path steps] ∧
      parts (.select (.path first) :: q) = .path more :: qs ∧
        parts (p ++ [.select (.path last)] ++ .select (.path first) :: q) =
          ps ++ .path (steps ++ more) :: qs := by
  obtain ⟨ps, steps, hparts⟩ := exists_parts_append p last
  obtain ⟨more, qs, hmore⟩ := exists_consStep_eq first q.parts
  refine ⟨ps, steps ++ [last], first :: more, qs, ?_, hmore, ?_⟩
  · rw [hparts, ← foldr_consStep]
    rfl
  · rw [List.append_assoc, List.singleton_append, hparts, parts_step, hmore, List.append_assoc,
      List.singleton_append, ← foldr_consStep]
    rfl

/-! ## Runs -/

/-- A run of stages and its text: a stage that is no step is written by itself, and steps are
written as one path. -/
inductive RunText : Pipeline → Text → Prop
  | stage {s : Stage} (hs : s.isStep = false) : RunText [s] s.toText
  | path {steps : Path} (hsteps : steps ≠ []) :
      RunText (steps.map fun step => .select (.path step)) ("@path(`" ++ Path.toText steps ++ "`)")

/-- Whether a part is as it is gathered: a path has a step, and no step stands outside of a path. -/
def Part.IsGathered : Part → Prop
  | .path steps => steps ≠ []
  | .stage s => s.isStep = false

theorem isGathered_consStep (hps : ∀ part ∈ ps, part.IsGathered) :
    ∀ part ∈ consStep step ps, part.IsGathered := by
  unfold consStep
  split
  · next steps rest =>
    exact List.forall_mem_cons.mpr ⟨List.cons_ne_nil _ _, (List.forall_mem_cons.mp hps).2⟩
  · exact List.forall_mem_cons.mpr ⟨List.cons_ne_nil _ _, hps⟩

theorem isGathered_parts (p : Pipeline) : ∀ part ∈ p.parts, part.IsGathered := by
  induction p with
  | nil => nofun
  | cons s p ih =>
    cases hs : s.isStep with
    | false =>
      rw [parts_of_isStep_eq_false hs]
      exact List.forall_mem_cons.mpr ⟨hs, ih⟩
    | true =>
      obtain ⟨step, rfl⟩ := Stage.isStep_iff.mp hs
      exact isGathered_consStep ih

theorem path_toText (steps : Path) :
    (Part.path steps).toText = "@path(`" ++ Path.toText steps ++ "`)" := by
  have hname : Operator.path.name ++ "(" = ("@path(" : Text) := by decide
  have hopen : ("@path(`" : Text) = "@path(" ++ [CodeUnit.backtick] := by decide
  have hclose : ("`)" : Text) = [CodeUnit.backtick] ++ ")" := by decide
  rw [Part.toText, Operator.applied, hname, hopen, hclose]
  simp [Text.enclosed]

/-- The parts of a pipeline are written as runs. -/
theorem forall₂_runText (p : Pipeline) :
    List.Forall₂ RunText (p.parts.map Part.stages) (p.parts.map Part.toText) := by
  rw [List.forall₂_map_left_iff, List.forall₂_map_right_iff, List.forall₂_same]
  intro part hpart
  have h := isGathered_parts p part hpart
  cases part with
  | path steps =>
    rw [path_toText]
    exact .path h
  | stage s => exact .stage h

/-- What is related to the first element of a list joins its first run. -/
theorem splitBy_cons_of_rel {α : Type} {r : α → α → Bool} {a : α} {l m : List α}
    {ms : List (List α)} (h : l.splitBy r = m :: ms) (hr : ∀ b ∈ l.head?, r a b = true) :
    (a :: l).splitBy r = (a :: m) :: ms := by
  obtain ⟨rfl, hne, hchain, hseams⟩ := List.splitBy_eq_iff.mp h
  rw [List.mem_cons, not_or] at hne
  rw [List.forall_mem_cons] at hchain
  rw [List.isChain_cons] at hseams
  have hm : m ≠ [] := Ne.symm hne.1
  rw [List.flatten_cons, List.head?_append_of_ne_nil _ hm] at hr
  refine List.splitBy_eq_iff.mpr ⟨rfl, ?_, ?_, ?_⟩
  · rw [List.mem_cons, not_or]
    exact ⟨(List.cons_ne_nil a m).symm, hne.2⟩
  · exact List.forall_mem_cons.mpr ⟨List.isChain_cons.mpr ⟨hr, hchain.1⟩, hchain.2⟩
  · refine List.isChain_cons.mpr ⟨fun next hnext => ?_, hseams.2⟩
    obtain ⟨_, hhead, hrel⟩ := hseams.1 next hnext
    exact ⟨List.cons_ne_nil a m, hhead, by rwa [List.getLast_cons hm]⟩

/-- **The parts of a pipeline are its longest runs of steps and its other stages.** -/
theorem splitBy_eq_map_stages (p : Pipeline) :
    p.splitBy (fun s t => s.isStep && t.isStep) = p.parts.map Part.stages := by
  induction p with
  | nil => rfl
  | cons s p ih =>
    have hapart (h : ∀ t ∈ p.head?, (s.isStep && t.isStep) = false) :
        (s :: p).splitBy (fun s t => s.isStep && t.isStep) = [s] :: (parts p).map Part.stages := by
      rw [← List.singleton_append, List.splitBy_append, ih]
      · rfl
      · simpa using h
    cases hs : s.isStep with
    | false =>
      rw [parts_of_isStep_eq_false hs, hapart]
      · rfl
      · simp [hs]
    | true =>
      obtain ⟨step, rfl⟩ := Stage.isStep_iff.mp hs
      cases p with
      | nil => rfl
      | cons t p =>
        cases ht : t.isStep with
        | false =>
          rw [hapart (by simp [ht]), parts_step, parts_of_isStep_eq_false ht]
          rfl
        | true =>
          obtain ⟨next, rfl⟩ := Stage.isStep_iff.mp ht
          obtain ⟨steps, qs, hq⟩ := exists_consStep_eq next (parts p)
          rw [parts_step, hq] at ih
          rw [parts_step, parts_step, hq]
          exact splitBy_cons_of_rel ih (by simp [hs, ht])

/-! ## Texts -/

theorem toText_append_of_not (hp : p ≠ []) (hq : q ≠ [])
    (h : ¬ ((p.getLast hp).isStep ∧ (q.head hq).isStep)) :
    toText (p ++ q) = toText p ++ " | " ++ toText q := by
  have hparts : parts (p ++ q) = p.parts ++ q.parts := by
    apply parts_append
    intro s hs t ht
    rw [List.getLast?_eq_some_getLast hp] at hs
    rw [List.head?_eq_some_head hq] at ht
    cases hs
    cases ht
    simpa using h
  have hmap {r : Pipeline} (hr : r ≠ []) : r.parts.map Part.toText ≠ [] :=
    mt List.map_eq_nil_iff.mp (mt parts_eq_nil_iff.mp hr)
  rw [toText, toText, toText, hparts, List.map_append,
    Text.intercalate_append _ (hmap hp) (hmap hq)]

theorem exists_toText_append (hp : p ≠ []) (hq : q ≠ [])
    (h : (p.getLast hp).isStep ∧ (q.head hq).isStep) :
    ∃ front back : Text, toText p = front ++ "`)" ∧ toText q = "@path(`" ++ back ∧
      toText (p ++ q) = front ++ back := by
  obtain ⟨last, hlast⟩ := Stage.isStep_iff.mp h.1
  obtain ⟨first, hfirst⟩ := Stage.isStep_iff.mp h.2
  obtain ⟨p, rfl⟩ : ∃ p' : Pipeline, p = p' ++ [.select (.path last)] :=
    ⟨p.dropLast, by rw [← hlast, List.dropLast_concat_getLast]⟩
  obtain ⟨q, rfl⟩ : ∃ q' : Pipeline, q = .select (.path first) :: q' :=
    ⟨q.tail, by rw [← hfirst, List.cons_head_tail]⟩
  obtain ⟨ps, steps, more, qs, hp, hq, hpq⟩ := exists_parts_append_eq p q last first
  refine ⟨(ps.map Part.toText).flatMap (· ++ (" | " : Text)) ++ ("@path(`" ++ Path.toText steps),
    Path.toText more ++ "`)" ++ (qs.map Part.toText).flatMap ((" | " : Text) ++ ·), ?_, ?_, ?_⟩
  · rw [toText, hp, List.map_append, List.map_singleton, Text.intercalate_append_cons, path_toText]
    simp
  · rw [toText, hq, List.map_cons, ← List.nil_append (Part.toText _ :: _),
      Text.intercalate_append_cons, path_toText]
    simp
  · rw [toText, hpq, List.map_append, List.map_cons, Text.intercalate_append_cons, path_toText]
    simp [Path.toText]

/-- **The text of pipelines that are put together**, whatever their stages hold. Where a cut has a
step on either side, the text before it without the end of its last path goes on with the text
behind it without the beginning of its first path. Elsewhere there is a pipe between the two texts.
So every stage that is no step is written by itself and every longest run of steps as one path. -/
theorem toText_append (hp : p ≠ []) (hq : q ≠ []) :
    (¬ ((p.getLast hp).isStep ∧ (q.head hq).isStep) →
        toText (p ++ q) = toText p ++ " | " ++ toText q) ∧
      ((p.getLast hp).isStep ∧ (q.head hq).isStep → ∃ front back : Text,
        toText p = front ++ "`)" ∧ toText q = "@path(`" ++ back ∧ toText (p ++ q) = front ++ back) ∧
      ∀ r : Pipeline, ∃ texts, toText r = List.intercalate " | " texts ∧
        List.Forall₂ RunText (r.splitBy fun s t => s.isStep && t.isStep) texts := by
  refine ⟨toText_append_of_not hp hq, exists_toText_append hp hq, fun r => ?_⟩
  refine ⟨r.parts.map Part.toText, rfl, ?_⟩
  rw [splitBy_eq_map_stages]
  exact forall₂_runText r

/-- Between two steps, of which one holds a backtick and the other nothing. -/
theorem toText_append_steps :
    [Stage.select .flat, .select (.path ⟨.descendant, "`)"⟩)] ≠ [] ∧
      [Stage.select (.path ⟨.child, ""⟩), .extract .text] ≠ [] ∧
      ∃ front back : Text,
        toText [.select .flat, .select (.path ⟨.descendant, "`)"⟩)] = front ++ "`)" ∧
        toText [.select (.path ⟨.child, ""⟩), .extract .text] = "@path(`" ++ back ∧
        toText ([.select .flat, .select (.path ⟨.descendant, "`)"⟩)] ++
          [.select (.path ⟨.child, ""⟩), .extract .text]) = front ++ back := by
  have hp : [Stage.select .flat, .select (.path ⟨.descendant, "`)"⟩)] ≠ [] := List.cons_ne_nil _ _
  have hq : [Stage.select (.path ⟨.child, ""⟩), .extract .text] ≠ [] := List.cons_ne_nil _ _
  exact ⟨hp, hq, (toText_append hp hq).2.1 ⟨rfl, rfl⟩⟩

end Pipeline

end MarkupQuery
